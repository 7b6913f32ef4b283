import Sel4Linux.Bytes
import Sel4Linux.Slices
import Mathlib.Data.List.Perm.Basic
import Mathlib.Data.List.Pairwise

/-!
The flat images that the build tools make of the load segments of a kernel:
`build_flat_binary` of `tools/mkimage.py` writes the segments into a buffer of the
final size, `build` of `tools/mk-bzimage.py` appends them. Segments that do not
meet in memory give the same bytes either way and in any order
(`flat_images_agree`).
-/
namespace Sel4Linux.FlatImage
open Sel4Linux.Bytes Sel4Linux.Slices
set_option linter.unusedSimpArgs false

/-- A tuple of `segs`. -/
structure LoadSegment where
  offset : Nat
  paddr : Nat
  filesz : Nat
  memsz : Nat
  deriving DecidableEq

/-- `align_up`, on Python's integers. -/
def alignUp (val align : Nat) : Nat := Nat.ldiff (val + align - 1) (align - 1)

/-- `min(s[1] for s in segs)`. -/
def minPaddr (segs : List LoadSegment) : Nat := (segs.map fun s => s.paddr).min?.getD 0

/-- `max(s[1] + max(s[2], s[3]) for s in segs)`. -/
def maxPaddr (segs : List LoadSegment) : Nat := (segs.map fun s => s.paddr + max s.filesz s.memsz).max?.getD 0

/-- `sorted(segs, key=lambda s: s[1])`, which is stable. -/
def sorted (segs : List LoadSegment) : List LoadSegment := segs.mergeSort fun s t => s.paddr ≤ t.paddr

section
variable (base : Nat) (data : List Byte)

/-- The bytes of a segment in the file. -/
def fileOf (s : LoadSegment) : List Byte := slice data s.offset (s.offset + s.filesz)

/-- The loop's body in `build_flat_binary`. -/
def fill (buf : List Byte) (s : LoadSegment) : List Byte :=
  let dest := s.paddr - base
  assign buf dest (dest + s.filesz) (fileOf data s)

/-- The loop's body in `build`. -/
def extend (kernelBin : List Byte) (s : LoadSegment) : List Byte :=
  let dest := s.paddr - base
  padTo (padTo kernelBin dest 0 ++ fileOf data s) (dest + s.memsz) 0

end

/-- `build_flat_binary`: the bytes, their number and the lowest address. -/
def buildFlatBinary (segs : List LoadSegment) (data : List Byte) : List Byte × Nat × Nat :=
  if segs.isEmpty then ([],0,0)
  else
    let size := alignUp (maxPaddr segs - minPaddr segs) 4096
    let buf := (sorted segs).foldl (fill (minPaddr segs) data) (List.replicate size 0)
    (ljust buf size 0,size,minPaddr segs)

/-- The part of `build` that makes `kernel_bin`; without segments the tool exits. -/
def flatten (segs : List LoadSegment) (data : List Byte) : Option (List Byte) :=
  if segs.isEmpty then none else some ((sorted segs).foldl (extend (minPaddr segs) data) [])

/-- No address is in both ranges of memory. -/
def Apart (s t : LoadSegment) : Prop := ∀ a, s.paddr ≤ a → a < s.paddr + s.memsz → a < t.paddr ∨ t.paddr + t.memsz ≤ a

/-- Segments that the file has the bytes of and that do not meet. -/
structure Loadable (segs : List LoadSegment) (data : List Byte) : Prop where
  sized : ∀ s ∈ segs, s.filesz ≤ s.memsz
  inFile : ∀ s ∈ segs, s.offset + s.filesz ≤ data.length
  apart : segs.Pairwise Apart

/-- The flat image: every byte that a segment has in the file at its distance from the lowest address, zeros otherwise. -/
structure FlatOf (segs : List LoadSegment) (data buf : List Byte) : Prop where
  file : ∀ s ∈ segs, ∀ k < s.filesz, buf[s.paddr - minPaddr segs + k]? = data[s.offset + k]?
  zero : ∀ i < buf.length, (∀ s ∈ segs, ∀ k < s.filesz, i ≠ s.paddr - minPaddr segs + k) → buf[i]? = some 0

/-! ## Addresses -/

theorem alignUp_page (val : Nat) : alignUp val 4096 = (val + 4095) / 4096 * 4096 := ldiff_mask (val + 4095) 12

variable {segs others : List LoadSegment} {data : List Byte}

theorem minPaddr_le {s : LoadSegment} (member : s ∈ segs) : minPaddr segs ≤ s.paddr :=
  List.min?_getD_le_of_mem (List.mem_map_of_mem (f := fun s => s.paddr) member)

theorem le_maxPaddr {s : LoadSegment} (member : s ∈ segs) : s.paddr + max s.filesz s.memsz ≤ maxPaddr segs :=
  List.le_max?_getD_of_mem (List.mem_map_of_mem (f := fun s => s.paddr + max s.filesz s.memsz) member)

theorem minPaddr_mem (some' : segs ≠ []) : ∃ s ∈ segs, minPaddr segs = s.paddr := by
  obtain ⟨m,isMin⟩ := Option.isSome_iff_exists.mp
    (List.isSome_min?_of_ne_nil (l := segs.map fun s => s.paddr) (by simpa using some'))
  obtain ⟨s,member,here⟩ := List.mem_map.mp (List.min?_mem isMin)
  exact ⟨s,member,by rw [minPaddr,isMin,here]; rfl⟩

theorem maxPaddr_mem (some' : segs ≠ []) : ∃ s ∈ segs, maxPaddr segs = s.paddr + max s.filesz s.memsz := by
  obtain ⟨m,isMax⟩ := Option.isSome_iff_exists.mp
    (List.isSome_max?_of_ne_nil (show segs.map (fun s => s.paddr + max s.filesz s.memsz) ≠ [] by simpa using some'))
  obtain ⟨s,member,here⟩ := List.mem_map.mp (List.max?_mem isMax)
  exact ⟨s,member,by rw [maxPaddr,isMax,here]; rfl⟩

theorem minPaddr_perm (same : others.Perm segs) : minPaddr others = minPaddr segs := by
  by_cases some' : segs = []
  · subst some'
    rw [List.perm_nil.mp same]
  · obtain ⟨s,member,isMin⟩ := minPaddr_mem some'
    obtain ⟨t,member',isMin'⟩ := minPaddr_mem (show others ≠ [] from fun none' => some' (List.nil_perm.mp (none' ▸ same)))
    have below := minPaddr_le (same.mem_iff.mpr member)
    have below' := minPaddr_le (same.mem_iff.mp member')
    omega

/-! ## The segments as pieces -/

/-- A segment's bytes at their place in the image. -/
def pieceOf (base : Nat) (data : List Byte) (s : LoadSegment) : Nat × List Byte := (s.paddr - base,fileOf data s)

theorem length_fileOf (loadable : Loadable segs data) {s : LoadSegment} (member : s ∈ segs) :
    (fileOf data s).length = s.filesz := length_slice (loadable.inFile s member)

theorem Apart.symm {s t : LoadSegment} (apart : Apart s t) : Apart t s := by
  intro a above below
  by_contra meets
  have other := apart a (by omega) (by omega)
  omega

theorem apart_clear (loadable : Loadable segs data) {s t : LoadSegment} (first : s ∈ segs) (second : t ∈ segs)
    (apart : Apart s t) : Clear (pieceOf (minPaddr segs) data s) (pieceOf (minPaddr segs) data t) := by
  have low := minPaddr_le first
  have low' := minPaddr_le second
  have sized := loadable.sized s first
  have sized' := loadable.sized t second
  intro i above below
  simp only [pieceOf,length_fileOf loadable first,length_fileOf loadable second] at above below ⊢
  have other := apart (i + minPaddr segs) (by omega) (by omega)
  omega

/-- What a buffer shows of the segments makes it a flat image. -/
theorem flatOf_of_shows (loadable : Loadable segs data) {buf : List Byte}
    (shows : Shows 0 (segs.map (pieceOf (minPaddr segs) data)) buf) : FlatOf segs data buf := by
  constructor
  · intro s member k low
    have there := shows.there _ (List.mem_map_of_mem member) k (by rw [pieceOf,length_fileOf loadable member]; exact low)
    rw [pieceOf,fileOf,getElem?_slice,if_pos (by omega)] at there
    exact there
  · intro i inside outside
    refine shows.blank i inside ?_
    intro p isPiece
    obtain ⟨s,member,rfl⟩ := List.mem_map.mp isPiece
    simp only [pieceOf,length_fileOf loadable member]
    by_contra meets
    exact outside s member (i - (s.paddr - minPaddr segs)) (by omega) (by omega)


/-! ## Both loops -/

/-- `build_flat_binary`'s loop over segments that do not meet: the buffer keeps its length and shows one segment more each
    turn. -/
theorem filled (loadable : Loadable segs data) {rest done : List LoadSegment} {buf : List Byte}
    (inside : ∀ s ∈ rest, s ∈ segs) (before : ∀ s ∈ done, s ∈ segs) (apart : rest.Pairwise Apart)
    (clear : ∀ s ∈ done, ∀ t ∈ rest, Apart s t) (room : maxPaddr segs - minPaddr segs ≤ buf.length)
    (shows : Shows 0 (done.map (pieceOf (minPaddr segs) data)) buf) :
    (rest.foldl (fill (minPaddr segs) data) buf).length = buf.length ∧
      Shows 0 ((rest.reverse ++ done).map (pieceOf (minPaddr segs) data)) (rest.foldl (fill (minPaddr segs) data) buf) := by
  induction rest generalizing done buf with
  | nil => exact ⟨rfl,shows⟩
  | cons s rest ih =>
    have member := inside s (by simp)
    have length := length_fileOf loadable member
    have above := le_maxPaddr member
    have low := minPaddr_le member
    have fits : (pieceOf (minPaddr segs) data s).1 + (pieceOf (minPaddr segs) data s).2.length ≤ buf.length := by
      simp only [pieceOf,length]
      omega
    have isFill : fill (minPaddr segs) data buf s = assign buf (pieceOf (minPaddr segs) data s).1
        ((pieceOf (minPaddr segs) data s).1 + (pieceOf (minPaddr segs) data s).2.length) (pieceOf (minPaddr segs) data s).2 := by
      simp only [fill,pieceOf,length]
    have step : Shows 0 ((s :: done).map (pieceOf (minPaddr segs) data)) (fill (minPaddr segs) data buf s) := by
      rw [isFill]
      refine shows_assign shows fits fun q isPiece => ?_
      obtain ⟨t,old,rfl⟩ := List.mem_map.mp isPiece
      exact apart_clear loadable (before t old) member (clear t old s (by simp))
    have same : (fill (minPaddr segs) data buf s).length = buf.length := by rw [isFill,length_assign fits]
    obtain ⟨apartHere,apartLater⟩ := List.pairwise_cons.mp apart
    have later := ih (fun t member => inside t (List.mem_cons_of_mem _ member))
      (List.forall_mem_cons.mpr ⟨member,before⟩) apartLater
      (List.forall_mem_cons.mpr ⟨apartHere,fun t old u new => clear t old u (List.mem_cons_of_mem _ new)⟩)
      (same ▸ room) step
    rw [List.foldl_cons,List.reverse_cons,List.append_assoc,List.singleton_append]
    exact ⟨later.1.trans same,later.2⟩

/-- What `build`'s loop has done: the segments are shown, and the end is the end of the one that ends last. -/
structure Grown (base : Nat) (data : List Byte) (done : List LoadSegment) (flat : List Byte) : Prop where
  shows : Shows 0 (done.map (pieceOf base data)) flat
  reaches : ∀ s ∈ done, s.paddr - base + s.memsz ≤ flat.length
  ends : flat = [] ∨ ∃ s ∈ done, flat.length = s.paddr - base + s.memsz

/-- Segments before this one, by their addresses, end before it begins, unless it is empty. -/
theorem behind_of_sorted {base : Nat} {done : List LoadSegment} {flat : List Byte} {s : LoadSegment}
    (grown : Grown base data done flat) (low : ∀ t ∈ done, base ≤ t.paddr) (order : ∀ t ∈ done, t.paddr ≤ s.paddr)
    (apart : ∀ t ∈ done, Apart t s) :
    flat.length ≤ s.paddr - base ∨ s.memsz = 0 := by
  by_cases empty : s.memsz = 0
  · exact .inr empty
  · left
    rcases grown.ends with none' | ⟨t,old,isEnd⟩
    · simp [none']
    · have above := low t old
      have below := order t old
      by_contra meets
      have other := apart t old s.paddr below (by omega)
      omega

theorem extended {base : Nat} {done : List LoadSegment} {flat : List Byte} {s : LoadSegment} (grown : Grown base data done flat)
    (length : (fileOf data s).length = s.filesz) (sized : s.filesz ≤ s.memsz)
    (behind : flat.length ≤ s.paddr - base ∨ s.memsz = 0) : Grown base data (s :: done) (extend base data flat s) := by
  have total : (extend base data flat s).length = max flat.length (s.paddr - base + s.memsz) := by
    simp only [extend,padTo_eq,length_ljust,List.length_append,length]
    omega
  refine ⟨shows_append grown.shows (p := pieceOf base data s) ?_ _,?_,?_⟩
  · rcases behind with late | empty
    · exact .inl late
    · exact .inr (List.eq_nil_of_length_eq_zero (show (fileOf data s).length = 0 by omega))
  · rw [total]
    refine List.forall_mem_cons.mpr ⟨by omega,fun t old => ?_⟩
    have reach := grown.reaches t old
    omega
  · by_cases longer : flat.length ≤ s.paddr - base + s.memsz
    · exact .inr ⟨s,by simp,by rw [total]; omega⟩
    · rcases grown.ends with none' | ⟨t,old,isEnd⟩
      · simp [none'] at longer
      · exact .inr ⟨t,List.mem_cons_of_mem _ old,by rw [total]; omega⟩

/-- `build`'s loop over sorted segments. -/
theorem grown (loadable : Loadable segs data) {rest done : List LoadSegment} {flat : List Byte}
    (inside : ∀ s ∈ rest, s ∈ segs) (before : ∀ s ∈ done, s ∈ segs)
    (order : rest.Pairwise fun s t => s.paddr ≤ t.paddr) (apart : rest.Pairwise Apart)
    (below : ∀ s ∈ done, ∀ t ∈ rest, s.paddr ≤ t.paddr) (clear : ∀ s ∈ done, ∀ t ∈ rest, Apart s t)
    (built : Grown (minPaddr segs) data done flat) :
    Grown (minPaddr segs) data (rest.reverse ++ done) (rest.foldl (extend (minPaddr segs) data) flat) := by
  induction rest generalizing done flat with
  | nil => exact built
  | cons s rest ih =>
    have member := inside s (by simp)
    obtain ⟨orderHere,orderLater⟩ := List.pairwise_cons.mp order
    obtain ⟨apartHere,apartLater⟩ := List.pairwise_cons.mp apart
    have behind := behind_of_sorted built (fun t old => minPaddr_le (before t old)) (fun t old => below t old s (by simp))
      fun t old => clear t old s (by simp)
    have step := extended built (length_fileOf loadable member) (loadable.sized s member) behind
    rw [List.foldl_cons,List.reverse_cons,List.append_assoc,List.singleton_append]
    exact ih (fun t new => inside t (List.mem_cons_of_mem _ new)) (List.forall_mem_cons.mpr ⟨member,before⟩) orderLater
      apartLater
      (List.forall_mem_cons.mpr ⟨orderHere,fun t old u new => below t old u (List.mem_cons_of_mem _ new)⟩)
      (List.forall_mem_cons.mpr ⟨apartHere,fun t old u new => clear t old u (List.mem_cons_of_mem _ new)⟩) step

theorem grown_length {flat : List Byte} (loadable : Loadable segs data) (some' : segs ≠ [])
    (grown : Grown (minPaddr segs) data segs flat) : flat.length = maxPaddr segs - minPaddr segs := by
  obtain ⟨s,member,isMax⟩ := maxPaddr_mem some'
  have sized := loadable.sized s member
  have low := minPaddr_le member
  have reach := grown.reaches s member
  rcases grown.ends with none' | ⟨t,member',isEnd⟩
  · rw [none',List.length_nil] at reach ⊢
    omega
  · have above := le_maxPaddr member'
    have sized' := loadable.sized t member'
    have low' := minPaddr_le member'
    omega

/-! ## The images -/

theorem sorted_perm (segs : List LoadSegment) : (sorted segs).Perm segs := List.mergeSort_perm _ _

theorem sorted_order (segs : List LoadSegment) : (sorted segs).Pairwise fun s t => s.paddr ≤ t.paddr := by
  have order : (sorted segs).Pairwise fun s t => decide (s.paddr ≤ t.paddr) := by
    refine List.pairwise_mergeSort (fun r s t first second => ?_) (fun s t => ?_) segs
    · simp only [decide_eq_true_eq] at first second ⊢
      omega
    · simp only [Bool.or_eq_true,decide_eq_true_eq]
      omega
  exact order.imp of_decide_eq_true

theorem sorted_apart (apart : segs.Pairwise Apart) (same : others.Perm segs) : (sorted others).Pairwise Apart :=
  (((sorted_perm others).trans same).pairwise_iff Apart.symm).mpr apart

theorem mem_sorted (same : others.Perm segs) {s : LoadSegment} : s ∈ sorted others ↔ s ∈ segs :=
  ((sorted_perm others).trans same).mem_iff

theorem pieces_sorted (same : others.Perm segs) (base : Nat) (p : Nat × List Byte) :
    p ∈ ((sorted others).reverse ++ []).map (pieceOf base data) ↔ p ∈ segs.map (pieceOf base data) := by
  simp only [List.append_nil,List.mem_map,List.mem_reverse,mem_sorted same]

/-- The buffer of `build_flat_binary`. -/
theorem buildFlatBinary_spec (loadable : Loadable segs data) (some' : segs ≠ []) : ∃ buf,
    buildFlatBinary segs data = (buf,(maxPaddr segs - minPaddr segs + 4095) / 4096 * 4096,minPaddr segs) ∧
    buf.length = (maxPaddr segs - minPaddr segs + 4095) / 4096 * 4096 ∧
    Shows 0 (segs.map (pieceOf (minPaddr segs) data)) buf := by
  obtain ⟨size,isSize⟩ : ∃ size, size = (maxPaddr segs - minPaddr segs + 4095) / 4096 * 4096 := ⟨_,rfl⟩
  have start : (List.replicate size (0 : Byte)).length = size := List.length_replicate
  obtain ⟨length,shows⟩ := @filled segs data loadable (sorted segs) [] (List.replicate size 0)
    (fun s member => (mem_sorted (.refl segs)).mp member) (by simp) (sorted_apart loadable.apart (.refl segs)) (by simp)
    (by rw [start]; omega) (shows_replicate 0 size)
  have full : ∀ xs : List Byte, xs.length = size → ljust xs size 0 = xs := by
    intro xs isLength
    simp [ljust,isLength]
  refine ⟨_,?_,length.trans (start.trans isSize),shows.congr (pieces_sorted (.refl segs) _)⟩
  rw [buildFlatBinary,if_neg (by simpa using some'),alignUp_page,← isSize]
  exact congrArg (·,size,minPaddr segs) (full _ (length.trans start))

/-- The binary of `build`, from the segments in any order. -/
theorem flatten_spec (loadable : Loadable segs data) (some' : segs ≠ []) (same : others.Perm segs) : ∃ flat,
    flatten others data = some flat ∧ flat.length = maxPaddr segs - minPaddr segs ∧
    Shows 0 (segs.map (pieceOf (minPaddr segs) data)) flat := by
  have others' : others ≠ [] := fun none' => some' (List.nil_perm.mp (none' ▸ same))
  have built := @grown segs data loadable (sorted others) [] []
    (fun s member => (mem_sorted same).mp member) (by simp) (sorted_order others) (sorted_apart loadable.apart same) (by simp)
    (by simp) ⟨shows_replicate 0 0,by simp,.inl rfl⟩
  have shows := built.shows.congr (pieces_sorted same (minPaddr segs))
  have whole : Grown (minPaddr segs) data segs ((sorted others).foldl (extend (minPaddr segs) data) []) := by
    refine ⟨shows,fun s member => built.reaches s ?_,built.ends.imp_right fun ⟨s,member,isEnd⟩ => ⟨s,?_,isEnd⟩⟩
    · simpa using (mem_sorted same).mpr member
    · exact (mem_sorted same).mp (by simpa using member)
  refine ⟨_,?_,grown_length loadable some' whole,shows⟩
  rw [flatten,if_neg (by simpa using others'),minPaddr_perm same]

/-- For every list of load segments that the file has and that do not meet in memory: the first tool's buffer has the span of
    the segments rounded up to pages and is their flat image; the second tool's binary, from the segments in any order, is
    that buffer up to the span. -/
theorem flat_images_agree (segs others : List LoadSegment) (data : List Byte) (loadable : Loadable segs data)
    (same : others.Perm segs) : ∃ buf,
    buildFlatBinary segs data = (buf,(maxPaddr segs - minPaddr segs + 4095) / 4096 * 4096,minPaddr segs) ∧
    buf.length = (maxPaddr segs - minPaddr segs + 4095) / 4096 * 4096 ∧ FlatOf segs data buf ∧
    flatten others data = if segs = [] then none else some (buf.take (maxPaddr segs - minPaddr segs)) := by
  by_cases none' : segs = []
  · subst none'
    obtain rfl := List.perm_nil.mp same
    exact ⟨[],rfl,rfl,⟨by simp,by simp⟩,rfl⟩
  · obtain ⟨buf,isBuf,length,shows⟩ := buildFlatBinary_spec loadable none'
    obtain ⟨flat,isFlat,length',shows'⟩ := flatten_spec loadable none' same
    refine ⟨buf,isBuf,length,flatOf_of_shows loadable shows,?_⟩
    rw [if_neg none',isFlat]
    have cut := shows_take shows (n := maxPaddr segs - minPaddr segs) fun p isPiece => by
      obtain ⟨s,member,rfl⟩ := List.mem_map.mp isPiece
      have above := le_maxPaddr member
      have low := minPaddr_le member
      simp only [pieceOf,length_fileOf loadable member]
      omega
    refine congrArg some (shows_unique shows' cut ?_)
    rw [length',List.length_take,length]
    omega

/-- Two segments, the higher one first, with zeros behind each in memory. -/
def gapped : List LoadSegment :=
  [{ offset := 2, paddr := 0x110, filesz := 1, memsz := 3 },{ offset := 0, paddr := 0x100, filesz := 2, memsz := 4 }]

theorem flat_images_agree_gapped : ∃ buf, buildFlatBinary gapped [1,2,3] = (buf,4096,0x100) ∧ buf.length = 4096 ∧
    flatten gapped.reverse [1,2,3] = some (buf.take 19) := by
  have loadable : Loadable gapped [1,2,3] := by
    refine ⟨by simp [gapped],by simp [gapped],List.pairwise_pair.mpr ?_⟩
    intro a above below
    simp at above below ⊢
    omega
  have least : minPaddr gapped = 0x100 := rfl
  have most : maxPaddr gapped = 0x113 := rfl
  obtain ⟨buf,isBuf,length,_,isFlat⟩ := flat_images_agree gapped gapped.reverse [1,2,3] loadable (List.reverse_perm gapped)
  rw [least,most] at isBuf length isFlat
  exact ⟨buf,isBuf,length,isFlat⟩

end Sel4Linux.FlatImage
