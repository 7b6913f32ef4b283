import Sel4Linux.LoadedImage
import Sel4Linux.SyscallSites

/-!
The memory image of `load_elf` (`lcl/src/task/mod.rs`). A page that is mapped
twice keeps its content, so what decides a byte is the last write that covers it:
the bytes of the file, or one of the four bytes that a syscall instruction is
patched with. The first two of these are bytes of the instruction; the other two
spill onto whatever is behind it. The image is right exactly when nothing is lost
under them (`task_image_iff`).
-/
namespace Sel4Linux.TaskImage
open Sel4Linux.Bytes Sel4Linux.Ipc Sel4Linux.TaskMem Sel4Linux.MemImage Sel4Linux.PageMaps Sel4Linux.Task Sel4Linux.Runs
open Sel4Linux.Loader Sel4Linux.ElfBounds Sel4Linux.SyscallSites Sel4Linux.SegmentPages
open Sel4Linux.LoadedImage (Placed rangeOf)
open Sel4Linux.Overlay (toNat_advance_of_lt)
set_option linter.unusedSimpArgs false

/-! ## Images and patches -/

/-- Byte `k` is one of the two bytes of a syscall instruction. -/
def InPair (bytes : List Byte) (k : Nat) : Prop := ∃ j, SyscallAt bytes j ∧ (k = j ∨ k = j + 1)

/-- The memory has the segments, up to their syscall instructions, and no other page. -/
structure ElfImage (data : List Byte) (segments : List ElfSegment) (mem : TaskMemInfo) : Prop where
  file : ∀ seg ∈ segments, ∀ k < seg.filesz.toNat, ¬ InPair (fileBytes data seg.toSegment) k →
    byteOf mem (seg.vaddr + BitVec.ofNat 64 k) = data[seg.fileOffset.toNat + k]?
  zeros : ∀ seg ∈ segments, ∀ k, seg.filesz.toNat ≤ k → k < seg.memsz.toNat →
    byteOf mem (seg.vaddr + BitVec.ofNat 64 k) = some 0
  pages : ∀ page ∈ mem.pages, ∃ seg ∈ segments, page ∈ segmentPages seg.vaddr seg.memsz

/-- Byte `i` of the patch at site `j` is behind the instruction, at address `a`. -/
structure Spill (data : List Byte) (seg : ElfSegment) (j i : Nat) (a : Word) : Prop where
  site : SyscallAt (fileBytes data seg.toSegment) j
  behind : i = 2 ∨ i = 3
  place : a.toNat = seg.vaddr.toNat + j + i

/-- Nothing is lost under the patches: each byte behind an instruction is in a page of some segment, is no byte that
    has to be zero, and has the patch's value in the file where it is a byte of a segment that is loaded by then and
    not itself part of an instruction. -/
structure PatchesHarmless (data : List Byte) (segments : List ElfSegment) : Prop where
  inPages : ∀ seg ∈ segments, ∀ j i a, Spill data seg j i a →
    ∃ other ∈ segments, pageVaddr a ∈ segmentPages other.vaddr other.memsz
  zeros : ∀ seg ∈ segments, ∀ j i a, Spill data seg j i a → ∀ other ∈ segments, ∀ k, a.toNat = other.vaddr.toNat + k →
    other.filesz.toNat ≤ k → ¬ k < other.memsz.toNat
  file : ∀ (n : Nat) (seg : ElfSegment), segments[n]? = some seg → ∀ j i a, Spill data seg j i a → ∀ m ≤ n, ∀ other : ElfSegment,
    segments[m]? = some other → ∀ k < other.filesz.toNat, a.toNat = other.vaddr.toNat + k →
      ¬ InPair (fileBytes data other.toSegment) k → data[other.fileOffset.toNat + k]? = TRAP_BYTES[i]?

variable {data : List Byte} {seg : ElfSegment} {a : Word}

/-! ## What a segment's operations do to a byte -/

theorem eq_advance {vaddr : Word} {k : Nat} (place : a.toNat = vaddr.toNat + k) : a = vaddr + BitVec.ofNat 64 k := by
  have bound := a.isLt
  apply BitVec.eq_of_toNat_eq
  rw [toNat_advance_of_lt (by omega),place]

theorem advance_place {vaddr memsz : Word} {k : Nat} (room : WrapsNot vaddr memsz) (near : k ≤ memsz.toNat + 2) :
    (vaddr + BitVec.ofNat 64 k).toNat = vaddr.toNat + k := by
  change vaddr.toNat + memsz.toNat + 4095 < 2 ^ 64 at room
  rw [toNat_advance_of_lt (by omega)]

theorem page_of_place {vaddr memsz : Word} {k : Nat} (room : WrapsNot vaddr memsz) (place : a.toNat = vaddr.toNat + k)
    (inside : k < memsz.toNat) : pageVaddr a ∈ segmentPages vaddr memsz := by
  rw [eq_advance place]
  exact (page_of_byte room inside).1

theorem place_of_near {addr : Word} {n : Nat} (room : addr.toNat + n ≤ 2 ^ 64) (near : (a - addr).toNat < n) :
    a.toNat = addr.toNat + (a - addr).toNat := by
  have distance := toNat_distance a addr
  split at distance
  · omega
  · omega

section
variable (placed : Placed data seg.toSegment)
include placed

theorem fileBytes_at {k : Nat} (inside : k < seg.filesz.toNat) :
    (fileBytes data seg.toSegment)[k]? = data[seg.fileOffset.toNat + k]? := by
  have inFile := placed.inFile
  rw [fileBytes,List.getElem?_drop,List.getElem?_take_of_lt (by omega)]

theorem site_inside {j : Nat} (site : SyscallAt (fileBytes data seg.toSegment) j) : j + 1 < seg.filesz.toNat := by
  have inside := (List.getElem?_eq_some_iff.mp site.2).1
  rw [length_fileBytes placed.inFile] at inside
  exact inside

/-- A byte of a patch is in the instruction or behind it. -/
theorem patch_place {j i : Nat} (site : SyscallAt (fileBytes data seg.toSegment) j) (small : i < 4)
    (place : a.toNat = seg.vaddr.toNat + j + i) :
    (∃ k < seg.filesz.toNat, a.toNat = seg.vaddr.toNat + k ∧ InPair (fileBytes data seg.toSegment) k) ∨ Spill data seg j i a := by
  have inside := site_inside placed site
  by_cases behind : i = 2 ∨ i = 3
  · exact .inr ⟨site,behind,place⟩
  · refine .inl ⟨j + i,by omega,by omega,j,site,by omega⟩

theorem patch_cases {j : Nat} (site : SyscallAt (fileBytes data seg.toSegment) j) {value : Byte}
    (sets : (MemOp.write (seg.vaddr + BitVec.ofNat 64 j) TRAP_BYTES).effect a = .set value) :
    (∃ k < seg.filesz.toNat, a.toNat = seg.vaddr.toNat + k ∧ InPair (fileBytes data seg.toSegment) k) ∨
      ∃ i, Spill data seg j i a ∧ TRAP_BYTES[i]? = some value := by
  have within := placed.within
  have room := placed.room
  change seg.vaddr.toNat + seg.memsz.toNat + 4095 < 2 ^ 64 at room
  have inside := site_inside placed site
  have isPlace : (seg.vaddr + BitVec.ofNat 64 j).toNat = seg.vaddr.toNat + j := advance_place placed.room (by omega)
  have near : (a - (seg.vaddr + BitVec.ofNat 64 j)).toNat < 4 := near_of_sets (by decide) sets
  have spec : WriteSpec (seg.vaddr + BitVec.ofNat 64 j) TRAP_BYTES a (.set value) := sets ▸ writeEffect_spec _ _ (by decide)
  obtain ⟨own,isOwn⟩ : ∃ own, TRAP_BYTES[(a - (seg.vaddr + BitVec.ofNat 64 j)).toNat]? = some own :=
    ⟨_,List.getElem?_eq_getElem near⟩
  have same := spec.inside own isOwn
  cases same
  have isA := place_of_near (by omega) near
  rw [isPlace] at isA
  rcases patch_place placed site near isA with pair | spill
  · exact .inl pair
  · exact .inr ⟨_,spill,isOwn⟩

/-- What an operation sets: a byte of the file, or one of an instruction or behind it. -/
theorem sets_cases {op : MemOp} (member : op ∈ segmentImage data seg.toSegment) {value : Byte} (sets : op.effect a = .set value) :
    (∃ k < seg.filesz.toNat, a.toNat = seg.vaddr.toNat + k ∧
        (data[seg.fileOffset.toNat + k]? = some value ∨ InPair (fileBytes data seg.toSegment) k)) ∨
      ∃ j i, Spill data seg j i a ∧ TRAP_BYTES[i]? = some value := by
  have within := placed.within
  have room := placed.room
  have length := length_fileBytes placed.inFile
  change seg.vaddr.toNat + seg.memsz.toNat + 4095 < 2 ^ 64 at room
  rcases segmentImage_cases member with ⟨page,_,rfl⟩ | rfl | ⟨j,site,rfl⟩
  · exact absurd sets (map_sets_none page a value)
  · have near := near_of_sets (by omega) sets
    have spec : WriteSpec seg.vaddr (fileBytes data seg.toSegment) a (.set value) := sets ▸ writeEffect_spec _ _ (by omega)
    obtain ⟨own,isOwn⟩ : ∃ own, (fileBytes data seg.toSegment)[(a - seg.vaddr).toNat]? = some own :=
      ⟨_,List.getElem?_eq_getElem near⟩
    have same := spec.inside own isOwn
    cases same
    rw [length] at near
    rw [fileBytes_at placed near] at isOwn
    exact .inl ⟨_,near,place_of_near (by omega) near,.inl isOwn⟩
  · rcases patch_cases placed site sets with ⟨k,inFile,there,pair⟩ | ⟨i,spill,isValue⟩
    · exact .inl ⟨k,inFile,there,.inr pair⟩
    · exact .inr ⟨j,i,spill,isValue⟩

/-- An operation touches only pages of its segment, and those of what is behind an instruction. -/
theorem touches_cases {op : MemOp} (member : op ∈ segmentImage data seg.toSegment) (touched : op.effect a ≠ .keep) :
    pageVaddr a ∈ segmentPages seg.vaddr seg.memsz ∨ ∃ j i b, Spill data seg j i b ∧ pageVaddr b = pageVaddr a := by
  have within := placed.within
  have length := length_fileBytes placed.inFile
  have bound := seg.filesz.isLt
  rcases segmentImage_cases member with ⟨page,inPages,rfl⟩ | rfl | ⟨j,site,rfl⟩
  · rw [MemOp.effect] at touched
    split at touched
    · next here =>
      have aligned : pageVaddr page = page :=
        (pageVaddr_eq_iff page).mpr ((mem_segmentPages_iff placed.room).mp inPages).1
      rw [here,aligned]
      exact .inl inPages
    · exact absurd rfl touched
  · have spec : WriteSpec seg.vaddr (fileBytes data seg.toSegment) a _ := writeEffect_spec _ _ (by omega)
    obtain ⟨k,inside,here⟩ := not_not.mp (mt spec.apart touched)
    rw [← here]
    exact .inl (page_of_byte placed.room (by omega)).1
  · have inside := site_inside placed site
    have spec : WriteSpec (seg.vaddr + BitVec.ofNat 64 j) TRAP_BYTES a _ := writeEffect_spec _ _ (by decide)
    obtain ⟨i,small,here⟩ := not_not.mp (mt spec.apart touched)
    change i < 4 at small
    rw [BitVec.add_assoc,← BitVec.ofNat_add] at here
    have isByte : (seg.vaddr + BitVec.ofNat 64 (j + i)).toNat = seg.vaddr.toNat + j + i := by
      rw [advance_place placed.room (by omega),Nat.add_assoc]
    rcases patch_place placed site small isByte with ⟨k,inFile,there,_⟩ | spill
    · rw [← here]
      exact .inl (page_of_place placed.room there (by omega))
    · exact .inr ⟨j,i,_,spill,here⟩

theorem patch_mem {j : Nat} (site : SyscallAt (fileBytes data seg.toSegment) j) :
    MemOp.write (seg.vaddr + BitVec.ofNat 64 j) TRAP_BYTES ∈ segmentImage data seg.toSegment := by
  have inside := site_inside placed site
  have some' : 0 < seg.filesz := BitVec.lt_def.mpr (Nat.zero_lt_of_lt inside)
  rw [segmentImage,if_pos some']
  exact List.mem_append_right _ (List.mem_cons_of_mem _ (List.mem_map_of_mem ((mem_sites_iff _ j).mpr site)))

theorem spill_sets {j i : Nat} (sized : data.length < 2 ^ 63) (spill : Spill data seg j i a) :
    ∃ value, TRAP_BYTES[i]? = some value ∧ value ≠ 0 ∧
      (MemOp.write (seg.vaddr + BitVec.ofNat 64 j) TRAP_BYTES).effect a = .set value := by
  have inside := site_inside placed spill.site
  have inFile := placed.inFile
  obtain ⟨value,isValue,notZero⟩ : ∃ value, TRAP_BYTES[i]? = some value ∧ value ≠ 0 := by
    rcases spill.behind with rfl | rfl
    · exact ⟨0xAD,rfl,by decide⟩
    · exact ⟨0xDE,rfl,by decide⟩
  refine ⟨value,isValue,notZero,?_⟩
  have place : a.toNat = seg.vaddr.toNat + (j + i) := by rw [spill.place,Nat.add_assoc]
  rw [eq_advance place]
  exact patch_sets seg.vaddr (by omega) isValue

end

/-! ## What the whole file does -/

/-- All that `load_elf` does to the memory. -/
def loadOps (data : List Byte) (segments : List ElfSegment) : List MemOp :=
  segments.flatMap fun seg => segmentImage data seg.toSegment

theorem byteOf_default (a : Word) : byteOf TaskMemInfo.default a = none := by
  have absent : TaskMemInfo.default.pageData[pageVaddr a]? = none := pageAt_default (pageVaddr a)
  rw [byteOf,absent]
  rfl

/-- A page is mapped in the end when its bytes are not left alone. -/
theorem mem_pages_run (ops : List MemOp) (a : Word) :
    pageVaddr a ∈ (runOps TaskMemInfo.default ops).pages ↔ effectOf ops a ≠ .keep := by
  have consistent := consistent_runOps consistent_default ops
  have byte : (byteOf (runOps TaskMemInfo.default ops) a).isSome =
      ((runOps TaskMemInfo.default ops).pageAt (pageVaddr a)).isSome := Option.isSome_map
  rw [mem_pages_iff,consistent.same,mem_pageData_iff,← byte,byteOf_runOps,byteOf_default]
  cases effectOf ops a with
  | keep => simp [Effect.apply]
  | blank => simp [Effect.apply]
  | set value => simp [Effect.apply]

section
variable {segments : List ElfSegment} (sized : data.length < 2 ^ 63) (placed : ∀ seg ∈ segments, Placed data seg.toSegment)
variable (apart : RangesApart (segments.map rangeOf))

theorem mem_later {n : Nat} {op : MemOp} (member : op ∈ loadOps data (segments.drop n)) :
    ∃ (m : Nat) (seg : ElfSegment), n ≤ m ∧ segments[m]? = some seg ∧ op ∈ segmentImage data seg.toSegment := by
  obtain ⟨seg,isLater,inImage⟩ := List.mem_flatMap.mp member
  obtain ⟨i,isSegment⟩ := List.mem_iff_getElem?.mp isLater
  rw [List.getElem?_drop] at isSegment
  exact ⟨n + i,seg,Nat.le_add_right n i,isSegment,inImage⟩

theorem loadOps_split {n : Nat} {seg : ElfSegment} (isSegment : segments[n]? = some seg) :
    loadOps data segments =
      loadOps data (segments.take n) ++ (segmentImage data seg.toSegment ++ loadOps data (segments.drop (n + 1))) := by
  obtain ⟨inside,here⟩ := List.getElem?_eq_some_iff.mp isSegment
  have parts : segments = segments.take n ++ seg :: segments.drop (n + 1) := by
    rw [← here,← List.drop_eq_getElem_cons inside,List.take_append_drop]
  rw [loadOps]
  nth_rewrite 1 [parts]
  rw [List.flatMap_append,List.flatMap_cons]
  rfl

include apart

theorem same_segment {m n : Nat} {seg other : ElfSegment} (first : segments[m]? = some seg) (second : segments[n]? = some other)
    {page : Word} (inFirst : page ∈ segmentPages seg.vaddr seg.memsz) (inSecond : page ∈ segmentPages other.vaddr other.memsz) :
    m = n := by
  have isFirst : (segments.map rangeOf)[m]? = some (rangeOf seg) := by rw [List.getElem?_map,first,Option.map_some]
  have isSecond : (segments.map rangeOf)[n]? = some (rangeOf other) := by rw [List.getElem?_map,second,Option.map_some]
  exact apart.unique isFirst isSecond inFirst inSecond

include placed

/-- A byte is a byte of no more than one segment. -/
theorem same_place {m n : Nat} {seg other : ElfSegment} (first : segments[m]? = some seg) (second : segments[n]? = some other)
    {k k' : Nat} (inFirst : k < seg.memsz.toNat) (inSecond : k' < other.memsz.toNat) (place : a.toNat = seg.vaddr.toNat + k)
    (place' : a.toNat = other.vaddr.toNat + k') : m = n ∧ seg = other ∧ k = k' := by
  have own := (placed seg (List.mem_of_getElem? first)).room
  have own' := (placed other (List.mem_of_getElem? second)).room
  obtain rfl := same_segment apart first second (page_of_place own place inFirst) (page_of_place own' place' inSecond)
  obtain rfl := Option.some.inj (first.symm.trans second)
  exact ⟨rfl,rfl,by omega⟩

/-- A byte is behind no more than one instruction: the byte two before it is in that instruction. -/
theorem same_spill {m n : Nat} {seg other : ElfSegment} (first : segments[m]? = some seg) (second : segments[n]? = some other)
    {j i j' i' : Nat} (spill : Spill data seg j i a) (spill' : Spill data other j' i' a) : m = n ∧ j = j' ∧ i = i' := by
  have own := placed seg (List.mem_of_getElem? first)
  have own' := placed other (List.mem_of_getElem? second)
  have inside := site_inside own spill.site
  have inside' := site_inside own' spill'.site
  have within : seg.filesz.toNat ≤ seg.memsz.toNat := own.within
  have within' : other.filesz.toNat ≤ other.memsz.toNat := own'.within
  have behind := spill.behind
  have behind' := spill'.behind
  have place := spill.place
  have place' := spill'.place
  have bound := a.isLt
  have before : (BitVec.ofNat 64 (a.toNat - 2)).toNat = a.toNat - 2 := by
    rw [BitVec.toNat_ofNat,Nat.mod_eq_of_lt (by omega)]
  have here : (BitVec.ofNat 64 (a.toNat - 2)).toNat = seg.vaddr.toNat + (j + i - 2) := by omega
  have here' : (BitVec.ofNat 64 (a.toNat - 2)).toNat = other.vaddr.toNat + (j' + i' - 2) := by omega
  obtain ⟨same,rfl,index⟩ := same_place placed apart first second (by omega) (by omega) here here'
  have cases' : j = j' ∨ j = j' + 1 ∨ j' = j + 1 := by omega
  rcases cases' with rfl | rfl | rfl
  · exact ⟨same,rfl,by omega⟩
  · have byte := spill.site.1
    rw [spill'.site.2] at byte
    cases byte
  · have byte := spill'.site.1
    rw [spill.site.2] at byte
    cases byte

/-! ### A run that loses nothing -/

/-- A byte of the file is the last one that is written, or what is written over it is the same. -/
theorem file_kept (harmless : PatchesHarmless data segments) {n : Nat} {seg : ElfSegment} (isSegment : segments[n]? = some seg)
    {k : Nat} (inside : k < seg.filesz.toNat) (outside : ¬ InPair (fileBytes data seg.toSegment) k)
    (place : a.toNat = seg.vaddr.toNat + k) :
    ∃ value, data[seg.fileOffset.toNat + k]? = some value ∧ effectOf (loadOps data segments) a = .set value := by
  have own := placed seg (List.mem_of_getElem? isSegment)
  have inFile := own.inFile
  have within : seg.filesz.toNat ≤ seg.memsz.toNat := own.within
  have bound := seg.filesz.isLt
  obtain ⟨value,isValue⟩ : ∃ value, data[seg.fileOffset.toNat + k]? = some value := ⟨_,List.getElem?_eq_getElem (by omega)⟩
  have some' : 0 < seg.filesz := BitVec.lt_def.mpr (Nat.zero_lt_of_lt inside)
  have written : MemOp.write seg.vaddr (fileBytes data seg.toSegment) ∈ segmentImage data seg.toSegment := by
    rw [segmentImage,if_pos some']
    exact List.mem_append_right _ List.mem_cons_self
  have length : (fileBytes data seg.toSegment).length = seg.filesz.toNat := length_fileBytes own.inFile
  have spec : WriteSpec seg.vaddr (fileBytes data seg.toSegment) a _ := writeEffect_spec _ _ (by omega)
  have sets : (MemOp.write seg.vaddr (fileBytes data seg.toSegment)).effect a = .set value := by
    refine spec.inside value ?_
    rw [toNat_distance,if_pos (by omega),place,Nat.add_sub_cancel_left,fileBytes_at own inside,isValue]
  refine ⟨value,isValue,?_⟩
  have split : loadOps data segments = loadOps data (segments.take n) ++ loadOps data (segments.drop n) := by
    rw [loadOps,loadOps,loadOps,← List.flatMap_append,List.take_append_drop]
  have here : seg ∈ segments.drop n := List.mem_of_getElem? (i := 0) (by rw [List.getElem?_drop]; exact isSegment)
  rw [split]
  refine effectOf_settled _ (List.mem_flatMap.mpr ⟨seg,here,written⟩) sets ?_
  intro op member v sets'
  obtain ⟨m,other,later,isOther,inImage⟩ := mem_later member
  have own' := placed other (List.mem_of_getElem? isOther)
  have within' : other.filesz.toNat ≤ other.memsz.toNat := own'.within
  rcases sets_cases own' inImage sets' with ⟨k',inside',place',isFile⟩ | ⟨j,i,spill,isTrap⟩
  · obtain ⟨_,rfl,rfl⟩ := same_place placed apart isSegment isOther (by omega : k < _) (by omega : k' < _) place place'
    rcases isFile with isFile | pair
    · rw [isValue] at isFile
      exact (Option.some.inj isFile).symm
    · exact absurd pair outside
  · have kept := harmless.file m other isOther j i a spill n later seg isSegment k inside place outside
    rw [isValue,isTrap] at kept
    exact (Option.some.inj kept).symm

/-- A byte that has to be zero is in a page that is mapped, and nothing is written to it. -/
theorem zero_kept (harmless : PatchesHarmless data segments) {n : Nat} {seg : ElfSegment} (isSegment : segments[n]? = some seg)
    {k : Nat} (past : seg.filesz.toNat ≤ k) (inside : k < seg.memsz.toNat) (place : a.toNat = seg.vaddr.toNat + k) :
    effectOf (loadOps data segments) a = .blank := by
  have member := List.mem_of_getElem? isSegment
  have inPages := page_of_place (placed seg member).room place inside
  cases isEffect : effectOf (loadOps data segments) a with
  | blank => rfl
  | keep =>
    have isMap : MemOp.map (pageVaddr a) ∈ segmentImage data seg.toSegment := by
      rw [segmentImage]
      exact List.mem_append_left _ (List.mem_map_of_mem inPages)
    have kept := (effectOf_keep_iff _).mp isEffect _ (List.mem_flatMap.mpr ⟨seg,member,isMap⟩)
    rw [MemOp.effect,if_pos (pageVaddr_pageVaddr a).symm] at kept
    cases kept
  | set v =>
    obtain ⟨op,inOps,sets⟩ := set_of_effectOf isEffect
    obtain ⟨m,other,_,isOther,inImage⟩ := mem_later (n := 0) inOps
    have member' := List.mem_of_getElem? isOther
    have within' : other.filesz.toNat ≤ other.memsz.toNat := (placed other member').within
    rcases sets_cases (placed other member') inImage sets with ⟨k',inside',place',_⟩ | ⟨j,i,spill,_⟩
    · obtain ⟨_,rfl,rfl⟩ := same_place placed apart isSegment isOther inside (by omega : k' < _) place place'
      omega
    · exact absurd inside (harmless.zeros other member' j i a spill seg member k place past)

theorem image_of_harmless (harmless : PatchesHarmless data segments) :
    ElfImage data segments (runOps TaskMemInfo.default (loadOps data segments)) := by
  refine ⟨?_,?_,?_⟩
  · intro seg member k inside outside
    obtain ⟨n,isSegment⟩ := List.mem_iff_getElem?.mp member
    have own := placed seg member
    have within : seg.filesz.toNat ≤ seg.memsz.toNat := own.within
    obtain ⟨value,isValue,sets⟩ := file_kept placed apart harmless isSegment inside outside (advance_place own.room (by omega))
    rw [byteOf_runOps,sets,isValue]
    rfl
  · intro seg member k past inside
    obtain ⟨n,isSegment⟩ := List.mem_iff_getElem?.mp member
    have place := advance_place (placed seg member).room (show k ≤ seg.memsz.toNat + 2 by omega)
    rw [byteOf_runOps,zero_kept placed apart harmless isSegment past inside place,byteOf_default]
    rfl
  · intro page mapped
    have isPage : pageVaddr page = page := by
      have consistent := consistent_runOps consistent_default (loadOps data segments)
      exact (pageVaddr_eq_iff page).mpr (consistent.aligned page (mem_pages_iff.mp mapped))
    rw [← isPage,mem_pages_run,ne_eq,effectOf_keep_iff] at mapped
    obtain ⟨op,touched⟩ := not_forall.mp mapped
    obtain ⟨inOps,touched⟩ := Classical.not_imp.mp touched
    obtain ⟨seg,member,inImage⟩ := List.mem_flatMap.mp inOps
    rw [← isPage]
    rcases touches_cases (placed seg member) inImage touched with inPages | ⟨j,i,b,spill,same⟩
    · exact ⟨seg,member,inPages⟩
    · rw [← same]
      exact harmless.inPages seg member j i b spill

/-! ### A run that has the image -/

include sized

/-- The byte behind an instruction has the patch's value, if it is a byte of a segment that is loaded by then. -/
theorem spill_decides {m n : Nat} {seg other : ElfSegment} (isSegment : segments[n]? = some seg) {j i : Nat}
    (spill : Spill data seg j i a) (before : m ≤ n) (isOther : segments[m]? = some other) {k : Nat}
    (inside : k < other.filesz.toNat) (place : a.toNat = other.vaddr.toNat + k)
    (outside : ¬ InPair (fileBytes data other.toSegment) k) :
    ∃ value, TRAP_BYTES[i]? = some value ∧ effectOf (loadOps data segments) a = .set value := by
  have own := placed seg (List.mem_of_getElem? isSegment)
  have within : seg.filesz.toNat ≤ seg.memsz.toNat := own.within
  have within' : other.filesz.toNat ≤ other.memsz.toNat := (placed other (List.mem_of_getElem? isOther)).within
  obtain ⟨value,isValue,_,sets⟩ := spill_sets own sized spill
  refine ⟨value,isValue,?_⟩
  have some' : 0 < seg.filesz := BitVec.lt_def.mpr (Nat.zero_lt_of_lt (site_inside own spill.site))
  have isPatch : MemOp.write (seg.vaddr + BitVec.ofNat 64 j) TRAP_BYTES ∈
      (sites (fileBytes data seg.toSegment)).map fun j => MemOp.write (seg.vaddr + BitVec.ofNat 64 j) TRAP_BYTES :=
    List.mem_map_of_mem ((mem_sites_iff _ j).mpr spill.site)
  have split : ∃ earlier, loadOps data segments = earlier ++ (((sites (fileBytes data seg.toSegment)).map fun j =>
      MemOp.write (seg.vaddr + BitVec.ofNat 64 j) TRAP_BYTES) ++ loadOps data (segments.drop (n + 1))) := by
    rw [loadOps_split isSegment,segmentImage,if_pos some',imageWrites]
    generalize (pageRange _ _).map MemOp.map = maps
    refine ⟨loadOps data (segments.take n) ++ (maps ++ [.write seg.vaddr (fileBytes data seg.toSegment)]),?_⟩
    simp only [List.append_assoc,List.cons_append,List.nil_append]
  obtain ⟨earlier,split⟩ := split
  rw [split]
  refine effectOf_settled earlier (List.mem_append_left _ isPatch) sets ?_
  intro op member v sets'
  rcases List.mem_append.mp member with isPatch' | isLater
  · obtain ⟨j',isSite,rfl⟩ := List.mem_map.mp isPatch'
    rcases patch_cases own ((mem_sites_iff _ j').mp isSite) sets' with ⟨k',inside',place',pair⟩ | ⟨i',spill',isValue'⟩
    · obtain ⟨_,rfl,rfl⟩ := same_place placed apart isOther isSegment (by omega : k < _) (by omega : k' < _) place place'
      exact absurd pair outside
    · obtain ⟨_,rfl,rfl⟩ := same_spill placed apart isSegment isSegment spill spill'
      rw [isValue] at isValue'
      exact (Option.some.inj isValue').symm
  · obtain ⟨n',third,later,isThird,inImage⟩ := mem_later isLater
    have own' := placed third (List.mem_of_getElem? isThird)
    have within'' : third.filesz.toNat ≤ third.memsz.toNat := own'.within
    rcases sets_cases own' inImage sets' with ⟨k',inside',place',_⟩ | ⟨j',i',spill',_⟩
    · obtain ⟨same,_⟩ := same_place placed apart isOther isThird (by omega : k < _) (by omega : k' < _) place place'
      omega
    · obtain ⟨same,_⟩ := same_spill placed apart isSegment isThird spill spill'
      omega

theorem harmless_of_image (image : ElfImage data segments (runOps TaskMemInfo.default (loadOps data segments))) :
    PatchesHarmless data segments := by
  have patched {seg : ElfSegment} (member : seg ∈ segments) {j i : Nat} {a : Word} (spill : Spill data seg j i a) :
      ∃ op ∈ loadOps data segments, ∃ v, op.effect a = .set v := by
    obtain ⟨value,_,_,sets⟩ := spill_sets (placed seg member) sized spill
    exact ⟨_,List.mem_flatMap.mpr ⟨seg,member,patch_mem (placed seg member) spill.site⟩,value,sets⟩
  refine ⟨?_,?_,?_⟩
  · intro seg member j i a spill
    refine image.pages (pageVaddr a) ((mem_pages_run _ a).mpr fun keeps => ?_)
    obtain ⟨op,inOps,v,sets⟩ := patched member spill
    have kept := (effectOf_keep_iff _).mp keeps op inOps
    rw [kept] at sets
    cases sets
  · intro seg member j i a spill other member' k place past inside
    have zero := image.zeros other member' k past inside
    obtain ⟨op,inOps,v,sets,decides⟩ := effectOf_sets [] (patched member spill)
    rw [List.nil_append] at decides
    rw [← eq_advance place,byteOf_runOps,decides] at zero
    obtain ⟨m,third,_,isThird,inImage⟩ := mem_later (n := 0) inOps
    have member'' := List.mem_of_getElem? isThird
    have within : third.filesz.toNat ≤ third.memsz.toNat := (placed third member'').within
    obtain ⟨n,isOther⟩ := List.mem_iff_getElem?.mp member'
    rcases sets_cases (placed third member'') inImage sets with ⟨k',inside',place',_⟩ | ⟨j',i',spill',isValue⟩
    · obtain ⟨_,rfl,rfl⟩ := same_place placed apart isOther isThird inside (by omega : k' < _) place place'
      omega
    · have isZero : v = 0 := Option.some.inj zero
      rcases spill'.behind with rfl | rfl
      · rw [isZero] at isValue
        cases isValue
      · rw [isZero] at isValue
        cases isValue
  · intro n seg isSegment j i a spill m before other isOther k inside place outside
    have member' := List.mem_of_getElem? isOther
    obtain ⟨value,isValue,decides⟩ := spill_decides sized placed apart isSegment spill before isOther inside place outside
    have loaded := image.file other member' k inside outside
    rw [← eq_advance place,byteOf_runOps,decides] at loaded
    rw [← loaded,isValue]
    rfl

end

/-- For every file that `load_elf` accepts, with segments that are in the file and do not wrap around and whose page ranges
    are apart, and every task without mappings: the task has the image of the file exactly when nothing is lost under
    the patches. -/
theorem task_image_iff {task task' : Sel4Task} {entry : Word} {elf : LoadedElf} (sized : data.length < 2 ^ 63)
    (accepted : loadElf release task data = .ok (some entry,task')) (parsed : parseElf release data = .ok (some elf))
    (fresh : task.mem = TaskMemInfo.default) (placed : ∀ seg ∈ elf.segments, Placed data seg.toSegment)
    (apart : RangesApart (elf.segments.map rangeOf)) :
    ElfImage data elf.segments task'.mem ↔ PatchesHarmless data elf.segments := by
  obtain ⟨elf',parsed',image,_⟩ := parsed_of_loaded sized accepted
  obtain rfl : elf = elf' := Option.some.inj (Except.ok.inj (parsed.symm.trans parsed'))
  rw [image,fresh]
  exact ⟨harmless_of_image sized placed apart,image_of_harmless placed apart⟩

/-- The patch's own bytes behind a syscall instruction are not lost. -/
theorem task_image_iff_same : ∃ task', loadElf release (Sel4Task.new 1 1) (oneSegment [0x0F,0x05,0xAD,0xDE]) =
      .ok (some 0x400000,task') ∧
    ElfImage (oneSegment [0x0F,0x05,0xAD,0xDE]) [codeSegment [0x0F,0x05,0xAD,0xDE]] task'.mem := by
  obtain ⟨task',accepted⟩ := exists_loaded (Sel4Task.new 1 1) (oneSegment [0x0F,0x05,0xAD,0xDE]) 0x400000 (by decide +kernel)
  have parsed : parseElf release (oneSegment [0x0F,0x05,0xAD,0xDE]) =
      .ok (some ⟨0x400000,[codeSegment [0x0F,0x05,0xAD,0xDE]]⟩) := by decide +kernel
  have room : WrapsNot 0x400000 0x1000 := by unfold WrapsNot; decide
  have image := task_image_iff (by decide +kernel) accepted parsed rfl
    (List.forall_mem_singleton.mpr ⟨by decide,by decide +kernel,room⟩) (List.pairwise_singleton _ _)
  have only (j : Nat) (site : SyscallAt [0x0F,0x05,0xAD,0xDE] j) : j = 0 := by
    obtain ⟨first,_⟩ := site
    rcases j with _ | _ | _ | _ | j
    · rfl
    all_goals
      revert first
      simp
  have isSpill {j i : Nat} {a : Word} (spill : Spill (oneSegment [0x0F,0x05,0xAD,0xDE]) (codeSegment [0x0F,0x05,0xAD,0xDE]) j i a) :
      (i = 2 ∨ i = 3) ∧ a.toNat = 0x400000 + i := by
    have bytes : fileBytes (oneSegment [0x0F,0x05,0xAD,0xDE]) (codeSegment [0x0F,0x05,0xAD,0xDE]).toSegment =
        [0x0F,0x05,0xAD,0xDE] := by decide +kernel
    obtain rfl := only j (bytes ▸ spill.site)
    exact ⟨spill.behind,spill.place⟩
  refine ⟨task',accepted,image.mpr ⟨?_,?_,?_⟩⟩
  · intro seg member j i a spill
    obtain rfl := List.mem_singleton.mp member
    obtain ⟨behind,place⟩ := isSpill spill
    refine ⟨_,List.mem_cons_self,page_of_place room place ?_⟩
    rcases behind with rfl | rfl
    · decide
    · decide
  · intro seg member j i a spill other member' k place past
    obtain rfl := List.mem_singleton.mp member
    obtain rfl := List.mem_singleton.mp member'
    obtain ⟨behind,place'⟩ := isSpill spill
    change a.toNat = 0x400000 + k at place
    change 4 ≤ k at past
    omega
  · intro n seg isSegment j i a spill m _ other isOther k _ place _
    obtain rfl := List.mem_singleton.mp (List.mem_of_getElem? isSegment)
    obtain rfl := List.mem_singleton.mp (List.mem_of_getElem? isOther)
    obtain ⟨behind,place'⟩ := isSpill spill
    change a.toNat = 0x400000 + k at place
    obtain rfl : k = i := by omega
    rcases behind with rfl | rfl
    · decide +kernel
    · decide +kernel

/-- A syscall instruction takes the two bytes behind it with it. -/
theorem behind_patched : ¬ ∀ (task task' : Sel4Task) (data : List Byte) (entry : Word) (elf : LoadedElf), data.length < 2 ^ 63 →
    loadElf release task data = .ok (some entry,task') → parseElf release data = .ok (some elf) →
      task.mem = TaskMemInfo.default → (∀ seg ∈ elf.segments, Placed data seg.toSegment) →
        RangesApart (elf.segments.map rangeOf) → ElfImage data elf.segments task'.mem := by
  intro all
  obtain ⟨task',accepted⟩ := exists_loaded (Sel4Task.new 1 1) (oneSegment [0x0F,0x05,0x90,0x90]) 0x400000 (by decide +kernel)
  have parsed : parseElf release (oneSegment [0x0F,0x05,0x90,0x90]) =
      .ok (some ⟨0x400000,[codeSegment [0x0F,0x05,0x90,0x90]]⟩) := by decide +kernel
  have bytes : fileBytes (oneSegment [0x0F,0x05,0x90,0x90]) (codeSegment [0x0F,0x05,0x90,0x90]).toSegment =
      [0x0F,0x05,0x90,0x90] := by decide +kernel
  have image := all _ _ _ _ _ (by decide +kernel) accepted parsed rfl
    (List.forall_mem_singleton.mpr ⟨by decide,by decide +kernel,by unfold WrapsNot; decide⟩) (List.pairwise_singleton _ _)
  have outside : ¬ InPair (fileBytes (oneSegment [0x0F,0x05,0x90,0x90]) (codeSegment [0x0F,0x05,0x90,0x90]).toSegment) 2 := by
    rw [bytes]
    rintro ⟨j,site,here | next⟩
    · rw [← here] at site
      revert site
      decide
    · obtain rfl : j = 1 := by omega
      revert site
      decide
  have loaded := image.file _ List.mem_cons_self 2 (by decide) outside
  have nop : (oneSegment [0x0F,0x05,0x90,0x90])[122]? = some 0x90 := by decide +kernel
  have read : (loadElf release (Sel4Task.new 1 1) (oneSegment [0x0F,0x05,0x90,0x90])).toOption.map
      (fun r => byteOf r.2.mem 0x400002) = some (some 0xAD) := by decide +kernel
  rw [accepted] at read
  have patched : byteOf task'.mem 0x400002 = some 0xAD := Option.some.inj read
  have byte : byteOf task'.mem 0x400002 = (oneSegment [0x0F,0x05,0x90,0x90])[122]? := loaded
  rw [patched,nop] at byte
  cases byte

end Sel4Linux.TaskImage
