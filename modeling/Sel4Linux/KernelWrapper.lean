import Sel4Linux.BootNotes
import Sel4Linux.FlatImage

/-!
The tool that makes the kernel loadable for QEMU (`tools/mkimage.py`): the load
segments of the kernel's ELF file, of 32 or 64 bits, are laid out flat and put
behind the headers of a 32-bit ELF file with one segment. What a loader puts
into memory from that file is what it puts there from the kernel, up to zeros,
and the tool changes nothing any more when it is given its own output
(`wrapper_faithful`).
-/
namespace Sel4Linux.KernelWrapper
open Sel4Linux.Bytes Sel4Linux.Runs Sel4Linux.Slices Sel4Linux.FlatImage
open Sel4Linux.BootNotes (number packed pack unpackFrom length_packed unpackFrom_ok_iff number_congr)
set_option linter.unusedSimpArgs false

/-- What ends the tool: a `ValueError`, or what its readings and packings raise. -/
inductive Failure where
  | value
  | raised (f : BootNotes.Failure)
  deriving DecidableEq

def raising {α : Type} : Except BootNotes.Failure α → Except Failure α
  | .ok a => .ok a
  | .error f => .error (.raised f)

/-! ## The kernel's segments -/

/-- One entry of `segs`: the offset in the file, the physical address and the two sizes. -/
def segmentAt (is64 : Bool) (data : List Byte) (off : Nat) : Except BootNotes.Failure LoadSegment :=
  if is64 then do
    let offset ← unpackFrom 8 data (off + 8)
    let paddr ← unpackFrom 8 data (off + 24)
    let filesz ← unpackFrom 8 data (off + 32)
    let memsz ← unpackFrom 8 data (off + 40)
    .ok { offset := offset, paddr := paddr, filesz := filesz, memsz := memsz }
  else do
    let offset ← unpackFrom 4 data (off + 4)
    let paddr ← unpackFrom 4 data (off + 12)
    let filesz ← unpackFrom 4 data (off + 16)
    let memsz ← unpackFrom 4 data (off + 20)
    .ok { offset := offset, paddr := paddr, filesz := filesz, memsz := memsz }

/-- The loop over the program headers: those of type PT_LOAD. -/
def loadSegments (is64 : Bool) (data : List Byte) (phoff phentsize : Nat) : List Nat → Except BootNotes.Failure (List LoadSegment)
  | [] => .ok []
  | i :: rest => do
    let type ← unpackFrom 4 data (phoff + i * phentsize)
    if type = 1 then do
      let s ← segmentAt is64 data (phoff + i * phentsize)
      let segs ← loadSegments is64 data phoff phentsize rest
      .ok (s :: segs)
    else loadSegments is64 data phoff phentsize rest

/-- The header's fields and the segments that they lead to. -/
def segmentsOf (is64 : Bool) (data : List Byte) : Except BootNotes.Failure (List LoadSegment × Nat × Bool) := do
  let phoff ← unpackFrom (if is64 then 8 else 4) data (if is64 then 32 else 28)
  let phentsize ← unpackFrom 2 data (if is64 then 54 else 42)
  let phnum ← unpackFrom 2 data (if is64 then 56 else 44)
  let entry ← unpackFrom (if is64 then 8 else 4) data 24
  let segs ← loadSegments is64 data phoff phentsize (List.range phnum)
  .ok (segs,entry,is64)

/-- `parse_elf_segments`. -/
def parseElfSegments (data : List Byte) : Except Failure (List LoadSegment × Nat × Bool) :=
  if data.take 4 ≠ [0x7F,0x45,0x4C,0x46] then .error .value
  else match data[4]? with
    | none => .error (.raised .index)
    | some elfClass => raising (segmentsOf (elfClass == 2) data)

/-! ## The wrapper -/

def p16 (v : Nat) : List Byte := packed 2 v

/-- `p32`, which fails outside of 32 bits. -/
def p32 (v : Int) : Except BootNotes.Failure (List Byte) := if v < 0 then .error .struct else pack 4 v.toNat

/-- The entry as a physical address, which the wrapper's header takes. -/
def physEntry (entry : Nat) : Int :=
  if 0xFFFFFFFF00000000 ≤ entry then (entry : Int) - 0xFFFFFFFF80000000 + 0x100000 else entry

/-- The search for the multiboot magic number in the first 32 KB of the flat binary. -/
def findMultiboot (bin : List Byte) : List Nat → Except BootNotes.Failure Bool
  | [] => .ok false
  | i :: rest => do
    let val ← unpackFrom 4 bin i
    if val = 0x1BADB002 then .ok true else findMultiboot bin rest

def KERNEL_FILE_OFF : Nat := 0x1000

/-- `elf`: the ELF32 header, 52 bytes. -/
def elfHeader (entry : List Byte) : List Byte :=
  [0x7F,0x45,0x4C,0x46,1,1,1,0] ++ List.replicate 8 0 ++ p16 2 ++ p16 3 ++ packed 4 1 ++ entry ++ packed 4 52 ++ packed 4 0 ++
    packed 4 0 ++ p16 52 ++ p16 32 ++ p16 1 ++ p16 0 ++ p16 0 ++ p16 0

/-- `phdr`: the one program header, 32 bytes. -/
def programHeader (min size : List Byte) : List Byte :=
  packed 4 1 ++ packed 4 KERNEL_FILE_OFF ++ min ++ min ++ size ++ size ++ packed 4 7 ++ packed 4 4096

/-- The file that `build_kernel_wrapper` writes, and whether it has found a multiboot header in the kernel. -/
def buildKernelWrapper (data : List Byte) : Except Failure (List Byte × Bool) := do
  let (segs,entry,_) ← parseElfSegments data
  let (bin,size,min) := buildFlatBinary segs data
  raising (do
    let mbFound ← findMultiboot bin (BootNotes.scanned bin)
    let entry ← p32 (physEntry entry)
    let min ← p32 min
    let size ← p32 size
    .ok (padTo (elfHeader entry ++ programHeader min size) KERNEL_FILE_OFF 0 ++ bin,mbFound))

/-! ## The flat binary -/

variable {segs : List LoadSegment} {data : List Byte}

theorem span_inside {s : LoadSegment} (member : s ∈ segs) :
    s.paddr - minPaddr segs + s.filesz ≤ alignUp (maxPaddr segs - minPaddr segs) 4096 := by
  have low := minPaddr_le member
  have high := le_maxPaddr member
  rw [alignUp_page]
  omega

/-- No assignment makes the buffer longer than it is to be, even where the file ends early. -/
theorem filled_length {base size : Nat} (rest : List LoadSegment) (inside : ∀ s ∈ rest, s.paddr - base + s.filesz ≤ size)
    {buf : List Byte} (within : buf.length ≤ size) : (rest.foldl (fill base data) buf).length ≤ size := by
  induction rest generalizing buf with
  | nil => exact within
  | cons s rest ih =>
    refine ih (fun t member => inside t (List.mem_cons_of_mem s member)) ?_
    have fits := inside s List.mem_cons_self
    simp only [fill,fileOf,assign,slice,List.length_append,List.length_take,List.length_drop]
    omega

theorem flat_length (segs : List LoadSegment) (data : List Byte) :
    (buildFlatBinary segs data).1.length = (buildFlatBinary segs data).2.1 ∧
      (buildFlatBinary segs data).2.1 = alignUp (buildFlatBinary segs data).2.1 4096 := by
  unfold buildFlatBinary
  split
  · simp [alignUp_page]
  · have within : ((sorted segs).foldl (fill (minPaddr segs) data) (List.replicate (alignUp (maxPaddr segs - minPaddr segs) 4096) 0)).length ≤
        alignUp (maxPaddr segs - minPaddr segs) 4096 :=
      filled_length _ (fun s member => span_inside ((mem_sorted (.refl segs)).mp member)) (by simp)
    constructor
    · simp only [length_ljust]
      omega
    · simp only [alignUp_page]
      omega

/-- A segment of whole pages that the file has all bytes of is flat already. -/
theorem flat_one {s : LoadSegment} {bin : List Byte} (pages : s.memsz = alignUp s.memsz 4096) (all : s.filesz = s.memsz)
    (length : bin.length = s.memsz) (bytes : fileOf data s = bin) : buildFlatBinary [s] data = (bin,s.memsz,s.paddr) := by
  have least : minPaddr [s] = s.paddr := rfl
  have most : maxPaddr [s] = s.paddr + s.memsz := by
    change s.paddr + max s.filesz s.memsz = s.paddr + s.memsz
    omega
  have size : alignUp (maxPaddr [s] - s.paddr) 4096 = s.memsz := by rw [most,Nat.add_sub_cancel_left,← pages]
  have laid : fill s.paddr data (List.replicate s.memsz 0) s = bin := by
    simp only [fill,Nat.sub_self,bytes,assign,List.take_zero,List.nil_append,Nat.zero_add]
    rw [List.drop_eq_nil_of_le (by simp; omega),List.append_nil]
  simp only [buildFlatBinary,List.isEmpty_cons,Bool.false_eq_true,if_false,size,least,sorted,List.mergeSort_singleton,
    List.foldl_cons,List.foldl_nil,laid]
  simp [ljust,length]

/-! ## The headers -/

/-- A number among other bytes. -/
theorem number_at {front back : List Byte} {width v : Nat} (narrow : width ≤ 8) (small : v < 256 ^ width) :
    number (front ++ (packed width v ++ back)) front.length width = v := by
  have length := length_packed narrow v
  have same : BootNotes.setNumber width (front ++ (packed width v ++ back)) front.length v = front ++ (packed width v ++ back) := by
    have behind : (front ++ (packed width v ++ back)).drop (front.length + width) = back := by
      rw [← List.append_assoc]
      exact List.drop_left' (by rw [List.length_append,length])
    rw [BootNotes.setNumber,assign,List.take_left,Nat.max_eq_right (by omega),behind,List.append_assoc]
  rw [← same]
  exact BootNotes.number_setNumber narrow (by simp [length]) small

/-- Fields of a header one after the other, each with its width. -/
def encode (fields : List (Nat × Nat)) : List Byte := fields.flatMap fun f => packed f.1 f.2

/-- Where the field `i` starts. -/
def place (fields : List (Nat × Nat)) (i : Nat) : Nat := ((fields.take i).map Prod.fst).sum

theorem length_encode {fields : List (Nat × Nat)} (narrow : ∀ f ∈ fields, f.1 ≤ 8) :
    (encode fields).length = place fields fields.length := by
  induction fields with
  | nil => rfl
  | cons f rest ih =>
    have later := ih fun g member => narrow g (List.mem_cons_of_mem f member)
    have length := length_packed (narrow f List.mem_cons_self) f.2
    simp only [encode,place,List.flatMap_cons,List.length_append,List.length_cons,List.take_succ_cons,List.map_cons,List.sum_cons,
      length] at later ⊢
    omega

/-- Each field of a header is read back. -/
theorem number_encode {fields : List (Nat × Nat)} (narrow : ∀ f ∈ fields, f.1 ≤ 8) {i width v : Nat}
    (here : fields[i]? = some (width,v))
    (small : v < 256 ^ width) (back : List Byte) : number (encode fields ++ back) (place fields i) width = v := by
  obtain ⟨low,isField⟩ := List.getElem?_eq_some_iff.mp here
  have split' : fields = fields.take i ++ (width,v) :: fields.drop (i + 1) := by
    rw [← isField,← List.drop_eq_getElem_cons low,List.take_append_drop]
  have member : (width,v) ∈ fields := List.mem_of_getElem? here
  have front : (encode (fields.take i)).length = place fields i := by
    rw [length_encode fun f inFront => narrow f (List.mem_of_mem_take inFront),place,List.take_length,place]
  have parts : encode fields ++ back = encode (fields.take i) ++ (packed width v ++ (encode (fields.drop (i + 1)) ++ back)) := by
    nth_rewrite 1 [split']
    simp only [encode,List.flatMap_append,List.flatMap_cons,List.append_assoc]
  rw [parts,← front]
  exact number_at (narrow _ member) small

/-- The fields of the wrapper's headers. -/
def wrapperFields (entry min size : Nat) : List (Nat × Nat) :=
  [(1,0x7F),(1,0x45),(1,0x4C),(1,0x46),(1,1),(1,1),(1,1),(1,0),(8,0),(2,2),(2,3),(4,1),(4,entry),(4,52),(4,0),(4,0),(2,52),(2,32),
    (2,1),(2,0),(2,0),(2,0),(4,1),(4,KERNEL_FILE_OFF),(4,min),(4,min),(4,size),(4,size),(4,7),(4,4096)]

/-- The wrapper's file. -/
def wrapped (entry min size : Nat) (bin : List Byte) : List Byte :=
  padTo (elfHeader (packed 4 entry) ++ programHeader (packed 4 min) (packed 4 size)) KERNEL_FILE_OFF 0 ++ bin

/-- The wrapper's one segment. -/
def wrappedSegment (min size : Nat) : LoadSegment := { offset := KERNEL_FILE_OFF, paddr := min, filesz := size, memsz := size }

variable {entry min size : Nat} {bin : List Byte}

theorem headers_eq :
    elfHeader (packed 4 entry) ++ programHeader (packed 4 min) (packed 4 size) = encode (wrapperFields entry min size) := by
  rfl

theorem fields_narrow : ∀ f ∈ wrapperFields entry min size, f.1 ≤ 8 := by simp [wrapperFields]

theorem length_headers : (encode (wrapperFields entry min size)).length = 84 :=
  (length_encode fields_narrow).trans (by simp [place,wrapperFields])

/-- The headers, zeros up to the kernel, and the kernel. -/
theorem wrapped_eq :
    wrapped entry min size bin = encode (wrapperFields entry min size) ++ (List.replicate (0x1000 - 84) 0 ++ bin) := by
  rw [wrapped,padTo_eq,ljust,headers_eq,length_headers,List.append_assoc]
  rfl

theorem length_wrapped : (wrapped entry min size bin).length = 0x1000 + bin.length := by
  rw [wrapped_eq,List.length_append,List.length_append,length_headers,List.length_replicate]
  omega

theorem kernel_bytes (all : bin.length = size) : fileOf (wrapped entry min size bin) (wrappedSegment min size) = bin := by
  have front : (encode (wrapperFields entry min size) ++ List.replicate (0x1000 - 84) (0 : Byte)).length = KERNEL_FILE_OFF := by
    rw [List.length_append,length_headers,List.length_replicate]
    rfl
  have whole : (wrapped entry min size bin).length ≤ KERNEL_FILE_OFF + size := by
    rw [length_wrapped,all]
    exact Nat.le_refl _
  rw [fileOf,slice,wrappedSegment,List.take_of_length_le whole,wrapped_eq,← List.append_assoc]
  exact List.drop_left' front

/-- A field of the wrapper's headers as its readers find it. -/
theorem read_field {i pos width v : Nat} (here : (wrapperFields entry min size)[i]? = some (width,v))
    (starts : place (wrapperFields entry min size) i = pos) (inside : pos + width ≤ 84) (small : v < 256 ^ width) :
    unpackFrom width (wrapped entry min size bin) pos = .ok v := by
  refine unpackFrom_ok_iff.mpr ⟨by rw [length_wrapped]; omega,?_⟩
  rw [wrapped_eq,← starts]
  exact (number_encode fields_narrow here small _).symm

/-- The segment that a file of 32 bits with one program header, behind its ELF header, is read as. -/
theorem parse_of_fields {out : List Byte} {offset : Nat} (magic : out.take 4 = [0x7F,0x45,0x4C,0x46]) (elf32 : out[4]? = some 1)
    (start : unpackFrom 4 out 24 = .ok entry) (phoff : unpackFrom 4 out 28 = .ok 52) (phentsize : unpackFrom 2 out 42 = .ok 32)
    (phnum : unpackFrom 2 out 44 = .ok 1) (type : unpackFrom 4 out 52 = .ok 1) (from' : unpackFrom 4 out 56 = .ok offset)
    (paddr : unpackFrom 4 out 64 = .ok min) (filesz : unpackFrom 4 out 68 = .ok size) (memsz : unpackFrom 4 out 72 = .ok size) :
    parseElfSegments out = .ok ([{ offset := offset, paddr := min, filesz := size, memsz := size }],entry,false) := by
  have one : List.range 1 = [0] := rfl
  rw [parseElfSegments,if_neg (by simp [magic]),elf32]
  simp [segmentsOf,loadSegments,segmentAt,start,phoff,phentsize,phnum,type,from',paddr,filesz,memsz,one,raising]

/-- The wrapper is read as what it was made from. -/
theorem parse_wrapped (small : entry < 2 ^ 32) (small' : min < 2 ^ 32) (small'' : size < 2 ^ 32) :
    parseElfSegments (wrapped entry min size bin) = .ok ([wrappedSegment min size],entry,false) := by
  have starts : wrapped entry min size bin = [0x7F,0x45,0x4C,0x46,1] ++
      (encode ((wrapperFields entry min size).drop 5) ++ (List.replicate (0x1000 - 84) 0 ++ bin)) := by
    have front : encode (wrapperFields entry min size) =
        [0x7F,0x45,0x4C,0x46,1] ++ encode ((wrapperFields entry min size).drop 5) := rfl
    rw [wrapped_eq,front,List.append_assoc]
  have magic : (wrapped entry min size bin).take 4 = [0x7F,0x45,0x4C,0x46] := by
    rw [starts]
    rfl
  have elf32 : (wrapped entry min size bin)[4]? = some 1 := by
    rw [starts]
    rfl
  have start : unpackFrom 4 (wrapped entry min size bin) 24 = .ok entry :=
    read_field (i := 12) rfl (by simp [place,wrapperFields]) (by decide) small
  have phoff : unpackFrom 4 (wrapped entry min size bin) 28 = .ok 52 :=
    read_field (i := 13) rfl (by simp [place,wrapperFields]) (by decide) (by decide)
  have phentsize : unpackFrom 2 (wrapped entry min size bin) 42 = .ok 32 :=
    read_field (i := 17) rfl (by simp [place,wrapperFields]) (by decide) (by decide)
  have phnum : unpackFrom 2 (wrapped entry min size bin) 44 = .ok 1 :=
    read_field (i := 18) rfl (by simp [place,wrapperFields]) (by decide) (by decide)
  have type : unpackFrom 4 (wrapped entry min size bin) 52 = .ok 1 :=
    read_field (i := 22) rfl (by simp [place,wrapperFields]) (by decide) (by decide)
  have offset : unpackFrom 4 (wrapped entry min size bin) 56 = .ok KERNEL_FILE_OFF :=
    read_field (i := 23) rfl (by simp [place,wrapperFields]) (by decide) (by decide)
  have paddr : unpackFrom 4 (wrapped entry min size bin) 64 = .ok min :=
    read_field (i := 25) rfl (by simp [place,wrapperFields]) (by decide) small'
  have filesz : unpackFrom 4 (wrapped entry min size bin) 68 = .ok size :=
    read_field (i := 26) rfl (by simp [place,wrapperFields]) (by decide) small''
  have memsz : unpackFrom 4 (wrapped entry min size bin) 72 = .ok size :=
    read_field (i := 27) rfl (by simp [place,wrapperFields]) (by decide) small''
  exact parse_of_fields magic elf32 start phoff phentsize phnum type offset paddr filesz memsz

/-! ## The tool -/

/-- The number of bytes of the flat binary. -/
def flatSize (segs : List LoadSegment) : Nat := alignUp (maxPaddr segs - minPaddr segs) 4096

theorem buildFlatBinary_sizes (segs : List LoadSegment) (data : List Byte) :
    ∃ bin, buildFlatBinary segs data = (bin,flatSize segs,minPaddr segs) ∧ bin.length = flatSize segs := by
  have sizes := flat_length segs data
  have parts : (buildFlatBinary segs data).2 = (flatSize segs,minPaddr segs) := by
    unfold buildFlatBinary
    split
    · next empty =>
      rw [List.isEmpty_iff.mp empty]
      simp [flatSize,minPaddr,maxPaddr,alignUp_page]
    · rfl
  refine ⟨(buildFlatBinary segs data).1,by rw [← parts],?_⟩
  rw [sizes.1,parts]

theorem flatSize_pages (segs : List LoadSegment) : flatSize segs = alignUp (flatSize segs) 4096 := by
  simp only [flatSize,alignUp_page]
  omega

theorem p32_ok_iff {v : Int} {bytes : List Byte} : p32 v = .ok bytes ↔ 0 ≤ v ∧ v < 2 ^ 32 ∧ bytes = packed 4 v.toNat := by
  unfold p32 pack
  by_cases low : v < 0
  · rw [if_pos low]
    exact iff_of_false (by simp) (by omega)
  · rw [if_neg low]
    by_cases high : v.toNat < 256 ^ 4
    · rw [if_pos high]
      constructor
      · intro same
        cases same
        exact ⟨by omega,by omega,rfl⟩
      · rintro ⟨_,_,rfl⟩
        rfl
    · rw [if_neg high]
      exact iff_of_false (by simp) (by omega)

/-- The search does not run past whole pages. -/
theorem findMultiboot_ends {bin : List Byte} (whole : bin.length % 4 = 0) :
    ∃ found, findMultiboot bin (BootNotes.scanned bin) = .ok found := by
  have inside : ∀ i ∈ BootNotes.scanned bin, i + 4 ≤ bin.length := by
    intro i member
    obtain ⟨k,low,rfl⟩ := List.mem_map.mp member
    have below := List.mem_range.mp low
    omega
  generalize BootNotes.scanned bin = rest at inside
  induction rest with
  | nil => exact ⟨false,rfl⟩
  | cons i rest ih =>
    obtain ⟨found,later⟩ := ih fun j member => inside j (List.mem_cons_of_mem i member)
    have read : unpackFrom 4 bin i = .ok (number bin i 4) := unpackFrom_ok_iff.mpr ⟨inside i List.mem_cons_self,rfl⟩
    by_cases here : number bin i 4 = 0x1BADB002
    · exact ⟨true,by simp [findMultiboot,read,here,bind,Except.bind]⟩
    · exact ⟨found,by simp [findMultiboot,read,here,later,bind,Except.bind]⟩

theorem raising_ok_iff {α : Type} {x : Except BootNotes.Failure α} {a : α} : raising x = .ok a ↔ x = .ok a := by
  cases x with
  | ok b => simp [raising]
  | error f => simp [raising]

/-- What the tool writes for a kernel that has been read. -/
theorem wrapper_ok_iff {entry : Nat} {is64 : Bool} (parsed : parseElfSegments data = .ok (segs,entry,is64)) {out : List Byte}
    {found : Bool} : buildKernelWrapper data = .ok (out,found) ↔
      0 ≤ physEntry entry ∧ physEntry entry < 2 ^ 32 ∧ minPaddr segs < 2 ^ 32 ∧ flatSize segs < 2 ^ 32 ∧
        findMultiboot (buildFlatBinary segs data).1 (BootNotes.scanned (buildFlatBinary segs data).1) = .ok found ∧
        out = wrapped (physEntry entry).toNat (minPaddr segs) (flatSize segs) (buildFlatBinary segs data).1 := by
  obtain ⟨bin,flat,_⟩ := buildFlatBinary_sizes segs data
  rw [buildKernelWrapper,parsed,ok_bind]
  simp only [flat,raising_ok_iff,bind_ok_iff,p32_ok_iff,Except.ok.injEq,Prod.mk.injEq]
  constructor
  · rintro ⟨found',looked,_,⟨low,high,rfl⟩,_,⟨_,high',rfl⟩,_,⟨_,high'',rfl⟩,rfl,rfl⟩
    exact ⟨low,high,by omega,by omega,looked,rfl⟩
  · rintro ⟨low,high,high',high'',looked,rfl⟩
    exact ⟨found,looked,_,⟨low,high,rfl⟩,_,⟨by omega,by omega,rfl⟩,_,⟨by omega,by omega,rfl⟩,rfl,rfl⟩

/-! ## Memory -/

/-- The memory that a loader makes of load segments: the bytes of the file, and zeros behind them. -/
def loaded (segs : List LoadSegment) (data : List Byte) (a : Nat) : Option Byte :=
  (segs.find? fun s => s.paddr ≤ a ∧ a < s.paddr + s.memsz).map fun s =>
    if a < s.paddr + s.filesz then (data[s.offset + (a - s.paddr)]?).getD 0 else 0

/-- The flat image has the memory of the segments, and zeros between them. -/
theorem flat_loaded (loadable : Loadable segs data) {buf : List Byte} (flat : FlatOf segs data buf) {a : Nat}
    (above : minPaddr segs ≤ a)
    (below : a < minPaddr segs + buf.length) : buf[a - minPaddr segs]? = some ((loaded segs data a).getD 0) := by
  have inRange (t : LoadSegment) (member : t ∈ segs) (k : Nat) (low : k < t.filesz)
      (same : a - minPaddr segs = t.paddr - minPaddr segs + k) :
      a = t.paddr + k ∧ k < t.memsz := by
    have least := minPaddr_le member
    have sized := loadable.sized t member
    omega
  cases found : segs.find? fun s => s.paddr ≤ a ∧ a < s.paddr + s.memsz with
  | none =>
    have nowhere := List.find?_eq_none.mp found
    rw [loaded,found]
    refine flat.zero _ (by omega) fun t member k low same => ?_
    obtain ⟨here,inside⟩ := inRange t member k low same
    exact nowhere t member (decide_eq_true ⟨by omega,by omega⟩)
  | some s =>
    have member := List.mem_of_find?_eq_some found
    have covers := List.find?_some found
    simp only [decide_eq_true_eq] at covers
    rw [loaded,found]
    by_cases inFile : a < s.paddr + s.filesz
    · have least := minPaddr_le member
      have byte := flat.file s member (a - s.paddr) (by omega)
      have there := loadable.inFile s member
      rw [show s.paddr - minPaddr segs + (a - s.paddr) = a - minPaddr segs by omega] at byte
      have inData : s.offset + (a - s.paddr) < data.length := by omega
      rw [byte,Option.map_some,if_pos inFile,List.getElem?_eq_getElem inData]
      rfl
    · simp only [Option.map_some,if_neg inFile,Option.getD_some]
      refine flat.zero _ (by omega) fun t member' k low same => ?_
      obtain ⟨here,inside⟩ := inRange t member' k low same
      by_cases equal : s = t
      · rw [equal] at inFile
        omega
      · have symm : Std.Symm Apart := ⟨fun _ _ apart => apart.symm⟩
        have apart := List.Pairwise.forall loadable.apart member member' equal
        have other := apart a covers.1 covers.2
        omega

theorem loaded_one (s : LoadSegment) (a : Nat) : loaded [s] data a = if s.paddr ≤ a ∧ a < s.paddr + s.memsz
    then some (if a < s.paddr + s.filesz then (data[s.offset + (a - s.paddr)]?).getD 0 else 0) else none := by
  unfold loaded
  by_cases covered : s.paddr ≤ a ∧ a < s.paddr + s.memsz
  · simp only [List.find?_cons,decide_eq_true covered,Option.map_some,if_pos covered]
  · simp only [List.find?_cons,decide_eq_false covered,List.find?_nil,Option.map_none,if_neg covered]

/-- What a loader makes of the wrapper: the memory of the kernel's segments in whole pages, with zeros where there was none. -/
theorem wrapped_loaded {entry : Nat} (loadable : Loadable segs data) (a : Nat) :
    loaded [wrappedSegment (minPaddr segs) (flatSize segs)]
        (wrapped entry (minPaddr segs) (flatSize segs) (buildFlatBinary segs data).1) a =
      if minPaddr segs ≤ a ∧ a < minPaddr segs + flatSize segs then some ((loaded segs data a).getD 0) else none := by
  obtain ⟨bin,flat,length⟩ := buildFlatBinary_sizes segs data
  by_cases covered : minPaddr segs ≤ a ∧ a < minPaddr segs + flatSize segs
  · have some' : segs ≠ [] := by
      rintro rfl
      simp [minPaddr,maxPaddr,flatSize,alignUp_page] at covered
    obtain ⟨buf,isBuf,_,shows⟩ := buildFlatBinary_spec loadable some'
    have same : buf = bin := congrArg Prod.fst (isBuf.symm.trans flat)
    subst same
    have byte := flat_loaded loadable (flatOf_of_shows loadable shows) covered.1 (by omega)
    have behind : (wrapped entry (minPaddr segs) (flatSize segs) buf)[KERNEL_FILE_OFF + (a - minPaddr segs)]? =
      buf[a - minPaddr segs]? := by
      have kernel := congrArg (·[a - minPaddr segs]?) (@kernel_bytes entry (minPaddr segs) (flatSize segs) buf length)
      simp only [fileOf,slice,wrappedSegment,List.getElem?_drop] at kernel
      rw [List.getElem?_take_of_lt (by omega)] at kernel
      exact kernel
    rw [loaded_one,if_pos covered,flat]
    simp only [wrappedSegment,covered,and_self,if_true,behind,byte,Option.getD_some]
  · rw [loaded_one,if_neg covered]
    exact if_neg covered

/--
The wrapper is written exactly for kernels whose entry, lowest address and size
are numbers of 32 bits. It is read back as one segment at the lowest address,
the tool leaves it as it is, and loading it gives the memory of the kernel.
-/
theorem wrapper_faithful (data : List Byte) (segs : List LoadSegment) (entry : Nat) (is64 : Bool)
    (parsed : parseElfSegments data = .ok (segs,entry,is64)) :
    ((∃ r, buildKernelWrapper data = .ok r) ↔
      0 ≤ physEntry entry ∧ physEntry entry < 2 ^ 32 ∧ minPaddr segs < 2 ^ 32 ∧ flatSize segs < 2 ^ 32) ∧
    ∀ out found, buildKernelWrapper data = .ok (out,found) →
      parseElfSegments out = .ok ([wrappedSegment (minPaddr segs) (flatSize segs)],(physEntry entry).toNat,false) ∧
      buildKernelWrapper out = .ok (out,found) ∧
      (Loadable segs data → ∀ a, loaded [wrappedSegment (minPaddr segs) (flatSize segs)] out a =
        if minPaddr segs ≤ a ∧ a < minPaddr segs + flatSize segs then some ((loaded segs data a).getD 0) else none) := by
  obtain ⟨bin,flat,length⟩ := buildFlatBinary_sizes segs data
  constructor
  · constructor
    · rintro ⟨⟨out,found⟩,ran⟩
      obtain ⟨low,high,least,size,_⟩ := (wrapper_ok_iff parsed).mp ran
      exact ⟨low,high,least,size⟩
    · rintro ⟨low,high,least,size⟩
      have whole : bin.length % 4 = 0 := by
        have pages := flatSize_pages segs
        rw [alignUp_page] at pages
        omega
      obtain ⟨found,looked⟩ := findMultiboot_ends whole
      refine ⟨(_,found),(wrapper_ok_iff parsed).mpr ⟨low,high,least,size,?_,rfl⟩⟩
      rw [flat]
      exact looked
  · intro out found ran
    obtain ⟨low,high,least,size,looked,rfl⟩ := (wrapper_ok_iff parsed).mp ran
    have small : (physEntry entry).toNat < 2 ^ 32 := by omega
    have again := @parse_wrapped _ _ _ (buildFlatBinary segs data).1 small least size
    refine ⟨again,?_,fun loadable a => wrapped_loaded loadable a⟩
    rw [flat] at looked again ⊢
    -- The flat binary of the wrapper is the kernel's: its one segment has whole pages.
    have flat' :=
      flat_one (flatSize_pages segs) rfl length (@kernel_bytes (physEntry entry).toNat (minPaddr segs) (flatSize segs) bin length)
    have sizes := buildFlatBinary_sizes [wrappedSegment (minPaddr segs) (flatSize segs)]
      (wrapped (physEntry entry).toNat (minPaddr segs) (flatSize segs) bin)
    rw [flat'] at sizes
    obtain ⟨_,same,_⟩ := sizes
    simp only [Prod.mk.injEq] at same
    have size' : flatSize [wrappedSegment (minPaddr segs) (flatSize segs)] = flatSize segs := same.2.1.symm
    have least' : minPaddr [wrappedSegment (minPaddr segs) (flatSize segs)] = minPaddr segs := same.2.2.symm
    have phys : physEntry (physEntry entry).toNat = ((physEntry entry).toNat : Int) := if_neg (by omega)
    refine (wrapper_ok_iff again).mpr ⟨by omega,by omega,by omega,by omega,?_,?_⟩
    · rw [flat']
      exact looked
    · rw [flat',phys,size',least']
      rfl

theorem wrapper_faithful_prepared : parseElfSegments BootNotes.prepared = .ok ([⟨176,0x100000,4,4⟩],0,true) ∧
    (∃ r, buildKernelWrapper BootNotes.prepared = .ok r) ∧
    ∀ out found, buildKernelWrapper BootNotes.prepared = .ok (out,found) →
      parseElfSegments out = .ok ([⟨0x1000,0x100000,4096,4096⟩],0,false) ∧ buildKernelWrapper out = .ok (out,found) ∧
      loaded [⟨0x1000,0x100000,4096,4096⟩] out 0x100001 = some 0xB0 ∧ loaded [⟨0x1000,0x100000,4096,4096⟩] out 0x100FFF = some 0 ∧
      loaded [⟨0x1000,0x100000,4096,4096⟩] out 0x101000 = none := by
  have parsed : parseElfSegments BootNotes.prepared = .ok ([⟨176,0x100000,4,4⟩],0,true) := by decide +kernel
  have least : minPaddr [⟨176,0x100000,4,4⟩] = 0x100000 := rfl
  have size : flatSize [⟨176,0x100000,4,4⟩] = 4096 := by simp [flatSize,minPaddr,maxPaddr,alignUp_page]
  have start : physEntry 0 = 0 := by simp [physEntry]
  obtain ⟨written,all⟩ := wrapper_faithful BootNotes.prepared _ 0 true parsed
  rw [least,size,start] at written all
  refine ⟨parsed,written.mpr (by decide),fun out found ran => ?_⟩
  obtain ⟨read,again,memory⟩ := all out found ran
  have loadable : Loadable [⟨176,0x100000,4,4⟩] BootNotes.prepared := by
    refine ⟨by simp,?_,List.pairwise_singleton _ _⟩
    intro s member
    rw [List.mem_singleton.mp member]
    decide +kernel
  have there := memory loadable
  refine ⟨read,again,(there 0x100001).trans ?_,(there 0x100FFF).trans ?_,(there 0x101000).trans ?_⟩ <;> decide +kernel

end Sel4Linux.KernelWrapper
