import Sel4Linux.Loader

/-!
Which byte strings the ELF loaders get through. A build with overflow checks
comes to a result exactly when no header that it reaches has an address, a size
or a place in the file beyond a bound (`loaders_finish_iff`); the bounds are
stated in exact numbers over the bytes of the file.
-/
namespace Sel4Linux.ElfBounds
open Sel4Linux.Bytes Sel4Linux.Ipc Sel4Linux.TaskMem Sel4Linux.MemImage Sel4Linux.Task Sel4Linux.Execve Sel4Linux.Runs
open Sel4Linux.Loader
set_option linter.unusedSimpArgs false

/-! ## The file in exact numbers -/

/-- A number of `width` bytes in a file. -/
def wordAt (data : List Byte) (pos width : Nat) : Word := packWord ((data.take (pos + width)).drop pos) 0

/-- The ELF header of a file of at least 64 bytes. -/
def headerOf (data : List Byte) : ElfHeader :=
  { entry := wordAt data 24 8, phoff := wordAt data 32 8, phentsize := wordAt data 54 2, phnum := wordAt data 56 2 }

/-- Where the program header `i` begins. -/
def place (h : ElfHeader) (i : Nat) : Nat := h.phoff.toNat + i * h.phentsize.toNat

def InFile (data : List Byte) (h : ElfHeader) (i : Nat) : Prop := place h i + 56 ≤ data.length

/-- The loaders look at the program header `i`: all before it are in the file. -/
def Reached (data : List Byte) (h : ElfHeader) (i : Nat) : Prop := i < h.phnum.toNat ∧ ∀ j < i, InFile data h j

def segmentAt (data : List Byte) (pos : Nat) : Segment :=
  { fileOffset := wordAt data (pos + 8) 8, vaddr := wordAt data (pos + 16) 8, filesz := wordAt data (pos + 32) 8,
    memsz := wordAt data (pos + 40) 8 }

/-- `seg` is a loadable segment that the loaders get to. -/
def Loadable (data : List Byte) (h : ElfHeader) (seg : Segment) : Prop :=
  ∃ i, Reached data h i ∧ InFile data h i ∧ wordAt data (place h i) 4 = PT_LOAD ∧ seg = segmentAt data (place h i)

/-- The bytes that a file has for a segment. -/
def fileBytes (data : List Byte) (seg : Segment) : List Byte :=
  (data.take (seg.fileOffset.toNat + seg.filesz.toNat)).drop seg.fileOffset.toNat

/-! ## Bounds -/

/-- No program header that is looked at ends beyond the address space. -/
def TableFits (data : List Byte) (h : ElfHeader) : Prop := ∀ i, Reached data h i → place h i + 56 < 2 ^ 64

/-- A segment at an address ends at least a page before the end of the address space, and its bytes are in the file. -/
structure SegmentFits (data : List Byte) (vaddr : Word) (seg : Segment) : Prop where
  memory : vaddr.toNat + seg.memsz.toNat + PAGE_SIZE < 2 ^ 64
  file : 0 < seg.filesz → seg.fileOffset.toNat + seg.filesz.toNat ≤ data.length ∧
    seg.fileOffset.toNat + seg.filesz.toNat < 2 ^ 64 ∧ vaddr.toNat + seg.filesz.toNat < 2 ^ 64

/-- No patch of a syscall instruction reaches the end of the address space. -/
def PatchesFit (data : List Byte) (seg : Segment) : Prop :=
  ∀ j, SyscallAt (fileBytes data seg) j → seg.vaddr.toNat + j + 4 < 2 ^ 64

/-! ## Single steps -/

theorem toNat_add_ofNat {p offset : Nat} (room : p + offset < 2 ^ 64) :
    (BitVec.ofNat 64 p).toNat + (BitVec.ofNat 64 offset).toNat = p + offset := by
  rw [BitVec.toNat_ofNat,BitVec.toNat_ofNat,Nat.mod_eq_of_lt (by omega),Nat.mod_eq_of_lt (by omega)]

theorem slice_ok_iff (data : List Byte) (start stop : Word) (bytes : List Byte) :
    slice data start stop = .ok bytes ↔
      start.toNat ≤ stop.toNat ∧ stop.toNat ≤ data.length ∧ bytes = (data.take stop.toNat).drop start.toNat := by
  rw [slice]
  by_cases inside : start ≤ stop ∧ stop.toNat ≤ data.length
  · rw [if_pos inside,Except.ok.injEq,eq_comm,← and_assoc]
    exact (and_iff_right inside).symm
  · rw [if_neg inside]
    exact iff_of_false (fun same => by cases same) fun all => inside ⟨all.1,all.2.1⟩

theorem slice_ofNat {data : List Byte} {start stop : Nat} (order : start ≤ stop) (inFile : stop ≤ data.length)
    (room : stop < 2 ^ 64) :
    slice data (BitVec.ofNat 64 start) (BitVec.ofNat 64 stop) = .ok ((data.take stop).drop start) := by
  have isStart : (BitVec.ofNat 64 start).toNat = start := by rw [BitVec.toNat_ofNat,Nat.mod_eq_of_lt (by omega)]
  have isStop : (BitVec.ofNat 64 stop).toNat = stop := by rw [BitVec.toNat_ofNat,Nat.mod_eq_of_lt room]
  rw [slice_ok_iff,isStart,isStop]
  exact ⟨order,inFile,rfl⟩

theorem readHeader_eq {data : List Byte} (long : 64 ≤ data.length) : readHeader data = .ok (headerOf data) := by
  have read (pos width : Nat) (inside : pos + width ≤ 64) :
      field data (BitVec.ofNat 64 pos) (BitVec.ofNat 64 width) = .ok (wordAt data pos width) := by
    rw [field,← BitVec.ofNat_add,slice_ofNat (by omega) (by omega) (by omega)]
    rfl
  have first : field data 32 8 = .ok (wordAt data 32 8) := read 32 8 (by decide)
  have second : field data 54 2 = .ok (wordAt data 54 2) := read 54 2 (by decide)
  have third : field data 56 2 = .ok (wordAt data 56 2) := read 56 2 (by decide)
  have fourth : field data 24 8 = .ok (wordAt data 24 8) := read 24 8 (by decide)
  rw [readHeader,first,second,third,fourth]
  rfl

section
variable {data : List Byte} {p : Nat} (inFile : p + 56 ≤ data.length) (room : p + 56 < 2 ^ 64)
include inFile room

theorem checked_field (offset width : Nat) (inside : offset + width ≤ 56) :
    checked.field data (BitVec.ofNat 64 p) (BitVec.ofNat 64 offset) (BitVec.ofNat 64 width) =
      .ok (wordAt data (p + offset) width) := by
  have sum (n : Nat) (small : n ≤ 56) : checked.add (BitVec.ofNat 64 p) (BitVec.ofNat 64 n) = .ok (BitVec.ofNat 64 (p + n)) := by
    rw [checked_add_iff,toNat_add_ofNat (by omega)]
    exact ⟨by omega,BitVec.ofNat_add p n⟩
  rw [Arith.field,← BitVec.ofNat_add,sum offset (by omega),sum (offset + width) inside,ok_bind,ok_bind,
    slice_ofNat (by omega) (by omega) (by omega)]
  change Except.ok (packWord ((data.take (p + (offset + width))).drop (p + offset)) 0) = _
  rw [wordAt,Nat.add_assoc]

theorem checked_type : checked.field data (BitVec.ofNat 64 p) 0 4 = .ok (wordAt data p 4) :=
  checked_field inFile room 0 4 (by decide)

theorem checked_segment : checked.segment data (BitVec.ofNat 64 p) = .ok (segmentAt data p) := by
  have first : checked.field data (BitVec.ofNat 64 p) 8 8 = .ok (wordAt data (p + 8) 8) :=
    checked_field inFile room 8 8 (by decide)
  have second : checked.field data (BitVec.ofNat 64 p) 16 8 = .ok (wordAt data (p + 16) 8) :=
    checked_field inFile room 16 8 (by decide)
  have third : checked.field data (BitVec.ofNat 64 p) 32 8 = .ok (wordAt data (p + 32) 8) :=
    checked_field inFile room 32 8 (by decide)
  have fourth : checked.field data (BitVec.ofNat 64 p) 40 8 = .ok (wordAt data (p + 40) 8) :=
    checked_field inFile room 40 8 (by decide)
  rw [Arith.segment,first,second,third,fourth]
  rfl

end

/-! ## The loop over the program headers -/

/-- The sums that lead to a program header. -/
theorem place_sums {h : ElfHeader} {i : Nat} (small : i < 2 ^ 64) (room : place h i + 56 < 2 ^ 64) :
    checked.mul (BitVec.ofNat 64 i) h.phentsize = .ok (BitVec.ofNat 64 (i * h.phentsize.toNat)) ∧
      checked.add h.phoff (BitVec.ofNat 64 (i * h.phentsize.toNat)) = .ok (BitVec.ofNat 64 (place h i)) ∧
      checked.add (BitVec.ofNat 64 (place h i)) 56 = .ok (BitVec.ofNat 64 (place h i + 56)) := by
  have isPlace : place h i = h.phoff.toNat + i * h.phentsize.toNat := rfl
  have own (w : Word) : BitVec.ofNat 64 w.toNat = w := by rw [BitVec.ofNat_toNat,BitVec.setWidth_eq]
  refine ⟨?_,?_,?_⟩
  · rw [checked_mul_iff,BitVec.toNat_ofNat,Nat.mod_eq_of_lt small,BitVec.ofNat_mul,own]
    exact ⟨by omega,rfl⟩
  · rw [checked_add_iff,BitVec.toNat_ofNat,Nat.mod_eq_of_lt (by omega),isPlace,BitVec.ofNat_add,own]
    exact ⟨by omega,rfl⟩
  · have sum := (checked_add_iff (BitVec.ofNat 64 (place h i)) (BitVec.ofNat 64 56) _).mpr
      ⟨by rw [toNat_add_ofNat room]; exact room,rfl⟩
    rw [BitVec.ofNat_add]
    exact sum

theorem finishes_step_iff {β : Type} {data : List Byte} {h : ElfHeader} {visit : Word → Except Stop (Option β)} {n i : Nat}
    (small : i < 2 ^ 64) :
    Finishes (checked.forHeaders data h visit (n + 1) i) ↔ place h i + 56 < 2 ^ 64 ∧
      (InFile data h i → Finishes (visit (BitVec.ofNat 64 (place h i))) ∧
        Finishes (checked.forHeaders data h visit n (i + 1))) := by
  rw [Arith.forHeaders]
  by_cases room : place h i + 56 < 2 ^ 64
  · obtain ⟨product,sum,last⟩ := place_sums small room
    rw [product,ok_bind,sum,ok_bind,last,ok_bind,BitVec.toNat_ofNat,Nat.mod_eq_of_lt room,and_iff_right room]
    by_cases inFile : InFile data h i
    · rw [if_neg (Nat.not_lt.mpr inFile),finishes_bind_iff]
      constructor
      · rintro ⟨here,visited,rest⟩ _
        obtain ⟨later,isLater,_⟩ := finishes_bind_iff.mp rest
        exact ⟨⟨here,visited⟩,later,isLater⟩
      · intro both
        obtain ⟨⟨here,visited⟩,later,isLater⟩ := both inFile
        exact ⟨here,visited,finishes_bind_iff.mpr ⟨later,isLater,finishes_ok _⟩⟩
    · rw [if_pos (Nat.lt_of_not_le inFile)]
      exact iff_of_true (finishes_ok []) fun there => absurd there inFile
  · refine iff_of_false (fun finishes => room ?_) fun both => room both.1
    obtain ⟨skip,product,rest⟩ := finishes_bind_iff.mp finishes
    obtain ⟨phOff,sum,rest⟩ := finishes_bind_iff.mp rest
    obtain ⟨last,isLast,_⟩ := finishes_bind_iff.mp rest
    obtain ⟨small₁,rfl⟩ := (checked_mul_iff _ _ _).mp product
    obtain ⟨small₂,rfl⟩ := (checked_add_iff _ _ _).mp sum
    obtain ⟨small₃,_⟩ := (checked_add_iff _ _ _).mp isLast
    rw [BitVec.toNat_ofNat,Nat.mod_eq_of_lt small] at small₁
    have isProduct : (BitVec.ofNat 64 i * h.phentsize).toNat = i * h.phentsize.toNat := by
      rw [BitVec.toNat_mul,BitVec.toNat_ofNat,Nat.mod_eq_of_lt small,Nat.mod_eq_of_lt small₁]
    rw [BitVec.toNat_add_of_lt small₂,isProduct] at small₃
    exact small₃

/-- The loop comes to its end exactly when each header that it looks at ends within the address space, and each of them
    that is in the file is visited without a stop. -/
theorem finishes_forHeaders_iff {β : Type} {data : List Byte} {h : ElfHeader} {visit : Word → Except Stop (Option β)}
    {n i : Nat} (small : i + n ≤ 2 ^ 64) :
    Finishes (checked.forHeaders data h visit n i) ↔
      ∀ k, i ≤ k → k < i + n → (∀ j, i ≤ j → j < k → InFile data h j) → place h k + 56 < 2 ^ 64 ∧
        (InFile data h k → Finishes (visit (BitVec.ofNat 64 (place h k)))) := by
  induction n generalizing i with
  | zero => exact iff_of_true (finishes_ok []) fun k low high => by omega
  | succ n ih =>
    rw [finishes_step_iff (by omega),ih (by omega)]
    constructor
    · rintro ⟨room,visits⟩ k low high before
      rcases Nat.eq_or_lt_of_le low with same | later
      · subst same
        exact ⟨room,fun inFile => (visits inFile).1⟩
      · exact (visits (before i (Nat.le_refl i) later)).2 k later (by omega) fun j above below => before j (by omega) below
    · intro all
      obtain ⟨room,visited⟩ := all i (Nat.le_refl i) (by omega) fun j above below => by omega
      refine ⟨room,fun inFile => ⟨visited inFile,fun k low high before => all k (by omega) (by omega) ?_⟩⟩
      intro j above below
      rcases Nat.eq_or_lt_of_le above with same | later
      · exact same ▸ inFile
      · exact before j later below

/-! ## Segments -/

theorem finishes_advance_iff (addr : Word) (remaining : Nat) :
    Finishes (checked.advance addr remaining) ↔ remaining = 0 ∨ addr.toNat + remaining < 2 ^ 64 := by
  induction remaining using Nat.strong_induction_on generalizing addr with
  | _ remaining ih =>
    rw [Arith.advance]
    by_cases none : remaining = 0
    · rw [if_pos none]
      exact iff_of_true (finishes_ok addr) (.inl none)
    · rw [if_neg none,or_iff_right none]
      have inside := pageOffset_lt addr
      have bound := addr.isLt
      have isLen : min remaining (PAGE_SIZE - pageOffset addr) < 2 ^ 64 := by
        have size : PAGE_SIZE = 4096 := rfl
        omega
      dsimp only
      generalize len_eq : min remaining (PAGE_SIZE - pageOffset addr) = len at isLen ⊢
      rw [finishes_bind_iff]
      constructor
      · rintro ⟨next,sum,rest⟩
        obtain ⟨room,rfl⟩ := (checked_add_iff _ _ _).mp sum
        rw [BitVec.toNat_ofNat,Nat.mod_eq_of_lt isLen] at room
        rw [ih _ (by omega),toNat_advance isLen,Nat.mod_eq_of_lt room] at rest
        omega
      · intro room
        refine ⟨addr + BitVec.ofNat 64 len,(checked_add_iff _ _ _).mpr ⟨?_,rfl⟩,?_⟩
        · rw [BitVec.toNat_ofNat,Nat.mod_eq_of_lt isLen]
          omega
        · rw [ih _ (by omega),toNat_advance isLen,Nat.mod_eq_of_lt (by omega)]
          omega

theorem finishes_write_iff (addr : Word) (data : List Byte) :
    Finishes (checked.write addr data) ↔ data.length = 0 ∨ addr.toNat + data.length < 2 ^ 64 := by
  rw [← finishes_advance_iff,Arith.write,finishes_bind_iff]
  constructor
  · rintro ⟨last,isLast,_⟩
    exact ⟨last,isLast⟩
  · rintro ⟨last,isLast⟩
    exact ⟨last,isLast,finishes_ok _⟩

theorem checked_lift_iff {α : Type} (x : Except Fault α) (a : α) : checked.lift x = .ok a ↔ x = .ok a := by
  cases x with
  | ok b => simp [Arith.lift]
  | error f => simp [Arith.lift]

theorem checked_fileData_iff (data : List Byte) (seg : Segment) (bytes : List Byte) :
    checked.fileData data seg = .ok bytes ↔ seg.fileOffset.toNat + seg.filesz.toNat < 2 ^ 64 ∧
      seg.fileOffset.toNat + seg.filesz.toNat ≤ data.length ∧ bytes = fileBytes data seg := by
  rw [Arith.fileData,bind_ok_iff]
  have stop (room : seg.fileOffset.toNat + seg.filesz.toNat < 2 ^ 64) :
      (seg.fileOffset + seg.filesz).toNat = seg.fileOffset.toNat + seg.filesz.toNat := by
    rw [BitVec.toNat_add_of_lt room]
  constructor
  · rintro ⟨last,sum,read⟩
    obtain ⟨room,rfl⟩ := (checked_add_iff _ _ _).mp sum
    rw [checked_lift_iff,slice_ok_iff,stop room] at read
    exact ⟨room,read.2.1,read.2.2⟩
  · rintro ⟨room,inFile,isBytes⟩
    refine ⟨_,(checked_add_iff _ _ _).mpr ⟨room,rfl⟩,?_⟩
    rw [checked_lift_iff,slice_ok_iff,stop room]
    exact ⟨Nat.le_add_right _ _,inFile,isBytes⟩

theorem checked_mapSegment (vaddr memsz : Word) :
    Finishes (checked.mapSegment vaddr memsz) ↔ vaddr.toNat + memsz.toNat + PAGE_SIZE < 2 ^ 64 := by
  have page : (BitVec.ofNat 64 PAGE_SIZE).toNat = PAGE_SIZE := by decide
  rw [Arith.mapSegment,finishes_bind_iff]
  constructor
  · rintro ⟨endAddr,sum,rest⟩
    obtain ⟨past,isPast,_⟩ := finishes_bind_iff.mp rest
    obtain ⟨room,rfl⟩ := (checked_add_iff _ _ _).mp sum
    have room' := ((checked_add_iff _ _ _).mp isPast).1
    rw [BitVec.toNat_add_of_lt room,page] at room'
    exact room'
  · intro room
    refine ⟨_,(checked_add_iff _ _ _).mpr ⟨by omega,rfl⟩,
      finishes_bind_iff.mpr ⟨_,(checked_add_iff _ _ _).mpr ⟨?_,rfl⟩,finishes_ok _⟩⟩
    rw [BitVec.toNat_add_of_lt (by omega),page]
    exact room

theorem mem_sites_iff (bytes : List Byte) (j : Nat) : j ∈ sites bytes ↔ SyscallAt bytes j := by
  rw [sites,List.mem_filter,List.mem_range,decide_eq_true_eq]
  refine and_iff_right_of_imp fun site => ?_
  have inside := (List.getElem?_eq_some_iff.mp site.2).1
  omega

theorem length_fileBytes {data : List Byte} {seg : Segment} (inFile : seg.fileOffset.toNat + seg.filesz.toNat ≤ data.length) :
    (fileBytes data seg).length = seg.filesz.toNat := by
  rw [fileBytes,List.length_drop,List.length_take]
  omega

theorem finishes_patches_iff (vaddr : Word) {found : List Nat} (small : ∀ j ∈ found, j < 2 ^ 64) :
    Finishes (checked.patches vaddr found) ↔ ∀ j ∈ found, vaddr.toNat + j + 4 < 2 ^ 64 := by
  induction found with
  | nil => exact iff_of_true (finishes_ok []) fun j member => by cases member
  | cons j rest ih =>
    have later := ih fun k member => small k (List.mem_cons_of_mem j member)
    have isJ : (BitVec.ofNat 64 j).toNat = j := by
      rw [BitVec.toNat_ofNat,Nat.mod_eq_of_lt (small j List.mem_cons_self)]
    rw [Arith.patches,finishes_bind_iff,List.forall_mem_cons,← later]
    constructor
    · rintro ⟨addr,sum,more⟩
      obtain ⟨patch,isPatch,more⟩ := finishes_bind_iff.mp more
      obtain ⟨patches,isPatches,_⟩ := finishes_bind_iff.mp more
      obtain ⟨room,rfl⟩ := (checked_add_iff _ _ _).mp sum
      have fits := (finishes_write_iff _ TRAP_BYTES).mp ⟨patch,isPatch⟩
      rw [isJ] at room
      rw [BitVec.toNat_add,isJ,Nat.mod_eq_of_lt room] at fits
      exact ⟨fits.resolve_left (by decide),patches,isPatches⟩
    · rintro ⟨room,patches,isPatches⟩
      have sum : (vaddr + BitVec.ofNat 64 j).toNat = vaddr.toNat + j := by
        rw [BitVec.toNat_add,isJ,Nat.mod_eq_of_lt (by omega)]
      obtain ⟨patch,isPatch⟩ := (finishes_write_iff (vaddr + BitVec.ofNat 64 j) TRAP_BYTES).mpr (.inr (by rw [sum]; exact room))
      refine ⟨_,(checked_add_iff _ _ _).mpr ⟨by rw [isJ]; omega,rfl⟩,?_⟩
      exact finishes_bind_iff.mpr ⟨patch,isPatch,finishes_bind_iff.mpr ⟨patches,isPatches,finishes_ok _⟩⟩

/-- The part that `load_elf` and `load_elf_segments` share. -/
private theorem segmentFits_iff {data : List Byte} {vaddr : Word} {seg : Segment} :
    SegmentFits data vaddr seg ↔ Finishes (checked.mapSegment vaddr seg.memsz) ∧
      (0 < seg.filesz → checked.fileData data seg = .ok (fileBytes data seg) ∧
        Finishes (checked.write vaddr (fileBytes data seg))) := by
  rw [checked_mapSegment]
  have positive (some' : 0 < seg.filesz) : 0 < seg.filesz.toNat := BitVec.lt_def.mp some'
  constructor
  · rintro ⟨memory,file⟩
    refine ⟨memory,fun some' => ?_⟩
    obtain ⟨inFile,room,within⟩ := file some'
    rw [checked_fileData_iff,finishes_write_iff,length_fileBytes inFile]
    exact ⟨⟨room,inFile,rfl⟩,.inr within⟩
  · rintro ⟨memory,file⟩
    refine ⟨memory,fun some' => ?_⟩
    obtain ⟨read,written⟩ := file some'
    obtain ⟨room,inFile,_⟩ := (checked_fileData_iff data seg _).mp read
    rw [finishes_write_iff,length_fileBytes inFile] at written
    have := positive some'
    exact ⟨inFile,room,written.resolve_left (by omega)⟩

theorem fileBytes_empty {data : List Byte} {seg : Segment} (none : ¬ 0 < seg.filesz) : fileBytes data seg = [] := by
  have zero : seg.filesz.toNat = 0 := Nat.eq_zero_of_not_pos fun some' => none (BitVec.lt_def.mpr some')
  rw [fileBytes,zero,Nat.add_zero]
  exact List.drop_eq_nil_of_le (by rw [List.length_take]; omega)

private theorem sites_small {data : List Byte} {seg : Segment}
    (inFile : seg.fileOffset.toNat + seg.filesz.toNat ≤ data.length) : ∀ j ∈ sites (fileBytes data seg), j < 2 ^ 64 := by
  intro j member
  have inside := (List.getElem?_eq_some_iff.mp ((mem_sites_iff _ j).mp member).1).1
  have bound := seg.filesz.isLt
  rw [length_fileBytes inFile] at inside
  omega

/-- A loader that maps a segment, copies its bytes if there are any, and goes on to `rest`. -/
private theorem finishes_segment_iff {β : Type} {data : List Byte} {vaddr : Word} {seg : Segment}
    {rest : Word × List MemOp → List Byte → MemOp → Except Stop β} {blank : Word × List MemOp → β} {Good : Prop}
    (more : seg.fileOffset.toNat + seg.filesz.toNat ≤ data.length →
      ∀ mapped write, Finishes (rest mapped (fileBytes data seg) write) ↔ Good)
    (empty : ¬ 0 < seg.filesz → Good) :
    Finishes (checked.mapSegment vaddr seg.memsz >>= fun mapped =>
      if 0 < seg.filesz then
        checked.fileData data seg >>= fun bytes => checked.write vaddr bytes >>= fun write => rest mapped bytes write
      else .ok (blank mapped)) ↔ SegmentFits data vaddr seg ∧ Good := by
  rw [segmentFits_iff]
  by_cases some' : 0 < seg.filesz
  · simp only [if_pos some',imp_iff_right some']
    constructor
    · intro finishes
      obtain ⟨mapped,isMapped,finishes⟩ := finishes_bind_iff.mp finishes
      obtain ⟨bytes,read,finishes⟩ := finishes_bind_iff.mp finishes
      obtain ⟨write,written,finishes⟩ := finishes_bind_iff.mp finishes
      obtain ⟨_,inFile,rfl⟩ := (checked_fileData_iff data seg bytes).mp read
      exact ⟨⟨⟨mapped,isMapped⟩,read,write,written⟩,(more inFile mapped write).mp finishes⟩
    · rintro ⟨⟨⟨mapped,isMapped⟩,read,write,written⟩,good⟩
      obtain ⟨_,inFile,_⟩ := (checked_fileData_iff data seg _).mp read
      exact finishes_bind_iff.mpr ⟨mapped,isMapped,finishes_bind_iff.mpr ⟨_,read,finishes_bind_iff.mpr ⟨write,written,
        (more inFile mapped write).mpr good⟩⟩⟩
  · simp only [if_neg some']
    constructor
    · intro finishes
      obtain ⟨mapped,isMapped,_⟩ := finishes_bind_iff.mp finishes
      exact ⟨⟨⟨mapped,isMapped⟩,fun there => absurd there some'⟩,empty some'⟩
    · rintro ⟨⟨⟨mapped,isMapped⟩,_⟩,_⟩
      exact finishes_bind_iff.mpr ⟨mapped,isMapped,finishes_ok _⟩

theorem finishes_loadSegment_iff (data : List Byte) (seg : Segment) :
    Finishes (checked.loadSegment data seg) ↔ SegmentFits data seg.vaddr seg ∧ PatchesFit data seg := by
  refine finishes_segment_iff (fun inFile mapped write => ?_) (fun none j site => ?_)
  · have sites' : (∀ j ∈ sites (fileBytes data seg), seg.vaddr.toNat + j + 4 < 2 ^ 64) ↔ PatchesFit data seg :=
      forall_congr' fun j => by rw [mem_sites_iff]
    rw [finishes_bind_iff,← sites',← finishes_patches_iff seg.vaddr (sites_small inFile)]
    exact ⟨fun ⟨patches,patched,_⟩ => ⟨patches,patched⟩,fun ⟨patches,patched⟩ => ⟨patches,patched,finishes_ok _⟩⟩
  · rw [fileBytes_empty none] at site
    cases site.1

theorem finishes_relocateSegment_iff (data : List Byte) (relocOffset : Word) (seg : Segment) :
    Finishes (checked.relocateSegment data relocOffset seg) ↔ SegmentFits data (seg.vaddr + relocOffset) seg := by
  rw [← and_true (SegmentFits _ _ _)]
  exact finishes_segment_iff (fun _ _ _ => iff_of_true (finishes_ok _) trivial) (fun _ => trivial)

/-! ## The three loaders -/

/-- A loop that asks something of each loadable segment. -/
theorem finishes_headers_iff {β : Type} {data : List Byte} {h : ElfHeader} {visit : Word → Except Stop (Option β)}
    {Good : Segment → Prop} (each : ∀ p, p + 56 ≤ data.length → p + 56 < 2 ^ 64 →
      (Finishes (visit (BitVec.ofNat 64 p)) ↔ (wordAt data p 4 = PT_LOAD → Good (segmentAt data p)))) :
    Finishes (checked.forHeaders data h visit h.phnum.toNat 0) ↔
      TableFits data h ∧ ∀ seg, Loadable data h seg → Good seg := by
  have bound := h.phnum.isLt
  rw [finishes_forHeaders_iff (by omega)]
  constructor
  · intro all
    have here (i : Nat) (reached : Reached data h i) := all i (Nat.zero_le i) (by have := reached.1; omega)
      fun j _ below => reached.2 j below
    refine ⟨fun i reached => (here i reached).1,?_⟩
    rintro seg ⟨i,reached,inFile,isLoad,rfl⟩
    obtain ⟨room,visited⟩ := here i reached
    exact (each (place h i) inFile room).mp (visited inFile) isLoad
  · rintro ⟨table,good⟩ i _ below before
    have reached : Reached data h i := ⟨by omega,fun j inside => before j (Nat.zero_le j) inside⟩
    refine ⟨table i reached,fun inFile => (each (place h i) inFile (table i reached)).mpr fun isLoad => ?_⟩
    exact good _ ⟨i,reached,inFile,isLoad,rfl⟩

theorem not_rejected {data : List Byte} (accepted : rejected data = false) : 64 ≤ data.length := by
  rw [rejected] at accepted
  simp only [Bool.or_eq_false_iff,decide_eq_false_iff_not] at accepted
  omega

theorem finishes_parseElf_iff (data : List Byte) :
    Finishes (parseElf checked data) ↔ (rejected data = false → TableFits data (headerOf data)) := by
  rw [parseElf]
  cases isRejected : rejected data with
  | true => exact iff_of_true (finishes_ok none) fun accepted => by cases accepted
  | false =>
    rw [if_neg Bool.false_ne_true,readHeader_eq (not_rejected isRejected),imp_iff_right rfl]
    have each (p : Nat) (inFile : p + 56 ≤ data.length) (room : p + 56 < 2 ^ 64) :
        Finishes (checked.parseSegment data (BitVec.ofNat 64 p)) ↔ (wordAt data p 4 = PT_LOAD → True) := by
      have flags : checked.field data (BitVec.ofNat 64 p) 4 4 = .ok (wordAt data (p + 4) 4) :=
        checked_field inFile room 4 4 (by decide)
      rw [Arith.parseSegment,checked_type inFile room,checked_segment inFile room,flags]
      refine iff_of_true ?_ fun _ => trivial
      rw [ok_bind]
      split
      · exact finishes_ok none
      · exact finishes_ok _
    have loop : Finishes (checked.forHeaders data (headerOf data) (checked.parseSegment data) (headerOf data).phnum.toNat 0) ↔
        TableFits data (headerOf data) ∧ ∀ seg, Loadable data (headerOf data) seg → True := finishes_headers_iff each
    change Finishes (checked.forHeaders data (headerOf data) _ _ 0 >>= _) ↔ _
    rw [finishes_bind_iff]
    constructor
    · rintro ⟨segments,ran,_⟩
      exact (loop.mp ⟨segments,ran⟩).1
    · intro table
      obtain ⟨segments,ran⟩ := loop.mpr ⟨table,fun _ _ => trivial⟩
      exact ⟨segments,ran,finishes_ok _⟩

/-- A segment that has been loaded ends a page before the end of the address space. -/
theorem load_ends {data : List Byte} {seg : Segment} {load : Word × List MemOp}
    (loaded : checked.loadSegment data seg = .ok load) : load.1.toNat + PAGE_SIZE < 2 ^ 64 := by
  obtain ⟨mapped,isMapped,rest⟩ := bind_ok_iff.mp loaded
  obtain ⟨endAddr,_,isEnd⟩ := bind_ok_iff.mp isMapped
  obtain ⟨past,isPast,isMaps⟩ := bind_ok_iff.mp isEnd
  have room : endAddr.toNat + PAGE_SIZE < 2 ^ 64 := ((checked_add_iff _ _ _).mp isPast).1
  have last : load.1 = endAddr := by
    cases isMaps
    dsimp only at rest
    split at rest
    · obtain ⟨bytes,_,rest⟩ := bind_ok_iff.mp rest
      obtain ⟨write,_,rest⟩ := bind_ok_iff.mp rest
      obtain ⟨patches,_,rest⟩ := bind_ok_iff.mp rest
      cases rest
      rfl
    · cases rest
      rfl
  rw [last]
  exact room

theorem maxAddr_le {loads : List (Word × List MemOp)} {bound : Nat} (each : ∀ load ∈ loads, load.1.toNat ≤ bound) :
    (maxAddr loads).toNat ≤ bound := by
  have whole (loads : List (Word × List MemOp)) (each : ∀ load ∈ loads, load.1.toNat ≤ bound) (first : Word)
      (start : first.toNat ≤ bound) :
      (loads.foldl (fun (highest : Word) load => if highest < load.1 then load.1 else highest) first).toNat ≤ bound := by
    induction loads generalizing first with
    | nil => exact start
    | cons load rest ih =>
      refine ih (fun other member => each other (List.mem_cons_of_mem load member)) _ ?_
      dsimp only
      by_cases higher : first < load.1
      · rw [if_pos higher]
        exact each load List.mem_cons_self
      · rw [if_neg higher]
        exact start
  exact whole loads each 0 (Nat.zero_le bound)

/-- The last sum of `load_elf` goes through when those of all segments have. -/
private theorem loads_end {data : List Byte} {h : ElfHeader} {n : Nat} {loads : List (Word × List MemOp)}
    (ran : checked.forHeaders data h (checked.loadHeader data) n 0 = .ok loads) :
    (maxAddr loads).toNat + PAGE_SIZE < 2 ^ 64 := by
  have each : ∀ load ∈ loads, load.1.toNat ≤ 2 ^ 64 - PAGE_SIZE - 1 := by
    intro load member
    obtain ⟨phOff,visited⟩ := mem_forHeaders ran member
    obtain ⟨pType,_,visited⟩ := bind_ok_iff.mp visited
    obtain ⟨seg,_,visited⟩ := bind_ok_iff.mp visited
    split at visited
    · cases visited
    · obtain ⟨load',loaded,visited⟩ := bind_ok_iff.mp visited
      cases visited
      have ends := load_ends loaded
      omega
  have highest := maxAddr_le each
  have size : PAGE_SIZE = 4096 := rfl
  omega

theorem finishes_loadElf_iff (task : Sel4Task) (data : List Byte) :
    Finishes (loadElf checked task data) ↔ (rejected data = false → TableFits data (headerOf data) ∧
      ∀ seg, Loadable data (headerOf data) seg → SegmentFits data seg.vaddr seg ∧ PatchesFit data seg) := by
  rw [loadElf]
  cases isRejected : rejected data with
  | true => exact iff_of_true (finishes_ok _) fun accepted => by cases accepted
  | false =>
    rw [if_neg Bool.false_ne_true,readHeader_eq (not_rejected isRejected),imp_iff_right rfl]
    have each (p : Nat) (inFile : p + 56 ≤ data.length) (room : p + 56 < 2 ^ 64) :
        Finishes (checked.loadHeader data (BitVec.ofNat 64 p)) ↔ (wordAt data p 4 = PT_LOAD →
          SegmentFits data (segmentAt data p).vaddr (segmentAt data p) ∧ PatchesFit data (segmentAt data p)) := by
      rw [Arith.loadHeader,checked_type inFile room,checked_segment inFile room,ok_bind,ok_bind,← finishes_loadSegment_iff]
      by_cases isLoad : wordAt data p 4 = PT_LOAD
      · rw [if_neg fun other => other isLoad,imp_iff_right isLoad,finishes_bind_iff]
        exact exists_congr fun load => and_iff_left (finishes_ok _)
      · rw [if_pos isLoad]
        exact iff_of_true (finishes_ok none) fun there => absurd there isLoad
    have loop : Finishes (checked.forHeaders data (headerOf data) _ _ 0) ↔ TableFits data (headerOf data) ∧
        ∀ seg, Loadable data (headerOf data) seg → SegmentFits data seg.vaddr seg ∧ PatchesFit data seg :=
      finishes_headers_iff each
    change Finishes (checked.forHeaders data (headerOf data) _ _ 0 >>= _) ↔ _
    rw [← loop,finishes_bind_iff]
    constructor
    · rintro ⟨loads,ran,_⟩
      exact ⟨loads,ran⟩
    · rintro ⟨loads,ran⟩
      have page : (BitVec.ofNat 64 PAGE_SIZE).toNat = PAGE_SIZE := by decide
      refine ⟨loads,ran,finishes_bind_iff.mpr ⟨_,(checked_add_iff _ _ _).mpr ⟨?_,rfl⟩,finishes_ok _⟩⟩
      rw [page]
      exact loads_end ran

theorem finishes_loadSegments_iff {data : List Byte} (long : 64 ≤ data.length) (relocOffset : Word) :
    Finishes (loadSegments checked data relocOffset) ↔ TableFits data (headerOf data) ∧
      ∀ seg, Loadable data (headerOf data) seg → SegmentFits data (seg.vaddr + relocOffset) seg := by
  rw [loadSegments,readHeader_eq long]
  have each (p : Nat) (inFile : p + 56 ≤ data.length) (room : p + 56 < 2 ^ 64) :
      Finishes (checked.relocateHeader data relocOffset (BitVec.ofNat 64 p)) ↔ (wordAt data p 4 = PT_LOAD →
        SegmentFits data ((segmentAt data p).vaddr + relocOffset) (segmentAt data p)) := by
    rw [Arith.relocateHeader,checked_type inFile room,ok_bind,checked_segment inFile room,← finishes_relocateSegment_iff]
    by_cases isLoad : wordAt data p 4 = PT_LOAD
    · rw [if_neg fun other => other isLoad,imp_iff_right isLoad,ok_bind,finishes_bind_iff]
      exact exists_congr fun ops => and_iff_left (finishes_ok _)
    · rw [if_pos isLoad]
      exact iff_of_true (finishes_ok none) fun there => absurd there isLoad
  have loop : Finishes (checked.forHeaders data (headerOf data) _ _ 0) ↔ TableFits data (headerOf data) ∧
      ∀ seg, Loadable data (headerOf data) seg → SegmentFits data (seg.vaddr + relocOffset) seg :=
    finishes_headers_iff each
  change Finishes (checked.forHeaders data (headerOf data) _ _ 0 >>= _) ↔ _
  rw [← loop,finishes_bind_iff]
  exact exists_congr fun ops => and_iff_left (finishes_ok _)

theorem validateElfHeader_iff (data : List Byte) :
    validateElfHeader data = .ok () ↔ rejected data = false ∧ data.getD 5 0 = 1 := by
  rw [validateElfHeader,rejected,show ELFCLASS64 = 2 from rfl]
  generalize data.getD 4 0 = width
  generalize data.getD 5 0 = order
  by_cases short : data.length < 64
  · simp [short]
  · by_cases magic : data.take 4 = ELF_MAGIC
    · by_cases wide : width = 2#8
      · by_cases little : order = 1#8
        · simp [short,magic,wide,little]
        · simp [short,magic,wide,little]
      · simp [short,magic,wide]
    · simp [short,magic]

/-- What the loaders ask of a byte string with an ELF header. -/
structure Bounded (data : List Byte) (relocOffset : Word) : Prop where
  table : TableFits data (headerOf data)
  segments : ∀ seg, Loadable data (headerOf data) seg → SegmentFits data seg.vaddr seg ∧ PatchesFit data seg
  relocated : data.getD 5 0 = 1 → ∀ seg, Loadable data (headerOf data) seg → SegmentFits data (seg.vaddr + relocOffset) seg

/-- For every byte string, task and relocation: `parse_elf`, `load_elf`, and `load_elf_segments` on what
    `validate_elf_header` accepts, come to a result without an overflow exactly when the string has no ELF header
    or keeps to the bounds. -/
theorem loaders_finish_iff (data : List Byte) (task : Sel4Task) (relocOffset : Word) :
    (Finishes (parseElf checked data) ∧ Finishes (loadElf checked task data) ∧
      (validateElfHeader data = .ok () → Finishes (loadSegments checked data relocOffset))) ↔
        (rejected data = false → Bounded data relocOffset) := by
  rw [finishes_parseElf_iff,finishes_loadElf_iff,validateElfHeader_iff]
  constructor
  · rintro ⟨_,loaded,relocated⟩ accepted
    obtain ⟨table,segments⟩ := loaded accepted
    refine ⟨table,segments,fun little => ?_⟩
    exact ((finishes_loadSegments_iff (not_rejected accepted) relocOffset).mp (relocated ⟨accepted,little⟩)).2
  · intro bounded
    refine ⟨fun accepted => (bounded accepted).table,fun accepted => ⟨(bounded accepted).table,(bounded accepted).segments⟩,?_⟩
    rintro ⟨accepted,little⟩
    exact (finishes_loadSegments_iff (not_rejected accepted) relocOffset).mpr
      ⟨(bounded accepted).table,(bounded accepted).relocated little⟩

/-- An ELF header of 64 bytes whose program headers begin at the last byte of the address space. -/
def wrappedTable : List Byte :=
  [0x7F,0x45,0x4C,0x46,2,1,1,0] ++ List.replicate 24 0 ++ List.replicate 8 0xFF ++ List.replicate 14 0 ++ [56,0,1,0] ++
    List.replicate 6 0

/-- `ph_off + 56` wraps around to a place in the file, and the slice from `ph_off` on panics. -/
theorem loaders_stop : ¬ ∀ (data : List Byte) (task : Sel4Task) (relocOffset : Word),
    Finishes (parseElf release data) ∧ Finishes (loadElf release task data) ∧
      (validateElfHeader data = .ok () → Finishes (loadSegments release data relocOffset)) := by
  intro all
  obtain ⟨elf,parsed⟩ := (all wrappedTable (Sel4Task.new 1 1) 0).1
  have stopped : (parseElf release wrappedTable).toOption = none := by decide +kernel
  rw [parsed] at stopped
  cases stopped

end Sel4Linux.ElfBounds
