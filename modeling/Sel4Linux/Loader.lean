import Sel4Linux.Execve
import Mathlib.Data.List.Forall2

/-!
The ELF loaders of the Linux layer (`parse_elf` in `lcl/src/task/loader.rs`,
`load_elf` in `lcl/src/task/mod.rs`, and `load_elf_segments` of execve once more).
They go over the program headers in the same way and differ in what they do with
each. Every sum and product is one of the build (`Arith`): a release build wraps
around, a build with overflow checks stops. What the checked build finishes with
is what the release build finishes with.
-/
namespace Sel4Linux.Loader
open Sel4Linux.Bytes Sel4Linux.Ipc Sel4Linux.TaskMem Sel4Linux.MemImage Sel4Linux.Task Sel4Linux.Execve Sel4Linux.Runs
set_option linter.unusedSimpArgs false

/-! ## The arithmetic of a build -/

/-- `+` and `*` on `usize`, and what a panic is. -/
structure Arith (ε : Type) where
  add : Word → Word → Except ε Word
  mul : Word → Word → Except ε Word
  fault : Fault → ε

def release : Arith Fault := { add := fun a b => .ok (a + b), mul := fun a b => .ok (a * b), fault := id }

/-- Why a build with overflow checks stops. -/
inductive Stop where
  | fault (f : Fault)
  | overflow
  deriving DecidableEq

def checked : Arith Stop :=
  { add := fun a b => if a.toNat + b.toNat < 2 ^ 64 then .ok (a + b) else .error .overflow
    mul := fun a b => if a.toNat * b.toNat < 2 ^ 64 then .ok (a * b) else .error .overflow
    fault := .fault }

variable {ε : Type} (A : Arith ε)

def Arith.lift {α : Type} : Except Fault α → Except ε α
  | .ok a => .ok a
  | .error f => .error (A.fault f)

/-- `u64::from_le_bytes(data[pos + from..pos + from + width].try_into())`; a slice of constant width always converts. -/
def Arith.field (data : List Byte) (pos offset width : Word) : Except ε Word := do
  let start ← A.add pos offset
  let stop ← A.add pos (offset + width)
  let bytes ← A.lift (slice data start stop)
  .ok (packWord bytes 0)

/-- The loop over `n` program headers from the `i`th on, until one does not fit in the file. -/
def Arith.forHeaders {β : Type} (data : List Byte) (h : ElfHeader) (visit : Word → Except ε (Option β)) :
    Nat → Nat → Except ε (List β)
  | 0, _ => .ok []
  | n + 1, i => do
    let skip ← A.mul (BitVec.ofNat 64 i) h.phentsize
    let phOff ← A.add h.phoff skip
    let last ← A.add phOff 56
    if data.length < last.toNat then .ok []
    else do
      let here ← visit phOff
      let rest ← forHeaders data h visit n (i + 1)
      .ok (here.toList ++ rest)

/-- The fields of a program header that all loaders read. -/
structure Segment where
  fileOffset : Word
  vaddr : Word
  filesz : Word
  memsz : Word
  deriving DecidableEq

def Arith.segment (data : List Byte) (phOff : Word) : Except ε Segment := do
  let pOffset ← A.field data phOff 8 8
  let pVaddr ← A.field data phOff 16 8
  let pFilesz ← A.field data phOff 32 8
  let pMemsz ← A.field data phOff 40 8
  .ok { fileOffset := pOffset, vaddr := pVaddr, filesz := pFilesz, memsz := pMemsz }

/-! ## parse_elf -/

structure ElfSegment extends Segment where
  flags : Word
  deriving DecidableEq

structure LoadedElf where
  entry : Word
  segments : List ElfSegment
  deriving DecidableEq

def Arith.parseSegment (data : List Byte) (phOff : Word) : Except ε (Option ElfSegment) := do
  let pType ← A.field data phOff 0 4
  if pType ≠ PT_LOAD then .ok none
  else do
    let seg ← A.segment data phOff
    let pFlags ← A.field data phOff 4 4
    .ok (some { seg with flags := pFlags })

/-- `elf_data.len() < 64 || &elf_data[0..4] != b"\x7fELF" || elf_data[4] != 2`. -/
def rejected (data : List Byte) : Bool := data.length < 64 || data.take 4 ≠ ELF_MAGIC || data.getD 4 0 ≠ 2

def parseElf (data : List Byte) : Except ε (Option LoadedElf) :=
  if rejected data then .ok none
  else do
    let h ← A.lift (readHeader data)
    let segments ← A.forHeaders data h (A.parseSegment data) h.phnum.toNat 0
    .ok (some { entry := h.entry, segments := segments })

/-! ## load_elf -/

/-- `addr += len` for each page of a `write_bytes`. -/
def Arith.advance (addr : Word) (remaining : Nat) : Except ε Word :=
  if remaining = 0 then .ok addr
  else do
    let len := min remaining (PAGE_SIZE - pageOffset addr)
    let next ← A.add addr (BitVec.ofNat 64 len)
    advance next (remaining - len)
termination_by remaining
decreasing_by
  have inside := pageOffset_lt addr
  omega

def Arith.write (addr : Word) (data : List Byte) : Except ε MemOp := do
  let _ ← A.advance addr data.length
  .ok (.write addr data)

/-- The end of a segment, and the maps of its pages. -/
def Arith.mapSegment (vaddr memsz : Word) : Except ε (Word × List MemOp) := do
  let endAddr ← A.add vaddr memsz
  let past ← A.add endAddr (BitVec.ofNat 64 PAGE_SIZE)
  .ok (endAddr,(pageRange (pageVaddr vaddr) (pageVaddr (past - 1))).map MemOp.map)

/-- `elf_data[p_offset..p_offset + p_filesz]`. -/
def Arith.fileData (data : List Byte) (seg : Segment) : Except ε (List Byte) := do
  let stop ← A.add seg.fileOffset seg.filesz
  A.lift (slice data seg.fileOffset stop)

/-- The bytes that a syscall instruction is patched to. -/
def TRAP_BYTES : List Byte := [0xEF,0xBE,0xAD,0xDE]

/-- A syscall instruction in a byte string. -/
def SyscallAt (bytes : List Byte) (j : Nat) : Prop := bytes[j]? = some 0x0F ∧ bytes[j + 1]? = some 0x05

instance (bytes : List Byte) (j : Nat) : Decidable (SyscallAt bytes j) := inferInstanceAs (Decidable (_ ∧ _))

def sites (bytes : List Byte) : List Nat := (List.range (bytes.length - 1)).filter fun j => decide (SyscallAt bytes j)

def Arith.patches (vaddr : Word) : List Nat → Except ε (List MemOp)
  | [] => .ok []
  | j :: rest => do
    let addr ← A.add vaddr (BitVec.ofNat 64 j)
    let patch ← A.write addr TRAP_BYTES
    let later ← patches vaddr rest
    .ok (patch :: later)

/-- The end of a segment, and what `load_elf` does to the task's memory for it. -/
def Arith.loadSegment (data : List Byte) (seg : Segment) : Except ε (Word × List MemOp) := do
  let (endAddr,maps) ← A.mapSegment seg.vaddr seg.memsz
  if 0 < seg.filesz then do
    let bytes ← A.fileData data seg
    let write ← A.write seg.vaddr bytes
    let patches ← A.patches seg.vaddr (sites bytes)
    .ok (endAddr,maps ++ write :: patches)
  else .ok (endAddr,maps)

/-- `load_elf` reads the whole header before it looks at the type. -/
def Arith.loadHeader (data : List Byte) (phOff : Word) : Except ε (Option (Word × List MemOp)) := do
  let pType ← A.field data phOff 0 4
  let seg ← A.segment data phOff
  if pType ≠ PT_LOAD then .ok none
  else do
    let load ← A.loadSegment data seg
    .ok (some load)

/-- `max_addr` at the end of the loop. -/
def maxAddr (loads : List (Word × List MemOp)) : Word :=
  loads.foldl (fun (highest : Word) load => if highest < load.1 then load.1 else highest) 0

def loadElf (task : Sel4Task) (data : List Byte) : Except ε (Option Word × Sel4Task) :=
  if rejected data then .ok (none,task)
  else do
    let h ← A.lift (readHeader data)
    let loads ← A.forHeaders data h (A.loadHeader data) h.phnum.toNat 0
    let past ← A.add (maxAddr loads) (BitVec.ofNat 64 PAGE_SIZE)
    .ok (some h.entry,
      { task with mem := runOps task.mem (loads.flatMap Prod.snd), entry := h.entry, taskVmEnd := pageVaddr (past - 1) })

/-! ## load_elf_segments -/

/-- What `load_elf_segments` does to the task's memory for a segment; the relocation is a `wrapping_add`. -/
def Arith.relocateSegment (data : List Byte) (relocOffset : Word) (seg : Segment) : Except ε (List MemOp) := do
  let (_,maps) ← A.mapSegment (seg.vaddr + relocOffset) seg.memsz
  if 0 < seg.filesz then do
    let bytes ← A.fileData data seg
    let write ← A.write (seg.vaddr + relocOffset) bytes
    .ok (maps ++ [write])
  else .ok maps

def Arith.relocateHeader (data : List Byte) (relocOffset phOff : Word) : Except ε (Option (List MemOp)) := do
  let pType ← A.field data phOff 0 4
  if pType ≠ PT_LOAD then .ok none
  else do
    let seg ← A.segment data phOff
    let ops ← A.relocateSegment data relocOffset seg
    .ok (some ops)

/-- `load_elf_segments` in any build. -/
def loadSegments (data : List Byte) (relocOffset : Word) : Except ε (Word × List MemOp) := do
  let h ← A.lift (readHeader data)
  let ops ← A.forHeaders data h (A.relocateHeader data relocOffset) h.phnum.toNat 0
  .ok (h.entry + relocOffset,ops.flatten)

/-! ## One build and another -/

/-- Sums and products of one build are those of another. -/
structure Arith.Below {ε' : Type} (A : Arith ε) (B : Arith ε') : Prop where
  add : ∀ a b, Carries (A.add a b) (B.add a b)
  mul : ∀ a b, Carries (A.mul a b) (B.mul a b)

theorem checked_add_iff (a b c : Word) : checked.add a b = .ok c ↔ a.toNat + b.toNat < 2 ^ 64 ∧ c = a + b := by
  change (if a.toNat + b.toNat < 2 ^ 64 then Except.ok (a + b) else Except.error Stop.overflow) = _ ↔ _
  by_cases room : a.toNat + b.toNat < 2 ^ 64
  · rw [if_pos room,Except.ok.injEq,eq_comm,and_iff_right room]
  · rw [if_neg room]
    exact iff_of_false (fun same => by cases same) fun both => room both.1

theorem checked_mul_iff (a b c : Word) : checked.mul a b = .ok c ↔ a.toNat * b.toNat < 2 ^ 64 ∧ c = a * b := by
  change (if a.toNat * b.toNat < 2 ^ 64 then Except.ok (a * b) else Except.error Stop.overflow) = _ ↔ _
  by_cases room : a.toNat * b.toNat < 2 ^ 64
  · rw [if_pos room,Except.ok.injEq,eq_comm,and_iff_right room]
  · rw [if_neg room]
    exact iff_of_false (fun same => by cases same) fun both => room both.1

theorem checked_below_release : checked.Below release := by
  constructor
  · intro a b c sum
    rw [((checked_add_iff a b c).mp sum).2]
    rfl
  · intro a b c product
    rw [((checked_mul_iff a b c).mp product).2]
    rfl

theorem Arith.Below.refl : A.Below A := ⟨fun _ _ _ same => same,fun _ _ _ same => same⟩

section
variable {ε' : Type} {A : Arith ε} {B : Arith ε'}

theorem carries_lift {α : Type} (x : Except Fault α) : Carries (A.lift x) (B.lift x) := by
  cases x with
  | ok a => exact carries_ok a
  | error f =>
    intro a isA
    cases isA

variable (below : A.Below B)
include below

theorem carries_field (data : List Byte) (pos offset width : Word) :
    Carries (A.field data pos offset width) (B.field data pos offset width) :=
  carries_bind (below.add pos offset) fun _ => carries_bind (below.add pos (offset + width)) fun _ =>
    carries_bind (carries_lift _) fun bytes => carries_ok (packWord bytes 0)

theorem carries_segment (data : List Byte) (phOff : Word) : Carries (A.segment data phOff) (B.segment data phOff) :=
  carries_bind (carries_field below data phOff 8 8) fun _ => carries_bind (carries_field below data phOff 16 8) fun _ =>
    carries_bind (carries_field below data phOff 32 8) fun _ => carries_bind (carries_field below data phOff 40 8) fun _ =>
      carries_ok _

/-- Where every visit of one build has a related one in the other, so has the loop. -/
theorem forHeaders_simulates {β γ : Type} {data : List Byte} {h : ElfHeader} {visit : Word → Except ε (Option β)}
    {visit' : Word → Except ε' (Option γ)} {R : β → γ → Prop}
    (simulates : ∀ phOff x, visit phOff = .ok x → ∃ y, visit' phOff = .ok y ∧ Option.Rel R x y) {n i : Nat} {bs : List β}
    (ran : A.forHeaders data h visit n i = .ok bs) : ∃ cs, B.forHeaders data h visit' n i = .ok cs ∧ List.Forall₂ R bs cs := by
  induction n generalizing i bs with
  | zero =>
    cases ran
    exact ⟨[],rfl,.nil⟩
  | succ n ih =>
    rw [Arith.forHeaders] at ran ⊢
    obtain ⟨skip,isSkip,ran⟩ := bind_ok_iff.mp ran
    obtain ⟨phOff,isOffset,ran⟩ := bind_ok_iff.mp ran
    obtain ⟨last,isLast,ran⟩ := bind_ok_iff.mp ran
    rw [below.mul _ _ skip isSkip,ok_bind,below.add _ _ phOff isOffset,ok_bind,below.add _ _ last isLast,ok_bind]
    by_cases past : data.length < last.toNat
    · rw [if_pos past] at ran ⊢
      cases ran
      exact ⟨[],rfl,.nil⟩
    · rw [if_neg past] at ran ⊢
      obtain ⟨here,visited,ran⟩ := bind_ok_iff.mp ran
      obtain ⟨rest,later,ran⟩ := bind_ok_iff.mp ran
      cases ran
      obtain ⟨here',visited',related⟩ := simulates phOff here visited
      obtain ⟨rest',later',tail⟩ := ih later
      refine ⟨here'.toList ++ rest',by rw [visited',ok_bind,later',ok_bind],?_⟩
      cases related with
      | none => exact tail
      | some related => exact .cons related tail

theorem carries_forHeaders {β : Type} {data : List Byte} {h : ElfHeader} {visit : Word → Except ε (Option β)}
    {visit' : Word → Except ε' (Option β)} (same : ∀ phOff, Carries (visit phOff) (visit' phOff)) (n i : Nat) :
    Carries (A.forHeaders data h visit n i) (B.forHeaders data h visit' n i) := by
  intro bs ran
  have visits : ∀ phOff x, visit phOff = .ok x → ∃ y, visit' phOff = .ok y ∧ Option.Rel Eq x y := by
    intro phOff x visited
    refine ⟨x,same phOff x visited,?_⟩
    cases x with
    | none => exact .none
    | some b => exact .some rfl
  obtain ⟨cs,ran',equal⟩ := forHeaders_simulates below visits ran
  rw [List.forall₂_eq_eq_eq] at equal
  rw [equal]
  exact ran'

theorem carries_parseElf (data : List Byte) : Carries (parseElf A data) (parseElf B data) := by
  rw [parseElf,parseElf]
  split
  · exact carries_ok none
  · refine carries_bind (carries_lift _) fun h => carries_bind (carries_forHeaders below ?_ _ 0) fun _ => carries_ok _
    intro phOff
    refine carries_bind (carries_field below data phOff 0 4) fun pType => ?_
    split
    · exact carries_ok none
    · exact carries_bind (carries_segment below data phOff) fun _ =>
        carries_bind (carries_field below data phOff 4 4) fun _ => carries_ok _

theorem carries_advance (addr : Word) (remaining : Nat) : Carries (A.advance addr remaining) (B.advance addr remaining) := by
  induction remaining using Nat.strong_induction_on generalizing addr with
  | _ remaining ih =>
    rw [Arith.advance,Arith.advance]
    by_cases none : remaining = 0
    · rw [if_pos none,if_pos none]
      exact carries_ok addr
    · rw [if_neg none,if_neg none]
      have inside := pageOffset_lt addr
      exact carries_bind (below.add addr _) fun next => ih _ (by omega) next

theorem carries_write (addr : Word) (data : List Byte) : Carries (A.write addr data) (B.write addr data) :=
  carries_bind (carries_advance below addr data.length) fun _ => carries_ok _

theorem carries_mapSegment (vaddr memsz : Word) : Carries (A.mapSegment vaddr memsz) (B.mapSegment vaddr memsz) :=
  carries_bind (below.add vaddr memsz) fun endAddr => carries_bind (below.add endAddr _) fun _ => carries_ok _

theorem carries_fileData (data : List Byte) (seg : Segment) : Carries (A.fileData data seg) (B.fileData data seg) :=
  carries_bind (below.add seg.fileOffset seg.filesz) fun _ => carries_lift _

theorem carries_patches (vaddr : Word) (found : List Nat) : Carries (A.patches vaddr found) (B.patches vaddr found) := by
  induction found with
  | nil => exact carries_ok []
  | cons j rest ih =>
    exact carries_bind (below.add vaddr _) fun addr => carries_bind (carries_write below addr TRAP_BYTES) fun _ =>
      carries_bind ih fun _ => carries_ok _

theorem carries_loadElf (task : Sel4Task) (data : List Byte) : Carries (loadElf A task data) (loadElf B task data) := by
  rw [loadElf,loadElf]
  split
  · exact carries_ok _
  · refine carries_bind (carries_lift _) fun h => carries_bind (carries_forHeaders below ?_ _ 0) fun loads =>
      carries_bind (below.add _ _) fun _ => carries_ok _
    intro phOff
    refine carries_bind (carries_field below data phOff 0 4) fun pType =>
      carries_bind (carries_segment below data phOff) fun seg => ?_
    split
    · exact carries_ok none
    · refine carries_bind (carries_bind (carries_mapSegment below _ _) fun mapped => ?_) fun _ => carries_ok _
      obtain ⟨endAddr,maps⟩ := mapped
      dsimp only
      split
      · exact carries_bind (carries_fileData below data seg) fun bytes => carries_bind (carries_write below _ bytes) fun _ =>
          carries_bind (carries_patches below _ _) fun _ => carries_ok _
      · exact carries_ok _

theorem carries_loadSegments (data : List Byte) (relocOffset : Word) :
    Carries (loadSegments A data relocOffset) (loadSegments B data relocOffset) := by
  refine carries_bind (carries_lift _) fun h => carries_bind (carries_forHeaders below ?_ _ 0) fun _ => carries_ok _
  intro phOff
  refine carries_bind (carries_field below data phOff 0 4) fun pType => ?_
  split
  · exact carries_ok none
  · refine carries_bind (carries_segment below data phOff) fun seg =>
      carries_bind (carries_bind (carries_mapSegment below _ _) fun mapped => ?_) fun _ => carries_ok _
    obtain ⟨endAddr,maps⟩ := mapped
    dsimp only
    split
    · exact carries_bind (carries_fileData below data seg) fun bytes =>
        carries_bind (carries_write below _ bytes) fun _ => carries_ok _
    · exact carries_ok _

end

/-- Everything that the loop gives is from a visit. -/
theorem mem_forHeaders {A : Arith ε} {β : Type} {data : List Byte} {h : ElfHeader} {visit : Word → Except ε (Option β)}
    {n i : Nat} {bs : List β} (ran : A.forHeaders data h visit n i = .ok bs) {b : β} (member : b ∈ bs) :
    ∃ phOff, visit phOff = .ok (some b) := by
  have visits : ∀ phOff x, visit phOff = .ok x →
      ∃ y, visit phOff = .ok y ∧ Option.Rel (fun b _ => (∃ phOff, visit phOff = .ok (some b)) ∧ True) x y := by
    intro phOff x visited
    refine ⟨x,visited,?_⟩
    cases x with
    | none => exact .none
    | some b => exact .some ⟨⟨phOff,visited⟩,trivial⟩
  obtain ⟨cs,_,related⟩ := forHeaders_simulates (Arith.Below.refl A) visits ran
  exact ((List.forall₂_and_left bs cs).mp related).1 b member

/-! ## The release build -/

theorem release_lift {α : Type} (x : Except Fault α) : release.lift x = x := by
  cases x with
  | ok a => rfl
  | error f => rfl

theorem release_field (data : List Byte) (pos offset width : Word) :
    release.field data pos offset width = field data (pos + offset) width := by
  rw [field,BitVec.add_assoc]
  change (release.lift (slice data (pos + offset) (pos + (offset + width))) >>= _) = _
  rw [release_lift]

theorem release_write (addr : Word) (data : List Byte) : release.write addr data = .ok (.write addr data) := by
  have advances (addr : Word) (remaining : Nat) : ∃ last, release.advance addr remaining = .ok last := by
    induction remaining using Nat.strong_induction_on generalizing addr with
    | _ remaining ih =>
      rw [Arith.advance]
      by_cases none : remaining = 0
      · rw [if_pos none]
        exact ⟨addr,rfl⟩
      · rw [if_neg none]
        have inside := pageOffset_lt addr
        exact ih _ (by omega) _
  obtain ⟨last,isLast⟩ := advances addr data.length
  rw [Arith.write,isLast]
  rfl

theorem release_mapSegment (vaddr memsz : Word) : release.mapSegment vaddr memsz = .ok (vaddr + memsz,
    (pageRange (pageVaddr vaddr) (pageVaddr (vaddr + memsz + BitVec.ofNat 64 (PAGE_SIZE - 1)))).map MemOp.map) := by
  have past : vaddr + memsz + BitVec.ofNat 64 PAGE_SIZE - 1 = vaddr + memsz + BitVec.ofNat 64 (PAGE_SIZE - 1) := by
    rw [BitVec.sub_eq_add_neg,BitVec.add_assoc]
    rfl
  change Except.ok (vaddr + memsz,(pageRange (pageVaddr vaddr) (pageVaddr (vaddr + memsz + BitVec.ofNat 64 PAGE_SIZE - 1))).map
    MemOp.map) = _
  rw [past]

theorem release_fileData (data : List Byte) (seg : Segment) :
    release.fileData data seg = slice data seg.fileOffset (seg.fileOffset + seg.filesz) := release_lift _

private theorem release_relocateHeader (data : List Byte) (relocOffset phOff : Word) :
    release.relocateHeader data relocOffset phOff = (do
      let pType ← field data phOff 4
      if pType ≠ PT_LOAD then .ok none
      else do
        let ops ← Execve.segmentOps data phOff relocOffset
        .ok (some ops)) := by
  rw [Arith.relocateHeader,release_field,show phOff + 0 = phOff from BitVec.add_zero phOff]
  refine bind_congr fun pType => ?_
  by_cases loadable : pType ≠ PT_LOAD
  · rw [if_pos loadable,if_pos loadable]
  · rw [if_neg loadable,if_neg loadable]
    simp only [Arith.segment,Arith.relocateSegment,Execve.segmentOps,release_field,release_mapSegment,release_fileData,
      release_write,bind_assoc,ok_bind]

/-- The release build of `load_elf_segments` is what execve runs. -/
theorem loadSegments_release (data : List Byte) (relocOffset : Word) :
    loadSegments release data relocOffset = loadElfSegments data relocOffset := by
  have loop (h : ElfHeader) (n i : Nat) :
      (release.forHeaders data h (release.relocateHeader data relocOffset) n i >>= fun ops => .ok ops.flatten) =
        segmentsOps data h relocOffset n i := by
    induction n generalizing i with
    | zero => rfl
    | succ n ih =>
      have offset : h.phoff + BitVec.ofNat 64 i * h.phentsize = h.offset i := rfl
      rw [Arith.forHeaders,segmentsOps]
      change (if data.length < (h.offset i + 56).toNat then Except.ok [] else _) >>= _ = _
      by_cases past : data.length < (h.offset i + 56).toNat
      · rw [if_pos past,if_pos past]
        rfl
      · rw [if_neg past,if_neg past,release_relocateHeader]
        simp only [bind_assoc]
        refine bind_congr fun pType => ?_
        by_cases loadable : pType ≠ PT_LOAD
        · rw [if_pos loadable,if_pos loadable,← ih (i + 1)]
          rfl
        · rw [if_neg loadable,if_neg loadable,← ih (i + 1)]
          simp only [bind_assoc]
          rfl
  rw [loadSegments,loadElfSegments,release_lift]
  refine bind_congr fun h => ?_
  rw [← loop h h.phnum.toNat 0,bind_assoc]
  rfl

/-- What a build with overflow checks finishes with is what the release build finishes with. -/
theorem checked_carries (data : List Byte) (task : Sel4Task) (relocOffset : Word) :
    Carries (parseElf checked data) (parseElf release data) ∧ Carries (loadElf checked task data) (loadElf release task data) ∧
      Carries (loadSegments checked data relocOffset) (loadElfSegments data relocOffset) := by
  refine ⟨carries_parseElf checked_below_release data,carries_loadElf checked_below_release task data,?_⟩
  rw [← loadSegments_release]
  exact carries_loadSegments checked_below_release data relocOffset

theorem exists_loaded (task : Sel4Task) (data : List Byte) (entry : Word)
    (isEntry : (loadElf release task data).toOption.map Prod.fst = some (some entry)) :
    ∃ task', loadElf release task data = .ok (some entry,task') := by
  cases isLoaded : loadElf release task data with
  | error fault =>
    rw [isLoaded] at isEntry
    cases isEntry
  | ok loaded =>
    rw [isLoaded] at isEntry
    obtain ⟨entry',task'⟩ := loaded
    cases isEntry
    exact ⟨task',rfl⟩

end Sel4Linux.Loader
