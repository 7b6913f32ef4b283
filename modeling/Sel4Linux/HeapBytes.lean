import Sel4Linux.Heap

/-!
What a program reads in its heap (`sys_brk` and `write_bytes`). Beside the task
a history is kept of the bytes last written, and of the addresses that a growing
`sys_brk` has added and nothing has been written to since (`HeapNotes`). A shrinking
`sys_brk` leaves the pages and their contents where they are, so an address that
the heap gains again reads as zero only where nothing else was written before
(`heap_reads_zero`).
-/
namespace Sel4Linux.HeapBytes
open Sel4Linux.Bytes Sel4Linux.Ipc Sel4Linux.TaskMem Sel4Linux.MemImage Sel4Linux.Client Sel4Linux.Task Sel4Linux.PageMaps
open Sel4Linux.Runs Sel4Linux.Heap
set_option linter.unusedSimpArgs false

/-! ## Calls -/

inductive BrkCall where
  | sysBrk (newBrk : Word)
  | writeBytes (addr : Word) (data : List Byte)

/-- The calls of a program; a write beyond its heap is none of them. -/
def brkStep (task : Sel4Task) : BrkCall → Except Unit (Option SysResult × Sel4Task)
  | .sysBrk newBrk => .ok (some (sysBrk task newBrk).1,(sysBrk task newBrk).2)
  | .writeBytes addr data =>
    if DEF_HEAP_ADDR.toNat ≤ addr.toNat ∧ addr.toNat + data.length ≤ task.heap.toNat then .ok (none,task.write addr data)
    else .error ()

/-- The addresses that a new end adds to the heap. -/
def gained (task : Sel4Task) (newBrk : Word) : Set Word :=
  {a | a.toNat ∈ Set.Ico DEF_HEAP_ADDR.toNat newBrk.toNat ∧ a.toNat ∉ heapRange task}

/-- The byte last written at each address, and the addresses that have been added since. -/
structure HeapNotes where
  written : Word → Option Byte
  fresh : Set Word

def HeapNotes.none : HeapNotes := { written := fun _ => Option.none, fresh := ∅ }

/-- The byte that a write puts at an address. -/
def put (addr : Word) (data : List Byte) (a : Word) : Option Byte := data[(a - addr).toNat]?

def note (task : Sel4Task) (call : BrkCall) (_ : Option SysResult) (_ : Sel4Task) (notes : HeapNotes) : HeapNotes :=
  match call with
  | .sysBrk newBrk => { notes with fresh := notes.fresh ∪ gained task newBrk }
  | .writeBytes addr data =>
    { written := fun a => (put addr data a).or (notes.written a), fresh := {a | a ∈ notes.fresh ∧ put addr data a = Option.none} }

/-- A call, with its history. -/
def brkRound : Sel4Task × HeapNotes → BrkCall → Except Unit (Option SysResult × (Sel4Task × HeapNotes)) := recorded brkStep note

/-- Every address that has been added and not written to since reads as zero. -/
def ReadsZero (s : Sel4Task × HeapNotes) : Prop := ∀ a ∈ s.2.fresh, byteOf s.1.mem a = some 0

/-- A growing `sys_brk` can round its argument up, and adds no address at which another byte than zero was written last. -/
def GrowsClean (s : Sel4Task × HeapNotes) : BrkCall → Prop
  | .sysBrk newBrk => s.1.heap < newBrk → newBrk.toNat + (PAGE_SIZE - 1) < 2 ^ 64 ∧
      ∀ a ∈ gained s.1 newBrk, (s.2.written a).getD 0 = 0
  | .writeBytes .. => True

/-! ## Single calls -/

/-- The heap reads as the history says, with zeros for what has not been written. -/
structure Noted (s : Sel4Task × HeapNotes) : Prop where
  reads : ∀ a : Word, DEF_HEAP_ADDR.toNat ≤ a.toNat → (byteOf s.1.mem a).getD 0 = (s.2.written a).getD 0
  zero : ReadsZero s

/-- Page maps leave the bytes that are there, and add zeros. -/
theorem byteOf_mapBlank (task : Sel4Task) (pages : List Word) (a : Word) :
    byteOf (task.mapBlank pages).mem a =
      if pageVaddr a ∈ pages.map pageVaddr then some ((byteOf task.mem a).getD 0) else byteOf task.mem a := by
  have page : (task.mapBlank pages).mem.pageAt (pageVaddr a) = _ := pageAt_mapBlankPages pages (pageVaddr a)
  change ((task.mapBlank pages).mem.pageAt (pageVaddr a)).map _ = _
  rw [page]
  split
  · change Option.map _ (some _) = some (((task.mem.pageAt (pageVaddr a)).map _).getD 0)
    cases task.mem.pageAt (pageVaddr a) with
    | none => rfl
    | some old => rfl
  · rfl

/-- A byte that `sys_brk` does not leave as it is gets a zero where there is none. -/
theorem byteOf_sysBrk (task : Sel4Task) (newBrk a : Word) :
    byteOf (sysBrk task newBrk).2.mem a = byteOf task.mem a ∨
      byteOf (sysBrk task newBrk).2.mem a = some ((byteOf task.mem a).getD 0) := by
  rw [sysBrk]
  split
  · exact .inl rfl
  · dsimp only
    split
    · have byte := byteOf_mapBlank { task with heap := newBrk }
        (pageRange (pageVaddr task.heap) (pageVaddr (newBrk + BitVec.ofNat 64 (PAGE_SIZE - 1)))) a
      split at byte
      · exact .inr byte
      · exact .inl byte
    · exact .inl rfl

/-- Only a growing `sys_brk` adds addresses. -/
theorem grows_of_gained {task : Sel4Task} {newBrk a : Word} (member : a ∈ gained task newBrk) : task.heap < newBrk := by
  obtain ⟨⟨above,below⟩,out⟩ := member
  refine BitVec.lt_def.mpr ?_
  by_contra notLess
  exact out ⟨above,by omega⟩

/-- The pages of the addresses that are added are there afterwards. -/
theorem byteOf_gained {task : Sel4Task} {newBrk a : Word} (room : newBrk.toNat + (PAGE_SIZE - 1) < 2 ^ 64)
    (member : a ∈ gained task newBrk) : byteOf (sysBrk task newBrk).2.mem a = some ((byteOf task.mem a).getD 0) := by
  have grows := grows_of_gained member
  obtain ⟨⟨above,below⟩,out⟩ := member
  have set : newBrk ≠ 0 := by
    rintro rfl
    exact absurd grows BitVec.not_lt_zero
  have past : task.heap.toNat ≤ a.toNat := Nat.le_of_not_lt fun inside => out ⟨above,inside⟩
  rw [sysBrk,if_neg set]
  dsimp only
  rw [if_pos grows]
  exact (byteOf_mapBlank { task with heap := newBrk } _ a).trans (if_pos (pageVaddr_mem_pageRange room past below))

theorem noted_sysBrk {task : Sel4Task} {notes : HeapNotes} (noted : Noted (task,notes)) {newBrk : Word}
    (clean : GrowsClean (task,notes) (.sysBrk newBrk)) :
    Noted ((sysBrk task newBrk).2,{ notes with fresh := notes.fresh ∪ gained task newBrk }) := by
  obtain ⟨reads,zero⟩ := noted
  refine ⟨fun a above => ?_,?_⟩
  · rw [← reads a above]
    rcases byteOf_sysBrk task newBrk a with same | blank
    · exact congrArg (·.getD 0) same
    · exact congrArg (·.getD 0) blank
  · rintro a (old | new)
    · have before : byteOf task.mem a = some 0 := zero a old
      rcases byteOf_sysBrk task newBrk a with same | blank
      · exact same.trans before
      · rw [before] at blank
        exact blank
    · obtain ⟨room,unwritten⟩ := clean (grows_of_gained new)
      have before : (byteOf task.mem a).getD 0 = 0 := (reads a new.1.1).trans (unwritten a new)
      exact (byteOf_gained room new).trans (congrArg some before)

theorem noted_writeBytes {task : Sel4Task} {notes : HeapNotes} (noted : Noted (task,notes)) {addr : Word} {data : List Byte}
    (short : data.length ≤ 2 ^ 64) :
    Noted (task.write addr data,{ written := fun a => (put addr data a).or (notes.written a),
                                  fresh := {a | a ∈ notes.fresh ∧ put addr data a = none} }) := by
  obtain ⟨reads,zero⟩ := noted
  have byte (a : Word) : byteOf (task.write addr data).mem a = (writeEffect addr data a).apply (byteOf task.mem a) :=
    byteOf_writeBytes addr data
  have spec (a : Word) : WriteSpec addr data a (writeEffect addr data a) := writeEffect_spec addr data short
  -- What the write does not set keeps its value, with a zero for a page that it adds.
  have beside (a : Word) (past : put addr data a = none) : writeEffect addr data a = .blank ∨ writeEffect addr data a = .keep :=
    (spec a).outside (List.getElem?_eq_none_iff.mp past)
  refine ⟨fun a above => ?_,?_⟩
  · dsimp only
    rw [byte]
    cases isPut : put addr data a with
    | some value =>
      rw [(spec a).inside value isPut]
      rfl
    | none =>
      rw [Option.none_or,← reads a above]
      rcases beside a isPut with blank | keep
      · rw [blank]
        rfl
      · rw [keep]
        rfl
  · rintro a ⟨old,past⟩
    have before : byteOf task.mem a = some 0 := zero a old
    dsimp only
    rw [byte,before]
    rcases beside a past with blank | keep
    · rw [blank]
      rfl
    · rw [keep]
      rfl

/-! ## Whole runs -/

theorem brk_round {s s' : Sel4Task × HeapNotes} {call : BrkCall} {result : Option SysResult} (noted : Noted s)
    (clean : GrowsClean s call) (step : brkRound s call = .ok (result,s')) : Noted s' := by
  obtain ⟨task,notes⟩ := s
  obtain ⟨task',notes'⟩ := s'
  obtain ⟨called,rfl⟩ := recorded_ok_iff.mp step
  cases call with
  | sysBrk newBrk =>
    cases called
    exact noted_sysBrk noted clean
  | writeBytes addr data =>
    rw [brkStep] at called
    split at called
    · next inside =>
      cases called
      have bound := task.heap.isLt
      exact noted_writeBytes noted (by omega)
    · cases called

/-- For every sequence of `sys_brk` calls, up and down by any amounts, and of writes within the heap, on a task that has
    nothing at and above the beginning of the heap: if every growing call can round its argument up and adds no address
    at which another byte than zero was written last, what a call has added reads as zero until it is written to. -/
theorem heap_reads_zero {task : Sel4Task} (blank : ∀ a : Word, DEF_HEAP_ADDR.toNat ≤ a.toNat → byteOf task.mem a = none)
    (calls : List BrkCall) (clean : Always brkRound (fun s call _ _ => GrowsClean s call) (task,HeapNotes.none) calls) :
    Always brkRound (fun _ _ _ s' => ReadsZero s') (task,HeapNotes.none) calls := by
  have start : Noted (task,HeapNotes.none) := by
    refine ⟨fun a above => ?_,fun a member => by cases member⟩
    dsimp only
    rw [blank a above]
    rfl
  refine always_of_always (I := Noted) (fun s call result s' noted clean step => ?_) start clean
  have next := brk_round noted clean step
  exact ⟨next.zero,next⟩

private theorem new_blank (a : Word) : byteOf (Sel4Task.new 1 1).mem a = none := by
  change (TaskMemInfo.default.pageAt (pageVaddr a)).map _ = none
  rw [pageAt_default]
  rfl

private theorem brkStep_write {task : Sel4Task} {addr : Word} {data : List Byte}
    (inside : DEF_HEAP_ADDR.toNat ≤ addr.toNat ∧ addr.toNat + data.length ≤ task.heap.toNat) :
    brkStep task (.writeBytes addr data) = .ok (none,task.write addr data) := if_pos inside

/-- A page of heap, a byte written at its beginning, and more heap once it has shrunk to that byte. -/
theorem heap_reads_zero_behind : Always brkRound (fun _ _ _ s' => ReadsZero s') (Sel4Task.new 1 1,HeapNotes.none)
    [.sysBrk 0x70001000,.writeBytes 0x70000000 [7],.sysBrk 0x70000001,.sysBrk 0x70002000] := by
  refine heap_reads_zero (fun a _ => new_blank a) _ ?_
  rintro _ ⟨_,_⟩ first
  obtain ⟨called,rfl⟩ := recorded_ok_iff.mp first
  cases called
  refine ⟨fun _ => ⟨by decide,fun a _ => rfl⟩,?_⟩
  rintro _ ⟨_,_⟩ second
  obtain ⟨called,rfl⟩ := recorded_ok_iff.mp second
  rw [brkStep_write (by decide)] at called
  cases called
  refine ⟨trivial,?_⟩
  rintro _ ⟨_,_⟩ third
  obtain ⟨called,rfl⟩ := recorded_ok_iff.mp third
  cases called
  refine ⟨fun grows => absurd grows (by decide),?_⟩
  rintro _ ⟨_,_⟩ fourth
  refine ⟨fun _ => ⟨by decide,?_⟩,trivial⟩
  -- No address that the heap gains is that of the byte.
  rintro a ⟨⟨above,_⟩,out⟩
  have past : 0x70000001 ≤ a.toNat := by
    by_contra low
    exact out ⟨above,Nat.lt_of_not_le low⟩
  have nothing : put 0x70000000 [7] a = none := by
    refine List.getElem?_eq_none ?_
    have distance : (a - 0x70000000).toNat = a.toNat - 0x70000000 := (toNat_distance a 0x70000000).trans (if_pos above)
    rw [distance]
    change 1 ≤ a.toNat - 0x70000000
    omega
  change (((put 0x70000000 [7] a).or none).getD 0) = 0
  rw [nothing]
  rfl

/-- A byte is written, and the heap shrinks to it and grows again: the byte is still there. -/
theorem heap_keeps_old_bytes : ¬ ∀ (task : Sel4Task) (calls : List BrkCall),
    (∀ a : Word, DEF_HEAP_ADDR.toNat ≤ a.toNat → byteOf task.mem a = none) →
      Always brkRound (fun _ _ _ s' => ReadsZero s') (task,HeapNotes.none) calls := by
  intro all
  have always := all (Sel4Task.new 1 1)
    [.sysBrk 0x70001000,.writeBytes 0x70000000 [7],.sysBrk 0x70000000,.sysBrk 0x70001000] fun a _ => new_blank a
  obtain ⟨_,always⟩ := always _ _ (recorded_ok_iff.mpr ⟨rfl,rfl⟩)
  obtain ⟨_,always⟩ := always _ _ (recorded_ok_iff.mpr ⟨brkStep_write (by decide),rfl⟩)
  obtain ⟨_,always⟩ := always _ _ (recorded_ok_iff.mpr ⟨rfl,rfl⟩)
  obtain ⟨zero,_⟩ := always _ _ (recorded_ok_iff.mpr ⟨rfl,rfl⟩)
  have here := zero 0x70000000 (.inr ⟨⟨by decide,by decide⟩,fun inside => absurd inside.2 (by decide)⟩)
  revert here
  decide +kernel

end Sel4Linux.HeapBytes
