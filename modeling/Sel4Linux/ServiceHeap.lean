import Sel4Linux.HeapUse
import Sel4Linux.Metered
import Sel4Linux.ServiceLoop

/-!
The heap of the file service (`ext4-srv/src/main.rs`, 1 MiB): which blocks a round
of the service loop takes from it, in order (`roundUses`). `handle_read` and the
other handlers say what is computed once the blocks are there; here the offset
goes on from round to round (`heapRound`). The ext4 library lives on the same
heap. What it takes for itself is a parameter (`Drain`).
-/
namespace Sel4Linux.ServiceHeap
open Sel4Linux.Bytes Sel4Linux.Utf8 Sel4Linux.Ipc Sel4Linux.Ext4 Sel4Linux.Service Sel4Linux.ServiceLoop Sel4Linux.HeapUse
open Sel4Linux.Metered Sel4Linux.Runs
set_option linter.unusedSimpArgs false

/-- The heap, with the capacity of `fd_table`. -/
abbrev FsHeap := TableHeap HEAP_SIZE FILE_ENTRY_SIZE

/-- What the ext4 library takes from the heap: while `FsService::new` makes the file system, and while a handler runs. -/
structure Drain (σ φ : Type) where
  making : Heap HEAP_SIZE → Heap HEAP_SIZE
  handling : EXT4FSImpl σ φ → Invocation → Heap HEAP_SIZE → Heap HEAP_SIZE
  /-- Nothing is ever given back. -/
  handling_left : ∀ fs inv h, (handling fs inv h).left ≤ h.left

/-- A library that needs no heap. -/
def Drain.none {σ φ : Type} : Drain σ φ :=
  { making := id, handling := fun _ _ => id, handling_left := fun _ _ _ => Nat.le_refl _ }

/-- Where a request carries a string of bytes: the first register and the length word. -/
def carried (ib : IpcBuffer) : Option (Nat × Word) :=
  if ib.readMr 0 = 3 then some (DATA_MR_START,ib.readMr 3)
  else if ib.readMr 0 ∈ ([1,5,7,8,9] : List Word) then some (PATH_MR_START,ib.readMr 2)
  else none

/-- `decode_path_from_mrs`: the bytes, then the string made of them. -/
def decodeAsks (ib : IpcBuffer) (startMr : Nat) (pathLen : Word) : List Ask :=
  bytes pathLen.toNat :: lossyAsks (unpackMrs ib startMr pathLen.toNat)

def requestAsks (ib : IpcBuffer) : List Ask :=
  match carried ib with
  | some (start,len) => decodeAsks ib start len
  | none => []

variable {σ φ : Type} (X : Externs σ φ) (D : Drain σ φ) (s : FsService σ φ)

/-- The buffer of a read or a listing: `vec![0u8; count]`. -/
def bufferAsks : Invocation → List Ask
  | .request (.Read fd _ count) =>
    if fd = 0 then []
    else if fd = 1 ∨ fd = 2 then []
    else match s.entry fd with
      | some _ => [bytes count.toNat]
      | none => []
  | .request (.Getdents64 fd _ count) =>
    match s.entry fd with
    | some _ => [bytes count.toNat]
    | none => []
  | _ => []

/-- What a handler takes behind its library calls: a longer table and the path of the new entry, or the 20 bytes of `stat`. -/
def entryUses (h : FsHeap) : Invocation → Except Fault FsHeap
  | .openWithPath path flags =>
    if path.isEmpty then .ok h
    else match s.fs.open X path flags with
      | (.ok _,_) => do
        let h ← h.hold (s.nextFd.toNat + 1) (s.nextFd.toNat + 1)
        h.takes [bytes path.len]
      | (.error _,_) => .ok h
  | .statWithPath path =>
    if path.isEmpty then .ok h
    else match s.fs.open X path 0#32 with
      | (.ok _,_) => h.takes [bytes 20]
      | (.error _,_) => .ok h
  | _ => .ok h

/-- A handler's call. -/
def invokeUses (inv : Invocation) (h : FsHeap) : Except Fault FsHeap := do
  let h ← h.takes (bufferAsks s inv)
  entryUses X s (h.beside (D.handling s.fs inv h.toHeap)) inv

/-- A round of the loop. `FS_SERVICE` is made when the first handler is called. -/
def roundUses (ib : IpcBuffer) (h : FsHeap) : Except Fault FsHeap := do
  let h ← h.takes (requestAsks ib)
  match dispatch ib with
  | .ok (some inv) => do
    let h ← h.force D.making
    invokeUses X D s inv h
  | _ => .ok h

/-- A round, with the heap. -/
def heapRound : FsService σ φ × FsHeap → IpcBuffer → Except Fault (Reply × (FsService σ φ × FsHeap)) :=
  metered (serviceRound X) fun s ib _ _ h => roundUses X D s ib h

/-- A handler's run, with the heap. -/
def heapInvoke : FsService σ φ × FsHeap → Invocation → Except Fault (FsResponse × (FsService σ φ × FsHeap)) :=
  metered (FsService.invoke X) fun s inv _ _ h => invokeUses X D s inv h

/-! ## What the heap keeps -/

variable {X D} {s} {h k : FsHeap}

/-- A request with a string of bytes is read by decoding them, and its path is what they give. -/
theorem dispatch_carried {ib : IpcBuffer} {start : Nat} {len : Word} (carries : carried ib = some (start,len)) :
    ∃ call : Str → Invocation, dispatch ib = (decodePathFromMrs ib start len >>= fun path => .ok (some (call path))) ∧
      (∀ path path' flags, call path = .openWithPath path' flags → path' = path) ∧
      ∀ path request, call path ≠ .request request := by
  unfold carried at carries
  split at carries
  · next write =>
    cases carries
    exact ⟨fun data => .writeWithData (ib.readMr 1) data.bytes,by simp [dispatch,write],by simp,by simp⟩
  · split at carries
    · next type =>
      cases carries
      simp only [List.mem_cons,List.not_mem_nil,or_false] at type
      rcases type with type | type | type | type | type
      · exact ⟨fun path => .openWithPath path ((ib.readMr 3).setWidth 32),by simp [dispatch,type],
          fun _ _ _ same => by cases same; rfl,by simp⟩
      · exact ⟨.statWithPath,by simp [dispatch,type],by simp,by simp⟩
      · exact ⟨.mkdirWithPath,by simp [dispatch,type],by simp,by simp⟩
      · exact ⟨.unlinkWithPath,by simp [dispatch,type],by simp,by simp⟩
      · exact ⟨.accessWithPath,by simp [dispatch,type],by simp,by simp⟩
    · cases carries

/-- A request without a string takes nothing before its handler. -/
theorem requestAsks_request {ib : IpcBuffer} {request : FsRequest} (read : dispatch ib = .ok (some (.request request))) :
    requestAsks ib = [] := by
  unfold requestAsks
  cases carries : carried ib with
  | none => rfl
  | some place =>
    obtain ⟨call,isRead,_,other⟩ := dispatch_carried carries
    rw [isRead,bind_ok_iff] at read
    obtain ⟨path,_,isCall⟩ := read
    exact absurd (Option.some.inj (Except.ok.inj isCall)) (other path request)

theorem entryUses_capacity {inv : Invocation} (used : entryUses X s h inv = .ok k) : h.capacity ≤ k.capacity := by
  unfold entryUses at used
  split at used
  · split at used
    · cases used
      exact Nat.le_refl _
    · split at used
      · exact (push_capacity used).1
      · cases used
        exact Nat.le_refl _
  · split at used
    · cases used
      exact Nat.le_refl _
    · split at used
      · exact Nat.le_of_eq (takes_capacity used).symm
      · cases used
        exact Nat.le_refl _
  · cases used
    exact Nat.le_refl _

theorem invokeUses_capacity {inv : Invocation} (used : invokeUses X D s inv h = .ok k) : h.capacity ≤ k.capacity := by
  obtain ⟨u,taken,entry⟩ := bind_ok_iff.mp used
  have more := entryUses_capacity entry
  rw [← takes_capacity taken]
  exact more

theorem roundUses_capacity {ib : IpcBuffer} (used : roundUses X D s ib h = .ok k) : h.capacity ≤ k.capacity := by
  obtain ⟨u,taken,rest⟩ := bind_ok_iff.mp used
  rw [← takes_capacity taken]
  split at rest
  · obtain ⟨v,forced,invoked⟩ := bind_ok_iff.mp rest
    exact Nat.le_trans (force_capacity forced).1 (invokeUses_capacity invoked)
  · cases rest
    exact Nat.le_refl _

/-- The first handler that is called has the service made. -/
theorem roundUses_made {ib : IpcBuffer} {inv : Invocation} (read : dispatch ib = .ok (some inv))
    (used : roundUses X D s ib h = .ok k) : k.capacity ≠ 0 := by
  obtain ⟨u,taken,rest⟩ := bind_ok_iff.mp used
  rw [read] at rest
  obtain ⟨v,forced,invoked⟩ := bind_ok_iff.mp rest
  have made := (force_capacity forced).2
  have more := invokeUses_capacity invoked
  omega

end Sel4Linux.ServiceHeap
