import Sel4Linux.FileSyscalls
import Sel4Linux.HeapUse

/-!
The heap of the client of the file service: what the client's operations and the
syscalls on files take from it, in order. `FS_CLIENT` and its table are made when
they are first used. What the rest of the program takes from the same heap, the
maps of pages among it, is a parameter (`Elsewhere`).
-/
namespace Sel4Linux.ClientHeap
open Sel4Linux.Bytes Sel4Linux.Utf8 Sel4Linux.Ipc Sel4Linux.TaskMem Sel4Linux.Client Sel4Linux.FileSyscalls Sel4Linux.HeapUse
open Sel4Linux.Runs
set_option linter.unusedSimpArgs false

/-- The heap, with the capacity of `fd_table`. -/
abbrev LclHeap := TableHeap Client.HEAP_SIZE FD_ENTRY_SIZE

/-- What the rest of the program leaves of the heap from one call to the next. -/
abbrev Elsewhere (ι : Type) := ι → Heap Client.HEAP_SIZE → Heap Client.HEAP_SIZE

/-- A program that needs no heap elsewhere. -/
def Elsewhere.none {ι : Type} : Elsewhere ι := fun _ h => h

def LclHeap.elsewhere {ι : Type} (h : LclHeap) (E : Elsewhere ι) (call : ι) : LclHeap := h.beside (E call h.toHeap)

variable {ω : Type}

/-- What an operation takes behind the reply to its message, if it has sent one: a longer table and the path of the new entry,
    or the bytes that the reply carries. -/
def replyUses (s t : Lcl ω) (h : LclHeap) : Op → Except Fault LclHeap
  | .open path _ =>
    if s.sent.length < t.sent.length ∧ t.ib.readMr 0 = RESP_OK then do
      let h ← h.hold (s.client.nextFd.toNat + 1) (s.client.nextFd.toNat + 1)
      h.takes [bytes path.len]
    else .ok h
  | .read .. | .getdents64 .. =>
    if s.sent.length < t.sent.length ∧ t.ib.readMr 0 = RESP_OK ∧ 0 < t.ib.readMr 1 then h.takes [bytes (t.ib.readMr 1).toNat]
    else .ok h
  | _ => .ok h

/-- An operation of `FS_CLIENT`. -/
def opUses (s t : Lcl ω) (op : Op) (h : LclHeap) : Except Fault LclHeap := do
  let h ← h.force id
  replyUses s t h op

/-! ## Syscalls -/

/-- What a syscall on files does with the heap: the blocks that it takes first, and the operation that it has the client perform. -/
structure Use where
  asks : List Ask
  op : Option Op

/-- A descriptor that the syscall answers itself. -/
def Use.none : Use := { asks := [], op := .none }

/-- `read_cstr_from_task`: the bytes one by one, and the string made of them. -/
def pathAsks (task : TaskMemInfo) (pathAddr : Word) : List Ask :=
  growth 0 (cstrBytes task 4097 pathAddr).length ++ lossyAsks (cstrBytes task 4097 pathAddr)

variable (task : TaskMemInfo)

def sysReadUse (fd count : Word) : Use :=
  if fd = 0 ∨ (fd = 1 ∨ fd = 2) ∨ fd = 10 then .none
  else if fd = 11 then { asks := [bytes count.toNat], op := .none }
  else { asks := [bytes count.toNat], op := some (.read fd (List.replicate count.toNat 0)) }

def sysWriteUse (fd bufAddr count : Word) : Use :=
  if fd = 0 ∨ (fd = 1 ∨ fd = 2) ∨ fd = 10 ∨ fd = 11 then .none
  else
    { asks := [bytes count.toNat], op := (task.readBytes bufAddr (List.replicate count.toNat 0)).map (.write fd) }

def sysOpenatUse (pathAddr : Word) (flags : BitVec 32) : Use :=
  let path := readCstrFromTask task pathAddr
  { asks := pathAsks task pathAddr,
    op := if path = DEV_NULL ∨ path = DEV_ZERO ∨ path = DEV_URANDOM then .none else some (.open path flags) }

/-- Descriptors of the console and of the devices have no operation. -/
def fdUse (fd : Word) (op : Op) : Use :=
  if fd.toNat ≤ 2 ∨ 10 ≤ fd.toNat ∧ fd.toNat ≤ 12 then .none else { asks := [], op := some op }

def sysCloseUse (fd : Word) : Use := fdUse fd (.close fd)
def sysLseekUse (fd offset : Word) (whence : BitVec 32) : Use := fdUse fd (.lseek fd offset whence)
def sysFstatUse (fd : Word) : Use := fdUse fd (.fileSize fd)

/-- A syscall that reads a path and hands it on. -/
def pathUse (pathAddr : Word) (op : Str → Op) : Use :=
  { asks := pathAsks task pathAddr, op := some (op (readCstrFromTask task pathAddr)) }

def sysFstatatUse (pathAddr : Word) : Use := pathUse task pathAddr .stat
def sysMkdiratUse (pathAddr : Word) : Use := pathUse task pathAddr .mkdir
def sysUnlinkatUse (pathAddr : Word) : Use := pathUse task pathAddr .unlink
def sysFaccessatUse (pathAddr : Word) (mode : BitVec 32) : Use := pathUse task pathAddr (.access · mode)

def sysGetdents64Use (fd count : Word) : Use :=
  { asks := [bytes count.toNat], op := some (.getdents64 fd (List.replicate count.toNat 0)) }

def callUse (e : Event) : Use :=
  match e.call with
  | .openat _ pathAddr flags _ => sysOpenatUse e.task pathAddr flags
  | .read fd _ count => sysReadUse fd count
  | .write fd bufAddr count => sysWriteUse e.task fd bufAddr count
  | .lseek fd offset whence => sysLseekUse fd offset whence
  | .close fd => sysCloseUse fd

variable (K : Kernel ω) (E : Elsewhere (Event × TaskMemInfo))

/-- What comes before the message of the operation. -/
def Use.before (u : Use) (h : LclHeap) : Except Fault LclHeap := do
  let h ← h.takes u.asks
  match u.op with
  | some _ => h.force id
  | .none => .ok h

/-- What comes behind the reply. -/
def Use.behind (u : Use) (s t : Lcl ω) (h : LclHeap) : Except Fault LclHeap :=
  match u.op with
  | some op => replyUses s t h op
  | .none => .ok h

/-- A syscall, with the heap. A read puts its bytes into the maps of the task behind the reply. -/
def heapSyscall : Lcl ω × LclHeap → Event → Except Fault ((SysResult × TaskMemInfo) × (Lcl ω × LclHeap)) :=
  fun (s,h) e => do
    let h ← (callUse e).before h
    let (out,t) ← syscall K s e
    let h ← (callUse e).behind s t h
    .ok (out,(t,h.elsewhere E (e,out.2)))

/-! ## What the heap keeps -/

section
variable {K E} {s t : Lcl ω} {h k : LclHeap} {u : Use} {e : Event} {out : SysResult × TaskMemInfo}

@[simp] theorem elsewhere_capacity {ι : Type} (h : LclHeap) (E : Elsewhere ι) (call : ι) :
    (h.elsewhere E call).capacity = h.capacity := rfl

theorem heapSyscall_ok_iff : heapSyscall K E (s,h) e = .ok (out,(t,k)) ↔ ∃ v w, (callUse e).before h = .ok v ∧
    syscall K s e = .ok (out,t) ∧ (callUse e).behind s t v = .ok w ∧ w.elsewhere E (e,out.2) = k := by
  simp only [heapSyscall,bind_ok_iff,Prod.exists,Except.ok.injEq,Prod.mk.injEq]
  constructor
  · rintro ⟨v,first,_,_,_,ran,w,behind,rfl,rfl,last⟩
    exact ⟨v,w,first,ran,behind,last⟩
  · rintro ⟨v,w,first,ran,behind,last⟩
    exact ⟨v,first,_,_,t,ran,w,behind,rfl,rfl,last⟩

theorem replyUses_capacity {op : Op} (used : replyUses s t h op = .ok k) :
    h.capacity ≤ k.capacity := by
  unfold replyUses at used
  split at used
  · split at used
    · exact (push_capacity used).1
    · cases used
      exact Nat.le_refl _
  · split at used
    · exact Nat.le_of_eq (takes_capacity used).symm
    · cases used
      exact Nat.le_refl _
  · split at used
    · exact Nat.le_of_eq (takes_capacity used).symm
    · cases used
      exact Nat.le_refl _
  · cases used
    exact Nat.le_refl _

theorem before_capacity (used : u.before h = .ok k) : h.capacity ≤ k.capacity := by
  obtain ⟨v,taken,rest⟩ := bind_ok_iff.mp used
  rw [← takes_capacity taken]
  split at rest
  · exact (force_capacity rest).1
  · cases rest
    exact Nat.le_refl _

/-- A syscall that calls `FS_CLIENT` has it made. -/
theorem before_made {op : Op} (calls : u.op = some op) (used : u.before h = .ok k) : k.capacity ≠ 0 := by
  obtain ⟨v,taken,rest⟩ := bind_ok_iff.mp used
  rw [calls] at rest
  exact (force_capacity rest).2

/-- Where it is there, only the blocks of the syscall itself are taken. -/
theorem before_iff (made : h.capacity ≠ 0) : u.before h = .ok k ↔ h.takes u.asks = .ok k := by
  unfold Use.before
  rw [bind_ok_iff]
  constructor
  · rintro ⟨v,taken,rest⟩
    rw [force_made (by rwa [takes_capacity taken])] at rest
    split at rest
    · cases rest
      exact taken
    · cases rest
      exact taken
  · intro taken
    refine ⟨k,taken,?_⟩
    rw [force_made (by rwa [takes_capacity taken])]
    split
    · rfl
    · rfl

theorem behind_capacity (used : u.behind s t h = .ok k) : h.capacity ≤ k.capacity := by
  unfold Use.behind at used
  split at used
  · exact replyUses_capacity used
  · cases used
    exact Nat.le_refl _

theorem heapSyscall_capacity (ran : heapSyscall K E (s,h) e = .ok (out,(t,k))) : h.capacity ≤ k.capacity := by
  obtain ⟨v,w,first,_,behind,last⟩ := heapSyscall_ok_iff.mp ran
  rw [← last,elsewhere_capacity]
  exact Nat.le_trans (before_capacity first) (behind_capacity behind)

theorem blames_before (u : Use) (h : LclHeap) : Blames (u.before h) Full := by
  refine blames_bind (blames_takes h _) fun v _ => ?_
  split
  · exact blames_force _ _
  · exact blames_ok

theorem blames_behind (u : Use) (s t : Lcl ω) (h : LclHeap) : Blames (u.behind s t h) Full := by
  unfold Use.behind
  split
  · unfold replyUses
    split
    · split
      · exact blames_bind (blames_hold _ _ _) fun v _ => blames_takes _ _
      · exact blames_ok
    · split
      · exact blames_takes _ _
      · exact blames_ok
    · split
      · exact blames_takes _ _
      · exact blames_ok
    · exact blames_ok
  · exact blames_ok

end

end Sel4Linux.ClientHeap
