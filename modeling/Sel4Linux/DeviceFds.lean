import Sel4Linux.ClientHeap
import Sel4Linux.Metered
import Sel4Linux.System

/-!
The client of the file service numbers descriptors from 3 on, and the file
syscalls answer some of these numbers for the devices. A call on the descriptor
of an open file reaches the service exactly when that number is not one of them
and the client's heap has a buffer for what is transferred
(`opened_forwarded_iff`); the eighth file that is opened gets the number of the
null device (`eighth_file_lost`).
-/
namespace Sel4Linux.DeviceFds
open Sel4Linux.Bytes Sel4Linux.Utf8 Sel4Linux.Ipc Sel4Linux.FdTable Sel4Linux.TaskMem Sel4Linux.Client Sel4Linux.Requests
open Sel4Linux.Replies Sel4Linux.Descriptors Sel4Linux.System Sel4Linux.FileSyscalls Sel4Linux.Runs
open Sel4Linux.Metered Sel4Linux.HeapUse Sel4Linux.ClientHeap
set_option linter.unusedSimpArgs false

/-- The numbers that a syscall answers itself. -/
def deviceFds : Call → List Word
  | .openat .. => []
  | .read .. | .write .. => [10,11]
  | .lseek .. | .close _ => [10,11,12]

/-- The heap has the buffer of a transfer, and what is to be written can be read. -/
def Ready (h : LclHeap) (e : Event) : Prop :=
  match e.call with
  | .read _ _ count => count.toNat ≤ h.left
  | .write _ bufAddr count => count.toNat ≤ h.left ∧ e.task.hasPage bufAddr = true
  | _ => True

/-- The client operation that a syscall stands for. -/
def clientOp (e : Event) : Option Op :=
  match e.call with
  | .openat _ pathAddr flags _ => some (.open (readCstrFromTask e.task pathAddr) flags)
  | .read fd _ count => some (.read fd (List.replicate count.toNat 0))
  | .write fd bufAddr count => (e.task.readBytes bufAddr (List.replicate count.toNat 0)).map (.write fd)
  | .lseek fd offset whence => some (.lseek fd offset whence)
  | .close fd => some (.close fd)

variable {ω : Type}

/-- A syscall is forwarded for the file `remote`: the first thing it does, whatever answers, is to send
    the message of the client's operation on that file, and what follows depends on the reply only. -/
def Forwarded (E : Elsewhere (Event × TaskMemInfo)) (p : Lcl ω × LclHeap) (remote : Word) (e : Event) : Prop :=
  ∃ op, clientOp e = some op ∧ ∀ K : Kernel ω,
    heapSyscall K E p e = K p.1.world (messageOf p.1.ib remote op) >>= fun reply => heapSyscall (replying reply) E p e

/-- A kernel that answers no call. -/
def mute : Kernel ω := fun _ _ => .error .noReply

variable {E : Elsewhere (Event × TaskMemInfo)}

/-- A syscall that ends although no call is answered has not been forwarded. -/
theorem not_forwarded {p : Lcl ω × LclHeap} {remote : Word} {e : Event} (ends : heapSyscall mute E p e ≠ .error .noReply) :
    ¬ Forwarded E p remote e := by
  rintro ⟨op,_,sent⟩
  exact ends (sent mute)

section
variable {s : Lcl ω} {h : LclHeap} {e : Event}

/-- With the heap a syscall ends too: too little room is not a missing reply. -/
theorem heapSyscall_ends (ends : syscall mute s e ≠ .error .noReply) : heapSyscall mute E (s,h) e ≠ .error .noReply := by
  have full : Blames (heapSyscall mute E (s,h) e) (· ≠ .noReply) := by
    have other {fault : Fault} (isFull : Full fault) : fault ≠ .noReply := by
      rw [isFull]
      decide
    refine blames_bind (fun fault failed => other (blames_before _ _ fault failed)) fun v _ => ?_
    refine blames_bind (fun fault failed wrong => ends (by rw [failed,wrong])) fun done _ => ?_
    exact blames_bind (fun fault failed => other (blames_behind _ _ _ _ fault failed)) fun k _ => blames_ok
  exact fun failed => full .noReply failed rfl

/-- A syscall that sends its message first does so with the heap too, once it has its blocks. -/
theorem heapSyscall_forwarded {remote : Word} {op : Op} (named : clientOp e = some op) (room : ∃ k, (callUse e).before h = .ok k)
    (sent : ∀ K : Kernel ω, syscall K s e = K s.world (messageOf s.ib remote op) >>= fun reply => syscall (replying reply) s e) :
    Forwarded E (s,h) remote e := by
  obtain ⟨k,before⟩ := room
  refine ⟨op,named,fun K => ?_⟩
  have apart (K : Kernel ω) : heapSyscall K E (s,h) e = syscall K s e >>= fun done =>
      (callUse e).behind s done.2 k >>= fun k => .ok (done.1,(done.2,k.elsewhere E (e,done.1.2))) := by
    rw [heapSyscall,before,ok_bind]
  simp only [apart,sent K,bind_assoc]

/-- A syscall that is forwarded has found its blocks. -/
theorem Forwarded.room {remote : Word} (forwarded : Forwarded E (s,h) remote e) : ∃ k, (callUse e).before h = .ok k := by
  cases before : (callUse e).before h with
  | ok k => exact ⟨k,rfl⟩
  | error fault =>
    have full : fault = .outOfMemory := blames_before _ _ fault before
    refine absurd forwarded (not_forwarded ?_)
    rw [heapSyscall,before,full]
    intro wrong
    cases wrong

/-- And its number is not one that is answered on the spot. -/
theorem Forwarded.waits {remote : Word} (forwarded : Forwarded E (s,h) remote e) : syscall mute s e = .error .noReply := by
  by_contra ends
  exact not_forwarded (heapSyscall_ends ends) forwarded

end

section
variable {s : Lcl ω} {h : LclHeap} {fd : Word} {entry : FdEntry} (live : s.client.entry fd = some entry) (file : 3 ≤ fd.toNat)
  (made : h.capacity ≠ 0) (task : TaskMemInfo)
include live file made

theorem read_forwarded_iff (bufAddr count : Word) : Forwarded E (s,h) entry.remoteFd ⟨task,.read fd bufAddr count⟩ ↔
    (fd ≠ 10 ∧ fd ≠ 11) ∧ count.toNat ≤ h.left := by
  have notStd := not_std file
  have use (apart : fd ≠ 10 ∧ fd ≠ 11) : callUse ⟨task,.read fd bufAddr count⟩ =
      { asks := [bytes count.toNat], op := some (.read fd (List.replicate count.toNat 0)) } := by
    simp only [callUse,sysReadUse,notStd,apart.1,apart.2,or_self,if_false]
  constructor
  · intro forwarded
    have apart : fd ≠ 10 ∧ fd ≠ 11 := by
      have waits := forwarded.waits
      simp only [syscall,sysRead,if_neg notStd.1,if_neg notStd.2,allocate] at waits
      constructor
      · intro null
        rw [if_pos null] at waits
        cases waits
      · intro zero
        rw [if_neg (by rw [zero]; decide),if_pos zero] at waits
        split at waits
        · cases waits
        · cases waits
    obtain ⟨k,before⟩ := forwarded.room
    rw [before_iff made,use apart] at before
    exact ⟨apart,takes_bytes_iff.mp ⟨k,before⟩⟩
  · rintro ⟨apart,room⟩
    obtain ⟨k,taken⟩ := takes_bytes_iff.mpr room
    refine heapSyscall_forwarded rfl ⟨k,(before_iff made).mpr (by rw [use apart]; exact taken)⟩ fun K => ?_
    have fits : count.toNat ≤ Client.HEAP_SIZE := Nat.le_trans room (Nat.sub_le _ _)
    simp only [syscall,sysRead,if_neg notStd.1,if_neg notStd.2,if_neg apart.1,if_neg apart.2,allocate,if_pos fits,ok_bind]
    rw [read_sends K s live file,bind_assoc]

theorem write_forwarded_iff (bufAddr count : Word) : Forwarded E (s,h) entry.remoteFd ⟨task,.write fd bufAddr count⟩ ↔
    (fd ≠ 10 ∧ fd ≠ 11) ∧ count.toNat ≤ h.left ∧ task.hasPage bufAddr = true := by
  have notStd := not_std file
  have use (apart : fd ≠ 10 ∧ fd ≠ 11) : (callUse ⟨task,.write fd bufAddr count⟩).asks = [bytes count.toNat] := by
    simp only [callUse,sysWriteUse,notStd,apart.1,apart.2,or_self,if_false]
  rw [← readBytes_isSome task bufAddr (List.replicate count.toNat 0)]
  constructor
  · intro forwarded
    have waits := forwarded.waits
    simp only [syscall,sysWrite,if_neg notStd.1,if_neg notStd.2,allocate] at waits
    have apart : fd ≠ 10 ∧ fd ≠ 11 := by
      constructor
      · intro null
        rw [if_pos null] at waits
        cases waits
      · intro zero
        rw [if_neg (by rw [zero]; decide),if_pos zero] at waits
        cases waits
    obtain ⟨k,before⟩ := forwarded.room
    rw [before_iff made,use apart] at before
    have room := takes_bytes_iff.mp ⟨k,before⟩
    have fits : count.toNat ≤ Client.HEAP_SIZE := Nat.le_trans room (Nat.sub_le _ _)
    refine ⟨apart,room,?_⟩
    rw [if_neg apart.1,if_neg apart.2,if_pos fits,ok_bind] at waits
    cases data : task.readBytes bufAddr (List.replicate count.toNat 0) with
    | some bytes => rfl
    | none =>
      rw [data] at waits
      cases waits
  · rintro ⟨apart,room,there⟩
    obtain ⟨bytes,data⟩ := Option.isSome_iff_exists.mp there
    obtain ⟨k,taken⟩ := takes_bytes_iff.mpr room
    have fits : count.toNat ≤ Client.HEAP_SIZE := Nat.le_trans room (Nat.sub_le _ _)
    refine heapSyscall_forwarded (congrArg (Option.map (Op.write fd)) data)
      ⟨k,(before_iff made).mpr (by rw [use apart]; exact taken)⟩ fun K => ?_
    simp only [syscall,sysWrite,if_neg notStd.1,if_neg notStd.2,if_neg apart.1,if_neg apart.2,allocate,if_pos fits,ok_bind,data]
    rw [write_sends K s live file,bind_assoc]
    rfl

theorem lseek_forwarded_iff (offset : Word) (whence : BitVec 32) : Forwarded E (s,h) entry.remoteFd ⟨task,.lseek fd offset whence⟩ ↔
    fd ≠ 10 ∧ fd ≠ 11 ∧ fd ≠ 12 := by
  constructor
  · intro forwarded
    by_contra missing
    have device : fd.toNat ≤ 2 ∨ 10 ≤ fd.toNat ∧ fd.toNat ≤ 12 := by bv_omega
    have waits := forwarded.waits
    simp only [syscall,sysLseek,if_pos device] at waits
    cases waits
  · intro apart
    have notDevice : ¬ (fd.toNat ≤ 2 ∨ 10 ≤ fd.toNat ∧ fd.toNat ≤ 12) := by bv_omega
    have use : (callUse ⟨task,.lseek fd offset whence⟩).asks = [] := by
      simp only [callUse,sysLseekUse,fdUse,if_neg notDevice]
    refine heapSyscall_forwarded rfl ⟨h,(before_iff made).mpr (by rw [use]; rfl)⟩ fun K => ?_
    simp only [syscall,sysLseek,if_neg notDevice]
    rw [lseek_sends K s live,bind_assoc]

theorem close_forwarded_iff : Forwarded E (s,h) entry.remoteFd ⟨task,.close fd⟩ ↔ fd ≠ 10 ∧ fd ≠ 11 ∧ fd ≠ 12 := by
  have notStd : ¬ fd.toNat ≤ 2 := by omega
  constructor
  · intro forwarded
    by_contra missing
    have device : 10 ≤ fd.toNat ∧ fd.toNat ≤ 12 := by bv_omega
    have waits := forwarded.waits
    simp only [syscall,sysClose,if_neg notStd,if_pos device] at waits
    cases waits
  · intro apart
    have noDevice : ¬ (10 ≤ fd.toNat ∧ fd.toNat ≤ 12) := by bv_omega
    have use : (callUse ⟨task,.close fd⟩).asks = [] := by
      simp only [callUse,sysCloseUse,fdUse,if_neg (not_or.mpr ⟨notStd,noDevice⟩)]
    refine heapSyscall_forwarded rfl ⟨h,(before_iff made).mpr (by rw [use]; rfl)⟩ fun K => ?_
    simp only [syscall,sysClose,if_neg notStd,if_neg noDevice]
    rw [close_sends K s live file,bind_assoc]

/-- On a live descriptor a syscall is forwarded exactly when it does not take the number for a device and is ready. -/
theorem forwarded_iff {call : Call} (on : call.fd = some fd) :
    Forwarded E (s,h) entry.remoteFd ⟨task,call⟩ ↔ fd ∉ deviceFds call ∧ Ready h ⟨task,call⟩ := by
  cases call with
  | openat => cases on
  | read fd' bufAddr count => cases on; simpa [deviceFds,Ready] using read_forwarded_iff live file made task bufAddr count
  | write fd' bufAddr count => cases on; simpa [deviceFds,Ready] using write_forwarded_iff live file made task bufAddr count
  | lseek fd' offset whence => cases on; simpa [deviceFds,Ready] using lseek_forwarded_iff live file made task offset whence
  | close fd' => cases on; simpa [deviceFds,Ready] using close_forwarded_iff live file made task

end

/-! ## Runs -/

variable {K : Kernel ω} {s t : Lcl ω}

/-- A syscall that ends has left the client alone or had it perform the operation it stands for. -/
def Performs (K : Kernel ω) (s t : Lcl ω) (e : Event) : Prop :=
  t.client = s.client ∨ ∃ op out, clientOp e = some op ∧ s.perform K op = .ok (out,t)

section
variable {mem task : TaskMemInfo} {r : SysResult}

theorem sysRead_performs {fd bufAddr count : Word} (ran : sysRead K s mem fd bufAddr count = .ok ((r,task),t)) :
    Performs K s t ⟨mem,.read fd bufAddr count⟩ := by
  unfold sysRead at ran
  split at ran
  · cases ran; exact .inl rfl
  split at ran
  · cases ran; exact .inl rfl
  split at ran
  · cases ran; exact .inl rfl
  split at ran
  · simp only [bind_ok_iff,Except.ok.injEq,Prod.mk.injEq] at ran
    obtain ⟨_,_,_,rfl⟩ := ran
    exact .inl rfl
  · simp only [bind_ok_iff,Prod.exists] at ran
    obtain ⟨_,_,r,buf,u,done,ran⟩ := ran
    have same : u = t := by
      split at ran
      · split at ran
        · cases ran; rfl
        · cases ran
      · cases ran; rfl
    exact .inr ⟨_,.data r buf,rfl,by rw [Lcl.perform,done,same]; rfl⟩

theorem sysWrite_performs {fd bufAddr count : Word} (ran : sysWrite K s mem fd bufAddr count = .ok ((r,task),t)) :
    Performs K s t ⟨mem,.write fd bufAddr count⟩ := by
  unfold sysWrite at ran
  split at ran
  · cases ran; exact .inl rfl
  split at ran
  · cases ran; exact .inl rfl
  split at ran
  · cases ran; exact .inl rfl
  split at ran
  · cases ran; exact .inl rfl
  · simp only [bind_ok_iff] at ran
    obtain ⟨_,_,ran⟩ := ran
    split at ran
    · cases ran; exact .inl rfl
    · next bytes data =>
      simp only [bind_ok_iff,Prod.exists,Except.ok.injEq,Prod.mk.injEq] at ran
      obtain ⟨r,u,done,_,rfl⟩ := ran
      exact .inr ⟨.write fd bytes,.sys r,congrArg (Option.map (Op.write fd)) data,by rw [Lcl.perform,done]; rfl⟩

theorem sysOpenat_performs {dirfd flags mode : BitVec 32} {pathAddr : Word}
    (ran : sysOpenat K s mem dirfd pathAddr flags mode = .ok ((r,task),t)) :
    Performs K s t ⟨mem,.openat dirfd pathAddr flags mode⟩ := by
  simp only [sysOpenat] at ran
  split at ran
  · cases ran; exact .inl rfl
  split at ran
  · cases ran; exact .inl rfl
  split at ran
  · cases ran; exact .inl rfl
  · simp only [bind_ok_iff,Prod.exists,Except.ok.injEq,Prod.mk.injEq] at ran
    obtain ⟨r,u,done,_,rfl⟩ := ran
    exact .inr ⟨_,.sys r,rfl,by rw [Lcl.perform,done]; rfl⟩

theorem sysLseek_performs {fd offset : Word} {whence : BitVec 32} (ran : sysLseek K s mem fd offset whence = .ok ((r,task),t)) :
    Performs K s t ⟨mem,.lseek fd offset whence⟩ := by
  unfold sysLseek at ran
  split at ran
  · cases ran; exact .inl rfl
  · simp only [bind_ok_iff,Prod.exists,Except.ok.injEq,Prod.mk.injEq] at ran
    obtain ⟨r,u,done,_,rfl⟩ := ran
    exact .inr ⟨_,.sys r,rfl,by rw [Lcl.perform,done]; rfl⟩

theorem sysClose_performs {fd : Word} (ran : sysClose K s mem fd = .ok ((r,task),t)) : Performs K s t ⟨mem,.close fd⟩ := by
  unfold sysClose at ran
  split at ran
  · cases ran; exact .inl rfl
  split at ran
  · cases ran; exact .inl rfl
  · simp only [bind_ok_iff,Prod.exists] at ran
    obtain ⟨r,u,done,ran⟩ := ran
    have same : u = t := by
      split at ran
      all_goals
        cases ran
        rfl
    exact .inr ⟨_,.sys r,rfl,by rw [Lcl.perform,done,same]; rfl⟩

theorem syscall_performs {e : Event} (ran : syscall K s e = .ok ((r,task),t)) : Performs K s t e := by
  obtain ⟨mem,call⟩ := e
  cases call with
  | openat => exact sysOpenat_performs ran
  | read => exact sysRead_performs ran
  | write => exact sysWrite_performs ran
  | lseek => exact sysLseek_performs ran
  | close => exact sysClose_performs ran

end

theorem clientOp_close {e : Event} {fd : Word} (named : clientOp e = some (.close fd)) : e.call = .close fd := by
  obtain ⟨task,call⟩ := e
  cases call with
  | write fd' bufAddr count =>
    obtain ⟨_,_,wrong⟩ := Option.map_eq_some_iff.mp named
    cases wrong
  | close => cases named; rfl
  | _ => cases named

/-- Until its descriptor is closed an entry stays, whatever syscall comes. -/
theorem syscall_numbered (n : Numbered s.client.fdTable s.client.nextFd) {e : Event} {r : SysResult} {task : TaskMemInfo}
    (ran : syscall K s e = .ok ((r,task),t)) :
    Numbered t.client.fdTable t.client.nextFd ∧
      ∀ fd entry, s.client.entry fd = some entry → e.call ≠ .close fd → t.client.entry fd = some entry := by
  rcases syscall_performs ran with client | ⟨op,out,named,performed⟩
  · rw [client]
    exact ⟨n,fun _ _ live _ => live⟩
  · obtain ⟨numbered,stays⟩ := perform_numbered n performed
    refine ⟨numbered,fun fd entry live still => stays fd entry live ?_⟩
    rintro rfl
    exact still (clientOp_close named)

/-- An opening that succeeds returns the next descriptor, with an entry for the descriptor that the reply named. -/
theorem open_entry (n : Numbered s.client.fdTable s.client.nextFd) {path : Str} {flags : BitVec 32} {fd : Word}
    (ran : s.open K path flags = .ok (.ok fd,t)) :
    fd = s.client.nextFd ∧ Numbered t.client.fdTable t.client.nextFd ∧
      t.client.entry fd = some { remoteFd := t.ib.readMr 1, path := path } := by
  have fits : path.len ≤ MAX_PATH_IPC := by
    by_contra long
    simp only [Lcl.open,Lcl.pathCall,if_pos (Nat.lt_of_not_le long),ok_bind] at ran
    cases ran
  rw [Lcl.open,pathCall_eq _ s fits,bind_assoc,bind_ok_iff] at ran
  obtain ⟨⟨w,m⟩,_,ran⟩ := ran
  simp only [answer,ok_bind] at ran
  split at ran
  · simp only [bind_ok_iff,Except.ok.injEq,Prod.mk.injEq] at ran
    obtain ⟨table,grew,_,_,rfl,isT⟩ := ran
    have fdTable : t.client.fdTable = table.set s.client.nextFd.toNat (some { remoteFd := t.ib.readMr 1, path := path }) := by
      rw [← isT]; rfl
    obtain ⟨numbered,entries⟩ := client_opened n grew fdTable (by rw [← isT]; rfl)
    exact ⟨rfl,numbered,(entries s.client.nextFd).trans (if_pos rfl)⟩
  · cases ran

theorem run_numbered {events : List Event} {outs : List (SysResult × TaskMemInfo)} (n : Numbered s.client.fdTable s.client.nextFd)
    {h k : LclHeap} (ran : run (heapSyscall K E) (s,h) events = .ok (outs,(t,k))) : Numbered t.client.fdTable t.client.nextFd := by
  have apart : run (syscall K) s events = .ok (outs,t) := by
    refine beside_ran (fun first => ?_) ran
    obtain ⟨_,_,_,step,_⟩ := heapSyscall_ok_iff.mp first
    exact step
  exact run_invariant (I := fun s => Numbered s.client.fdTable s.client.nextFd) (fun _ _ _ _ n step => (syscall_numbered n step).1) n
    apart

/-- In every run of file syscalls of a new client, whatever the rest of the program takes from its heap: after an
    opening of a file that returns `fd`, and any syscalls other than a close of `fd`, a syscall on `fd` is
    forwarded to the service, for the file that the reply to the opening named, exactly when the next descriptor
    before the opening was not one of the numbers that the syscall takes for devices, and its buffer is ready. -/
theorem opened_forwarded_iff {s₀ s t u : Lcl ω} {h₀ h₁ h₂ h₃ : LclHeap} (fresh : s₀.client = FsClient.new)
    {front middle : List Event} {outs outs' : List (SysResult × TaskMemInfo)}
    (before : run (heapSyscall K E) (s₀,h₀) front = .ok (outs,(s,h₁)))
    {task task' : TaskMemInfo} {dirfd flags mode : BitVec 32} {pathAddr fd : Word}
    (file : readCstrFromTask task pathAddr ∉ [DEV_NULL,DEV_ZERO,DEV_URANDOM])
    (opening : heapSyscall K E (s,h₁) ⟨task,.openat dirfd pathAddr flags mode⟩ = .ok ((.ok fd,task'),(t,h₂)))
    (after : run (heapSyscall K E) (t,h₂) middle = .ok (outs',(u,h₃))) (still : ∀ e ∈ middle, e.call ≠ .close fd) (e : Event)
    (on : e.call.fd = some fd) :
    Forwarded E (u,h₃) (t.ib.readMr 1) e ↔ s.client.nextFd ∉ deviceFds e.call ∧ Ready h₃ e := by
  have n : Numbered s.client.fdTable s.client.nextFd := run_numbered (fresh ▸ nones_numbered) before
  obtain ⟨entry,isEntry⟩ : ∃ entry : FdEntry, entry = { remoteFd := t.ib.readMr 1, path := readCstrFromTask task pathAddr } :=
    ⟨_,rfl⟩
  simp only [List.mem_cons,List.not_mem_nil,or_false,not_or] at file
  obtain ⟨v,w,first,opening,behind,last⟩ := heapSyscall_ok_iff.mp opening
  obtain ⟨isFd,numbered,live⟩ : fd = s.client.nextFd ∧ Numbered t.client.fdTable t.client.nextFd ∧
      t.client.entry fd = some entry := by
    simp only [syscall,sysOpenat,if_neg file.1,if_neg file.2.1,if_neg file.2.2,bind_ok_iff,Prod.exists,Except.ok.injEq,
      Prod.mk.injEq] at opening
    obtain ⟨r,v,opened,⟨isOk,_⟩,rfl⟩ := opening
    cases r with
    | ok fd' =>
      cases isOk
      rw [isEntry]
      exact open_entry n opened
    | error e => cases isOk
  have made : h₂.capacity ≠ 0 := by
    have calls : (callUse ⟨task,.openat dirfd pathAddr flags mode⟩).op = some (.open (readCstrFromTask task pathAddr) flags) := by
      simp only [callUse,sysOpenatUse,file,or_self,if_false]
    have there := before_made calls first
    have more : v.capacity ≤ w.capacity := behind_capacity behind
    rw [← last,elsewhere_capacity]
    omega
  -- The entry stays through the calls in between, none of which closes it.
  obtain ⟨numbered',live',made'⟩ : Numbered u.client.fdTable u.client.nextFd ∧ u.client.entry fd = some entry ∧
    h₃.capacity ≠ 0 := by
    refine run_invariant_on (I := fun v => Numbered v.1.client.fdTable v.1.client.nextFd ∧ v.1.client.entry fd = some entry ∧
      v.2.capacity ≠ 0) (fun v i o w inv other step => ?_) ⟨numbered,live,made⟩ still after
    obtain ⟨_,_,_,step',_⟩ := heapSyscall_ok_iff.mp step
    obtain ⟨next,stays⟩ := syscall_numbered inv.1 step'
    have more := heapSyscall_capacity step
    have there := inv.2.2
    exact ⟨next,stays fd entry inv.2.1 other,by omega⟩
  obtain ⟨mem,call⟩ := e
  have forwarded := forwarded_iff (E := E) live' (numbered'.live live').1 made' mem on
  rwa [isEntry,isFd] at forwarded

/-- A task's memory that holds the path `/a` at 0x1000. -/
def holdsPath : TaskMemInfo := TaskMemInfo.default.writePage 0x1000 0 (ascii ['/','a']).bytes

/-- The opening of that path. -/
def openPath : Event := ⟨holdsPath,.openat (-100) 0x1000 0 0⟩

/-- The second file that is opened has descriptor 4, which is no device's. -/
theorem opened_forwarded_second : ∃ (s t u : Lcl (Server (List MemFs.Node) MemFs.Handle)) (h₁ h₂ h₃ : LclHeap),
    heapSyscall (serverKernel MemFs.memFs) .none (s,h₁) openPath = .ok ((.ok 4,holdsPath),(t,h₂)) ∧
    run (heapSyscall (serverKernel MemFs.memFs) .none) (t,h₂) [⟨holdsPath,.close 3⟩] = .ok ([(.ok 0,holdsPath)],(u,h₃)) ∧
    (Forwarded .none (u,h₃) (t.ib.readMr 1) ⟨holdsPath,.read 4 0x1000 5⟩ ↔ s.client.nextFd ∉ [10,11] ∧ (5#64).toNat ≤ h₃.left) := by
  obtain ⟨s,t,u,h₁,h₂,h₃,before,opening,after⟩ : ∃ s t u h₁ h₂ h₃,
      run (heapSyscall (serverKernel MemFs.memFs) .none) (started,.unused _ _) [openPath] = .ok ([(.ok 3,holdsPath)],(s,h₁)) ∧
      heapSyscall (serverKernel MemFs.memFs) .none (s,h₁) openPath = .ok ((.ok 4,holdsPath),(t,h₂)) ∧
      run (heapSyscall (serverKernel MemFs.memFs) .none) (t,h₂) [⟨holdsPath,.close 3⟩] = .ok ([(.ok 0,holdsPath)],(u,h₃)) :=
    ⟨_,_,_,_,_,_,rfl,rfl,rfl⟩
  refine ⟨s,t,u,h₁,h₂,h₃,opening,after,?_⟩
  exact opened_forwarded_iff rfl before (show readCstrFromTask holdsPath 0x1000 ∉ _ by decide) opening after (by decide)
    ⟨holdsPath,.read 4 0x1000 5⟩ rfl

/-- The eighth file that is opened gets descriptor 10, and a read on it finds no bytes, without a word
    to the service. -/
theorem eighth_file_lost : ∃ outs, ∃ (s t : Lcl (Server (List MemFs.Node) MemFs.Handle)) (h₁ h₂ : LclHeap),
    run (heapSyscall (serverKernel MemFs.memFs) .none) (started,.unused _ _) (List.replicate 7 openPath) = .ok (outs,(s,h₁)) ∧
    readCstrFromTask holdsPath 0x1000 ∉ [DEV_NULL,DEV_ZERO,DEV_URANDOM] ∧
    heapSyscall (serverKernel MemFs.memFs) .none (s,h₁) openPath = .ok ((.ok 10,holdsPath),(t,h₂)) ∧
    heapSyscall (serverKernel MemFs.memFs) .none (t,h₂) ⟨holdsPath,.read 10 0x1000 5⟩ = .ok ((.ok 0,holdsPath),(t,h₂)) ∧
    ¬ Forwarded .none (t,h₂) (t.ib.readMr 1) ⟨holdsPath,.read 10 0x1000 5⟩ :=
  ⟨_,_,_,_,_,rfl,by decide,rfl,rfl,not_forwarded (fun wrong => by cases wrong)⟩

end Sel4Linux.DeviceFds
