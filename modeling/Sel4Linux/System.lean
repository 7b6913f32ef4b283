import Sel4Linux.Descriptors
import Sel4Linux.Replies
import Mathlib.Data.Set.Function

/-!
One client and the file service, with messages and replies delivered as they
are. In every state that a run of client operations reaches the two descriptor
tables have the same live descriptors, and each client entry names the service's
entry of the same number (`Agree`, `descriptors_agree`).
-/
namespace Sel4Linux.System
open Sel4Linux.Bytes Sel4Linux.Utf8 Sel4Linux.Ipc Sel4Linux.Ext4 Sel4Linux.FdTable Sel4Linux.Service Sel4Linux.ServiceLoop
open Sel4Linux.Client Sel4Linux.Requests Sel4Linux.Replies Sel4Linux.Descriptors Sel4Linux.Runs
set_option linter.unusedSimpArgs false

/-- The service with its IPC buffer, as the rest of the client's world. -/
structure Server (σ φ : Type) where
  service : FsService σ φ
  ib : IpcBuffer

variable {σ φ : Type} (X : Externs σ φ)

/-- A call: the message arrives, the service makes one round, its reply arrives in the caller's buffer. -/
def serverKernel : Kernel (Server σ φ) := fun w message => do
  let (reply,service) ← serviceRound X w.service (received message w.ib)
  .ok ({ service := service, ib := reply.2 },delivered reply message.ib)

variable {X}

theorem serverKernel_answers {w w' : Server σ φ} {message : Message} {m : IpcBuffer} {inv : Invocation}
    (read : dispatch (received message w.ib) = .ok (some inv)) (small : inv.count ≤ 944)
    (ran : serverKernel X w message = .ok (w',m)) :
    ∃ resp, w.service.invoke X inv = .ok (resp,w'.service) ∧ m.readMr 0 = statusOf resp ∧ m.readMr 1 = resultOf resp := by
  simp only [serverKernel,bind_ok_iff,Prod.exists,Except.ok.injEq,Prod.mk.injEq] at ran
  obtain ⟨info,ib,service,round,rfl,rfl⟩ := ran
  obtain ⟨resp,ran,isReply⟩ := (serviceRound_iff X read).mp round
  have short := effect_short (invoke_effect ran)
  have least := two_le_writeResponse (received message w.ib) resp
  have most := writeResponse_le (received message w.ib) resp
  have total : (writeResponse (received message w.ib) resp).1 < 128 := by unfold mrsFor at most; omega
  rw [isReply]
  refine ⟨resp,ran,?_,?_⟩
  · rw [readMr_delivered total,if_pos (by omega),writeResponse_mr0]
  · rw [readMr_delivered total,if_pos (by omega),writeResponse_mr1]

/-- The handler calls that an operation on a remote descriptor can lead to: a write's bytes are
    left open. -/
def Calls (remote : Word) (op : Op) (inv : Invocation) : Prop :=
  invocation remote op = some inv ∨ ∃ fd data bytes, op = .write fd data ∧ inv = .writeWithData remote bytes

theorem Calls.count {remote : Word} {op : Op} {inv : Invocation} (calls : Calls remote op inv) : inv.count ≤ 944 := by
  rcases calls with named | ⟨fd,data,bytes,rfl,rfl⟩
  · cases op <;> cases named <;> simp [Invocation.count,MAX_DATA_IPC,Client.DATA_MR_START]
    all_goals omega
  · exact Nat.zero_le _

/-- A received write names its handler and the descriptor, whatever becomes of the bytes. -/
theorem dispatch_write {ib old : IpcBuffer} {remote : Word} {fd : Word} {data : List Byte} {call : Option Invocation}
    (read : dispatch (received (messageOf ib remote (.write fd data)) old) = .ok call) :
    ∃ bytes, call = some (.writeWithData remote bytes) := by
  have length : (payloadOf data).length ≤ 944 := by
    simp only [payloadOf,List.length_take,MAX_DATA_IPC,Client.DATA_MR_START]; omega
  have word : ∀ k < 2, (received (messageOf ib remote (.write fd data)) old).readMr k =
      (header ib REQ_WRITE remote 0 (BitVec.ofNat 64 (payloadOf data).length)).readMr k := by
    intro k low
    have total : writeMrs (payloadOf data) = 2 + mrsFor (payloadOf data).length := rfl
    have few : mrsFor (payloadOf data).length ≤ 118 := mrsFor_le (by omega)
    rw [messageOf,totalMrs,composed,readMr_received (by omega),if_pos (by omega),writeRequest,encodeBytesToMrs,readMr_packMrs,
      if_neg (by unfold Client.DATA_MR_START; omega)]
  have type := word 0 (by omega)
  have arg1 := word 1 (by omega)
  rw [readMr_header] at type arg1
  simp only [if_true,if_false,one_ne_zero] at type arg1
  unfold dispatch at read
  simp only [type,arg1,REQ_WRITE] at read
  simp only [BitVec.reduceEq,if_false,if_true,bind_ok_iff,Except.ok.injEq] at read
  obtain ⟨bytes,_,rfl⟩ := read
  exact ⟨_,rfl⟩

/-- An operation that sends has one handler called, and ends as it does on that handler's reply. -/
theorem perform_calls {s t : Lcl (Server σ φ)} {remote : Word} {op : Op} {out : OpResult} (sends : Sends s remote op)
    (ran : s.perform (serverKernel X) op = .ok (out,t)) :
    ∃ inv resp w m, Calls remote op inv ∧ s.world.service.invoke X inv = .ok (resp,w.service) ∧
      m.readMr 0 = statusOf resp ∧ m.readMr 1 = resultOf resp ∧ s.perform (replying (w,m)) op = .ok (out,t) := by
  rw [perform_sends sends,bind_ok_iff] at ran
  obtain ⟨⟨w,m⟩,answered,done⟩ := ran
  obtain ⟨inv,calls,read⟩ : ∃ inv, Calls remote op inv ∧
      dispatch (received (messageOf s.ib remote op) s.world.ib) = .ok (some inv) := by
    by_cases write : ∃ fd data, op = .write fd data
    · obtain ⟨fd,data,rfl⟩ := write
      simp only [serverKernel,serviceRound,bind_ok_iff] at answered
      obtain ⟨_,⟨call,read,_⟩,_⟩ := answered
      obtain ⟨bytes,rfl⟩ := dispatch_write read
      exact ⟨_,.inr ⟨fd,data,bytes,rfl,rfl⟩,read⟩
    · have decoded := dispatch_messageOf sends (fun fd data isWrite => write ⟨fd,data,isWrite⟩) s.ib s.world.ib
      cases named : invocation remote op with
      | none =>
        cases op with
        | write fd data => exact absurd ⟨fd,data,rfl⟩ write
        | _ => cases named
      | some inv => exact ⟨inv,.inl named,named ▸ decoded⟩
  obtain ⟨resp,invoked,mr0,mr1⟩ := serverKernel_answers read calls.count answered
  exact ⟨inv,resp,w,m,calls,invoked,mr0,mr1,done⟩

/-! ## What the client does with a reply -/

variable {ω : Type}

/-- What an operation has done to the client's table once its reply is in `m`. -/
inductive Finished (s t : Lcl ω) (m : IpcBuffer) : Op → Prop where
  /-- A new entry, on the descriptor that the reply names. -/
  | opened {path : Str} {flags : BitVec 32} {table : List (Option FdEntry)} (ok : m.readMr 0 = Client.RESP_OK)
      (grew : growTable Client.HEAP_SIZE FD_ENTRY_SIZE s.client.fdTable s.client.nextFd.toNat = .ok table)
      (fdTable : t.client.fdTable = table.set s.client.nextFd.toNat (some { remoteFd := m.readMr 1, path := path }))
      (nextFd : t.client.nextFd = s.client.nextFd + 1) : Finished s t m (.open path flags)
  /-- An entry given up. -/
  | closed {fd : Word} (ok : m.readMr 0 = Client.RESP_OK)
      (fdTable : t.client.fdTable = s.client.fdTable.set fd.toNat none) (nextFd : t.client.nextFd = s.client.nextFd) :
      Finished s t m (.close fd)
  /-- The table as it was. -/
  | kept {op : Op} (client : t.client = s.client)
      (answered : (∃ path flags, op = .open path flags) ∨ (∃ fd, op = .close fd) → m.readMr 0 ≠ Client.RESP_OK) :
      Finished s t m op

theorem pathOnly_finished {s t : Lcl ω} {w : ω} {m : IpcBuffer} {req arg3 : Word} {path : Str} {r : SysResult}
    (fits : path.len ≤ MAX_PATH_IPC) (ran : s.pathOnly (replying (w,m)) req path arg3 = .ok (r,t)) :
    t.world = w ∧ t.ib = m ∧ t.sent = s.sent ++ [announce (pathMrs path) (pathRequest s.ib req path arg3)] ∧
      t.client = s.client := by
  rw [Lcl.pathOnly,pathCall_eq _ s fits] at ran
  simp only [replying,ok_bind,answer] at ran
  split at ran
  all_goals
    cases ran
    exact ⟨rfl,rfl,rfl,rfl⟩

theorem fdOnly_finished {s t : Lcl ω} {w : ω} {m : IpcBuffer} {req fd arg2 arg3 : Word} {entry : FdEntry} {r : SysResult}
    (live : s.client.entry fd = some entry) (ran : s.fdOnly (replying (w,m)) req fd arg2 arg3 = .ok (r,t)) :
    t.world = w ∧ t.ib = m ∧ t.sent = s.sent ++ [announce 5 (header s.ib req entry.remoteFd arg2 arg3)] ∧
      t.client = s.client := by
  rw [Lcl.fdOnly,fdCall_eq _ s live] at ran
  simp only [replying,ok_bind,answer] at ran
  split at ran
  all_goals
    cases ran
    exact ⟨rfl,rfl,rfl,rfl⟩

/-- After the reply: the rest of the world is as the reply left it, one message has been sent, and the table has changed in
    one of three ways. -/
theorem perform_finished {s t : Lcl ω} {remote : Word} {op : Op} {out : OpResult} {w : ω} {m : IpcBuffer}
    (sends : Sends s remote op) (ran : s.perform (replying (w,m)) op = .ok (out,t)) :
    t.world = w ∧ t.ib = m ∧ t.sent = s.sent ++ [messageOf s.ib remote op] ∧ Finished s t m op := by
  obtain ⟨fits,live⟩ := sends
  cases op with
  | «open» path flags =>
    simp only [Lcl.perform,Lcl.open,pathCall_eq _ s (fits path rfl),replying,ok_bind,answer] at ran
    split at ran
    · next ok =>
      simp only [bind_ok_iff,Except.ok.injEq,Prod.mk.injEq,Prod.exists] at ran
      obtain ⟨_,_,⟨table,grew,_,_,_,rfl⟩,_,rfl⟩ := ran
      exact ⟨rfl,rfl,rfl,.opened ok grew rfl rfl⟩
    · next failed =>
      cases ran
      exact ⟨rfl,rfl,rfl,.kept rfl (fun _ => failed)⟩
  | stat path =>
    simp only [Lcl.perform,Lcl.stat,pathCall_eq _ s (fits path rfl),replying,ok_bind,answer] at ran
    split at ran
    all_goals
      cases ran
      exact ⟨rfl,rfl,rfl,.kept rfl (by simp)⟩
  | mkdir path =>
    simp only [Lcl.perform,bind_ok_iff,Prod.exists,Except.ok.injEq,Prod.mk.injEq] at ran
    obtain ⟨r,_,done,_,rfl⟩ := ran
    obtain ⟨world,ib,sent,client⟩ := pathOnly_finished (fits path rfl) done
    exact ⟨world,ib,sent,.kept client (by simp)⟩
  | unlink path =>
    simp only [Lcl.perform,bind_ok_iff,Prod.exists,Except.ok.injEq,Prod.mk.injEq] at ran
    obtain ⟨r,_,done,_,rfl⟩ := ran
    obtain ⟨world,ib,sent,client⟩ := pathOnly_finished (fits path rfl) done
    exact ⟨world,ib,sent,.kept client (by simp)⟩
  | access path mode =>
    simp only [Lcl.perform,bind_ok_iff,Prod.exists,Except.ok.injEq,Prod.mk.injEq] at ran
    obtain ⟨r,_,done,_,rfl⟩ := ran
    obtain ⟨world,ib,sent,client⟩ := pathOnly_finished (fits path rfl) done
    exact ⟨world,ib,sent,.kept client (by simp)⟩
  | read fd buf =>
    obtain ⟨file,entry,isLive,rfl⟩ := live fd rfl
    have notStd := not_std file
    simp only [Lcl.perform,Lcl.read,if_neg notStd.1,if_neg notStd.2,fdCall_eq _ s isLive,replying,ok_bind,answer] at ran
    split at ran
    · simp only [bind_ok_iff,Prod.exists,Except.ok.injEq,Prod.mk.injEq] at ran
      obtain ⟨_,_,_,⟨_,_,_,rfl⟩,_,rfl⟩ := ran
      exact ⟨rfl,rfl,rfl,.kept rfl (by simp)⟩
    · split at ran
      all_goals
        cases ran
        exact ⟨rfl,rfl,rfl,.kept rfl (by simp)⟩
  | getdents64 fd buf =>
    obtain ⟨_,entry,isLive,rfl⟩ := live fd rfl
    simp only [Lcl.perform,Lcl.getdents64,fdCall_eq _ s isLive,replying,ok_bind,answer] at ran
    split at ran
    · simp only [bind_ok_iff,Prod.exists,Except.ok.injEq,Prod.mk.injEq] at ran
      obtain ⟨_,_,_,⟨_,_,_,rfl⟩,_,rfl⟩ := ran
      exact ⟨rfl,rfl,rfl,.kept rfl (by simp)⟩
    · split at ran
      all_goals
        cases ran
        exact ⟨rfl,rfl,rfl,.kept rfl (by simp)⟩
  | write fd data =>
    obtain ⟨file,entry,isLive,rfl⟩ := live fd rfl
    have notStd := not_std file
    simp only [Lcl.perform,Lcl.write,if_neg notStd.1,if_neg notStd.2,isLive,doCall_eq,replying,ok_bind] at ran
    split at ran
    all_goals
      cases ran
      exact ⟨rfl,rfl,rfl,.kept rfl (by simp)⟩
  | close fd =>
    obtain ⟨file,entry,isLive,rfl⟩ := live fd rfl
    simp only [Lcl.perform,Lcl.close,if_neg (show ¬ fd.toNat ≤ 2 by omega),fdCall_eq _ s isLive,replying,ok_bind,answer] at ran
    split at ran
    · next ok =>
      cases ran
      exact ⟨rfl,rfl,rfl,.closed ok rfl rfl⟩
    · next failed =>
      cases ran
      exact ⟨rfl,rfl,rfl,.kept rfl (fun _ => failed)⟩
  | lseek fd offset whence =>
    obtain ⟨_,entry,isLive,rfl⟩ := live fd rfl
    simp only [Lcl.perform,bind_ok_iff,Prod.exists,Except.ok.injEq,Prod.mk.injEq] at ran
    obtain ⟨r,_,done,_,rfl⟩ := ran
    obtain ⟨world,ib,sent,client⟩ := fdOnly_finished isLive done
    exact ⟨world,ib,sent,.kept client (by simp)⟩
  | fileSize fd =>
    obtain ⟨_,entry,isLive,rfl⟩ := live fd rfl
    simp only [Lcl.perform,bind_ok_iff,Prod.exists,Except.ok.injEq,Prod.mk.injEq] at ran
    obtain ⟨r,_,done,_,rfl⟩ := ran
    obtain ⟨world,ib,sent,client⟩ := fdOnly_finished isLive done
    exact ⟨world,ib,sent,.kept client (by simp)⟩

/-- Without an entry for its descriptor an operation fails at once. -/
theorem perform_dead {s : Lcl ω} {op : Op} {fd : Word} (on : op.fd = some fd) (file : 3 ≤ fd.toNat)
    (dead : s.client.entry fd = none) (K : Kernel ω) :
    ∃ out, s.perform K op = .ok (out,s) ∧ out.errno = some (-9#32) := by
  have notStd := not_std file
  cases op with
  | read fd buf =>
    cases on
    refine ⟨.data (.error (-9#32)) buf,?_,rfl⟩
    simp only [Lcl.perform,Lcl.read,if_neg notStd.1,if_neg notStd.2,Lcl.fdCall,dead,ok_bind]
  | write fd data =>
    cases on
    refine ⟨.sys (.error (-9#32)),?_,rfl⟩
    simp only [Lcl.perform,Lcl.write,if_neg notStd.1,if_neg notStd.2,dead,ok_bind]
  | close fd =>
    cases on
    refine ⟨.sys (.error (-9#32)),?_,rfl⟩
    simp only [Lcl.perform,Lcl.close,if_neg (show ¬ fd.toNat ≤ 2 by omega),Lcl.fdCall,dead,ok_bind]
  | getdents64 fd buf =>
    cases on
    refine ⟨.data (.error (-9#32)) buf,?_,rfl⟩
    simp only [Lcl.perform,Lcl.getdents64,Lcl.fdCall,dead,ok_bind]
  | lseek fd offset whence =>
    cases on
    refine ⟨.sys (.error (-9#32)),?_,rfl⟩
    simp only [Lcl.perform,Lcl.lseek,Lcl.fdOnly,Lcl.fdCall,dead,ok_bind]
  | fileSize fd =>
    cases on
    refine ⟨.sys (.error (-9#32)),?_,rfl⟩
    simp only [Lcl.perform,Lcl.fileSize,Lcl.fdOnly,Lcl.fdCall,dead,ok_bind]
  | _ => cases on

/-- Nor does such an operation change anything when its descriptor is a standard one. -/
theorem perform_noEntry {s t : Lcl ω} {op : Op} {fd : Word} {out : OpResult} (on : op.fd = some fd)
    (dead : s.client.entry fd = none) {K : Kernel ω} (ran : s.perform K op = .ok (out,t)) :
    t.client = s.client ∧ t.world = s.world ∧ t.ib = s.ib ∧ t.sent = s.sent := by
  cases op with
  | read fd buf =>
    cases on
    simp only [Lcl.perform,Lcl.read,Lcl.fdCall,dead,ok_bind] at ran
    split_ifs at ran
    all_goals
      cases ran; exact ⟨rfl,rfl,rfl,rfl⟩
  | write fd data =>
    cases on
    simp only [Lcl.perform,Lcl.write,dead] at ran
    split_ifs at ran
    all_goals
      cases ran; exact ⟨rfl,rfl,rfl,rfl⟩
  | close fd =>
    cases on
    simp only [Lcl.perform,Lcl.close,Lcl.fdCall,dead,ok_bind] at ran
    split_ifs at ran
    all_goals
      cases ran; exact ⟨rfl,rfl,rfl,rfl⟩
  | getdents64 fd buf =>
    cases on
    simp only [Lcl.perform,Lcl.getdents64,Lcl.fdCall,dead,ok_bind] at ran
    cases ran; exact ⟨rfl,rfl,rfl,rfl⟩
  | lseek fd offset whence =>
    cases on
    simp only [Lcl.perform,Lcl.lseek,Lcl.fdOnly,Lcl.fdCall,dead,ok_bind] at ran
    cases ran; exact ⟨rfl,rfl,rfl,rfl⟩
  | fileSize fd =>
    cases on
    simp only [Lcl.perform,Lcl.fileSize,Lcl.fdOnly,Lcl.fdCall,dead,ok_bind] at ran
    cases ran; exact ⟨rfl,rfl,rfl,rfl⟩
  | _ => cases on

/-- An operation that does not send leaves the table and the rest of the world alone. -/
theorem perform_silent {s t : Lcl ω} {op : Op} {out : OpResult} (standard : ∀ fd : Word, fd.toNat ≤ 2 → s.client.entry fd = none)
    (silent : ∀ remote, ¬ Sends s remote op) {K : Kernel ω} (ran : s.perform K op = .ok (out,t)) :
    t.client = s.client ∧ t.world = s.world ∧ t.ib = s.ib ∧ t.sent = s.sent := by
  by_cases on : ∃ path, op.path = some path
  · obtain ⟨path,on⟩ := on
    have long : MAX_PATH_IPC < path.len := by
      by_contra short
      refine silent 0 ⟨fun path' on' => ?_,fun fd onFd => ?_⟩
      · rw [on] at on'; cases on'; omega
      · cases op <;> simp [Op.fd,Op.path] at on onFd
    cases op with
    | «open» path flags =>
      cases on
      simp only [Lcl.perform,Lcl.open,Lcl.pathCall,if_pos long,ok_bind] at ran
      cases ran; exact ⟨rfl,rfl,rfl,rfl⟩
    | stat path =>
      cases on
      simp only [Lcl.perform,Lcl.stat,Lcl.pathCall,if_pos long,ok_bind] at ran
      cases ran; exact ⟨rfl,rfl,rfl,rfl⟩
    | mkdir path =>
      cases on
      simp only [Lcl.perform,Lcl.mkdir,Lcl.pathOnly,Lcl.pathCall,if_pos long,ok_bind] at ran
      cases ran; exact ⟨rfl,rfl,rfl,rfl⟩
    | unlink path =>
      cases on
      simp only [Lcl.perform,Lcl.unlink,Lcl.pathOnly,Lcl.pathCall,if_pos long,ok_bind] at ran
      cases ran; exact ⟨rfl,rfl,rfl,rfl⟩
    | access path mode =>
      cases on
      simp only [Lcl.perform,Lcl.access,Lcl.pathOnly,Lcl.pathCall,if_pos long,ok_bind] at ran
      cases ran; exact ⟨rfl,rfl,rfl,rfl⟩
    | _ => cases on
  · have onFd : ∃ fd, op.fd = some fd := by
      cases op <;> simp [Op.fd,Op.path] at on ⊢
    obtain ⟨fd,onFd⟩ := onFd
    have dead : s.client.entry fd = none := by
      by_cases low : fd.toNat ≤ 2
      · exact standard fd low
      · cases live : s.client.entry fd with
        | none => rfl
        | some entry =>
          refine absurd ⟨fun path isPath => absurd ⟨path,isPath⟩ on,fun fd' onFd' => ?_⟩ (silent entry.remoteFd)
          rw [onFd] at onFd'; cases onFd'
          exact ⟨by omega,entry,live,rfl⟩
    exact perform_noEntry onFd dead ran

/-! ## The client's table -/

/-- The client's entries after an opening. -/
theorem client_opened {s t : Lcl ω} (n : Numbered s.client.fdTable s.client.nextFd) {entry : FdEntry}
    {table : List (Option FdEntry)}
    (grew : growTable Client.HEAP_SIZE FD_ENTRY_SIZE s.client.fdTable s.client.nextFd.toNat = .ok table)
    (fdTable : t.client.fdTable = table.set s.client.nextFd.toNat (some entry)) (nextFd : t.client.nextFd = s.client.nextFd + 1) :
    Numbered t.client.fdTable t.client.nextFd ∧
      ∀ fd, t.client.entry fd = if fd = s.client.nextFd then some entry else s.client.entry fd := by
  obtain ⟨numbered,_,entries⟩ := n.opened (by decide) (by decide) grew entry
  rw [← fdTable,← nextFd] at numbered
  refine ⟨numbered,fun fd => ?_⟩
  rw [FsClient.entry,fdTable,entries]
  rfl

/-- The client's entries after a closing. -/
theorem client_closed {s t : Lcl ω} {fd : Word} {entry : FdEntry} (live : s.client.entry fd = some entry)
    (fdTable : t.client.fdTable = s.client.fdTable.set fd.toNat none) (other : Word) :
    t.client.entry other = if other = fd then none else s.client.entry other := by
  rw [FsClient.entry,fdTable,lookup_set (lookup_inside live)]
  rfl

/-- Every operation of the client keeps the numbering, and every entry but that of a descriptor it closes. -/
theorem perform_numbered {K : Kernel ω} {s t : Lcl ω} (n : Numbered s.client.fdTable s.client.nextFd) {op : Op} {out : OpResult}
    (ran : s.perform K op = .ok (out,t)) :
    Numbered t.client.fdTable t.client.nextFd ∧
      ∀ fd entry, s.client.entry fd = some entry → op ≠ .close fd → t.client.entry fd = some entry := by
  by_cases silent : ∀ remote, ¬ Sends s remote op
  · obtain ⟨client,_⟩ := perform_silent n.standard silent ran
    rw [client]
    exact ⟨n,fun _ _ live _ => live⟩
  · obtain ⟨remote,sends⟩ := not_forall_not.mp silent
    rw [perform_sends sends,bind_ok_iff] at ran
    obtain ⟨⟨w,m⟩,_,done⟩ := ran
    obtain ⟨_,_,_,finished⟩ := perform_finished sends done
    cases finished with
    | opened ok grew fdTable nextFd =>
      obtain ⟨numbered,entries⟩ := client_opened n grew fdTable nextFd
      refine ⟨numbered,fun fd entry live _ => ?_⟩
      have inside := (n.live live).2
      rw [entries,if_neg (by rintro rfl; omega),live]
    | @closed fd ok fdTable nextFd =>
      obtain ⟨_,entry,live,_⟩ := sends.2 fd rfl
      refine ⟨by rw [fdTable,nextFd]; exact n.set live none,fun other entry' live' still => ?_⟩
      rw [client_closed live fdTable,if_neg (by rintro rfl; exact still rfl),live']
    | kept client _ =>
      rw [client]
      exact ⟨n,fun _ _ live _ => live⟩

/-! ## Agreement -/

/-- The two tables: with the same next descriptor, and live at the same descriptors, where the client's
    entry names the service's of the same number. -/
structure Agree (s : Lcl (Server σ φ)) : Prop where
  server : Consistent s.world.service
  client : Numbered s.client.fdTable s.client.nextFd
  nextFd : s.client.nextFd = s.world.service.nextFd
  same : ∀ fd, (s.client.entry fd).map FdEntry.remoteFd = (s.world.service.entry fd).map fun _ => fd

theorem fresh_agree {s : Lcl (Server σ φ)} {disk : σ} (client : s.client = FsClient.new)
    (service : s.world.service = FsService.new disk) : Agree s := by
  refine ⟨service ▸ new_consistent disk,client ▸ nones_numbered,by rw [client,service]; rfl,fun fd => ?_⟩
  have ours : FsClient.new.entry fd = none := lookup_nones fd
  have theirs : (FsService.new disk : FsService σ φ).entry fd = none := lookup_nones fd
  rw [client,service,ours,theirs]
  rfl

variable {s t : Lcl (Server σ φ)}

/-- A live client descriptor names the live descriptor of the same number. -/
theorem Agree.live (a : Agree s) {fd : Word} {entry : FdEntry} (live : s.client.entry fd = some entry) :
    entry.remoteFd = fd ∧ ∃ e, s.world.service.entry fd = some e := by
  have same := a.same fd
  rw [live] at same
  cases served : s.world.service.entry fd with
  | none => rw [served] at same; cases same
  | some e =>
    rw [served] at same
    exact ⟨Option.some.inj same,e,rfl⟩

theorem Agree.dead_iff (a : Agree s) (fd : Word) : s.client.entry fd = none ↔ s.world.service.entry fd = none := by
  have same := a.same fd
  constructor
  · intro dead
    rw [dead] at same
    exact Option.map_eq_none_iff.mp same.symm
  · intro dead
    rw [dead] at same
    exact Option.map_eq_none_iff.mp same

theorem Agree.remote (a : Agree s) {remote : Word} {op : Op} (sends : Sends s remote op) {fd : Word} (on : op.fd = some fd) :
    remote = fd := by
  obtain ⟨_,entry,live,rfl⟩ := sends.2 fd on
  exact (a.live live).1

theorem Calls.open_inv {remote : Word} {op : Op} {path : Str} {flags : BitVec 32}
    (calls : Calls remote op (.openWithPath path flags)) : op = .open path flags := by
  rcases calls with named | ⟨_,_,_,_,wrong⟩
  · cases op <;> cases named; rfl
  · cases wrong

theorem Calls.close_inv {remote fd : Word} {op : Op} (calls : Calls remote op (.request (.Close fd))) :
    (∃ localFd, op = .close localFd) ∧ fd = remote := by
  rcases calls with named | ⟨_,_,_,_,wrong⟩
  · cases op <;> cases named; exact ⟨⟨_,rfl⟩,rfl⟩
  · cases wrong

theorem Calls.of_open {remote : Word} {path : Str} {flags : BitVec 32} {inv : Invocation}
    (calls : Calls remote (.open path flags) inv) : inv = .openWithPath path flags := by
  rcases calls with named | ⟨_,_,_,wrong,_⟩
  · exact (Option.some.inj named).symm
  · cases wrong

theorem Calls.of_close {remote fd : Word} {inv : Invocation} (calls : Calls remote (.close fd) inv) :
    inv = .request (.Close remote) := by
  rcases calls with named | ⟨_,_,_,wrong,_⟩
  · exact (Option.some.inj named).symm
  · cases wrong

/-- Every operation that returns keeps the agreement. -/
theorem perform_agree (a : Agree s) {op : Op} {out : OpResult} (ran : s.perform (serverKernel X) op = .ok (out,t)) : Agree t := by
  have numbered := (perform_numbered a.client ran).1
  by_cases silent : ∀ remote, ¬ Sends s remote op
  · obtain ⟨client,world,_,_⟩ := perform_silent a.client.standard silent ran
    exact ⟨world ▸ a.server,client ▸ a.client,by rw [client,world]; exact a.nextFd,by rw [client,world]; exact a.same⟩
  · obtain ⟨remote,sends⟩ := not_forall_not.mp silent
    obtain ⟨inv,resp,w,m,calls,invoked,mr0,mr1,done⟩ := perform_calls sends ran
    obtain ⟨rfl,_,_,finished⟩ := perform_finished sends done
    have effect := invoke_effect invoked
    have okIff : m.readMr 0 = Client.RESP_OK ↔ resp.isErr = false := mr0 ▸ statusOf_eq_ok_iff resp
    have consistent := effect_consistent a.server effect
    cases finished with
    | @opened path flags table ok grew fdTable nextFd =>
      cases calls.of_open
      cases effect with
      | @opened _ _ entry table' grew' fdTable' nextFd' start free used =>
        obtain ⟨_,_,_,entries⟩ := a.server.entry_opened grew' fdTable' nextFd'
        obtain ⟨_,entries'⟩ := client_opened a.client grew fdTable nextFd
        refine ⟨consistent,numbered,by rw [nextFd,nextFd',a.nextFd],fun fd => ?_⟩
        rw [entries',entries,mr1,a.nextFd]
        by_cases here : fd = s.world.service.nextFd
        · rw [if_pos here,if_pos here,here]; rfl
        · rw [if_neg here,if_neg here]
          exact a.same fd
      | moved _ _ _ _ _ _ still => exact absurd trivial still
      | kept _ _ _ answered =>
        rw [okIff,answered trivial] at ok
        cases ok
    | @closed fd ok fdTable nextFd =>
      obtain rfl : fd = remote := (a.remote sends rfl).symm
      cases calls.of_close
      obtain ⟨file,entry,live,_⟩ := sends.2 fd rfl
      have changes : Changes s.world.service (.request (.Close fd)) := ⟨file,(a.live live).2⟩
      cases effect with
      | closed live' fdTable' nextFd' used =>
        refine ⟨consistent,numbered,by rw [nextFd,nextFd',a.nextFd],fun other => ?_⟩
        rw [client_closed live fdTable,entry_set live' fdTable']
        split
        · rfl
        · exact a.same other
      | moved _ _ _ _ _ _ still => exact absurd changes still
      | kept _ _ _ answered =>
        rw [okIff,answered changes] at ok
        cases ok
    | kept client answered =>
      cases effect with
      | opened =>
        cases calls.open_inv
        exact absurd (okIff.mpr rfl) (answered (.inl ⟨_,_,rfl⟩))
      | closed =>
        obtain ⟨⟨localFd,rfl⟩,_⟩ := calls.close_inv
        exact absurd (okIff.mpr rfl) (answered (.inr ⟨_,rfl⟩))
      | moved _ live fdTable nextFd =>
        refine ⟨consistent,numbered,by rw [client,nextFd,a.nextFd],fun fd => ?_⟩
        rw [client,entry_set live fdTable,a.same]
        split
        · next here => rw [here,live]; rfl
        · rfl
      | kept fdTable nextFd =>
        refine ⟨consistent,numbered,by rw [client,nextFd,a.nextFd],fun fd => ?_⟩
        rw [client,entry_kept fdTable,a.same]

/-- The remote descriptor behind a local one. -/
def remoteOf (c : FsClient) (fd : Word) : Word := ((c.entry fd).map FdEntry.remoteFd).getD 0

theorem run_agree {ops : List Op} {outs : List OpResult} (a : Agree s)
    (ran : run (Lcl.perform (serverKernel X)) s ops = .ok (outs,t)) : Agree t :=
  run_invariant (fun _ _ _ _ a step => perform_agree a step) a ran

/-- After any run of client operations: local to remote is a bijection from the client's live
    descriptors to the service's, and an operation on a descriptor that is not live returns
    `Err(-9)`, whatever a call would do, with nothing sent. -/
theorem descriptors_agree {disk : σ} (client : s.client = FsClient.new) (service : s.world.service = FsService.new disk)
    {ops : List Op} {outs : List OpResult} (ran : run (Lcl.perform (serverKernel X)) s ops = .ok (outs,t)) :
    Set.BijOn (remoteOf t.client) {fd | (t.client.entry fd).isSome} {fd | (t.world.service.entry fd).isSome} ∧
    ∀ op fd, op.fd = some fd → 3 ≤ fd.toNat → t.client.entry fd = none →
      ∀ K : Kernel (Server σ φ), ∃ out, t.perform K op = .ok (out,t) ∧ out.errno = some (-9#32) := by
  have a := run_agree (fresh_agree client service) ran
  have named : ∀ fd, (t.client.entry fd).isSome → remoteOf t.client fd = fd ∧ (t.world.service.entry fd).isSome := by
    intro fd live
    obtain ⟨entry,isEntry⟩ := Option.isSome_iff_exists.mp live
    obtain ⟨remote,e,served⟩ := a.live isEntry
    exact ⟨by simp [remoteOf,isEntry,remote],by simp [served]⟩
  refine ⟨⟨fun fd live => ?_,fun fd live fd' live' same => ?_,fun fd live => ?_⟩,
    fun op fd on file dead K => perform_dead on file dead K⟩
  · rw [(named fd live).1]
    exact (named fd live).2
  · rwa [(named fd live).1,(named fd' live').1] at same
  · have served : (t.client.entry fd).isSome := by
      cases dead : t.client.entry fd with
      | some entry => rfl
      | none =>
        have gone := (a.dead_iff fd).mp dead
        simp [gone] at live
    exact ⟨fd,served,(named fd served).1⟩

/-- A client and a service that have just started, over a disk with one file of five bytes. -/
def started : Lcl (Server (List MemFs.Node) MemFs.Handle) :=
  { client := FsClient.new, ib := IpcBuffer.new, world := { service := served, ib := IpcBuffer.new }, sent := [], console := [] }

/-- Two files opened, one closed, a read of the other. -/
def opensAndCloses : List Op :=
  let a := ascii ['/','a']
  let b := ascii ['/','b']
  [.open a MemFs.O_CREAT,.open b MemFs.O_CREAT,.close 3,.read 4 [0],.read 3 [0]]

theorem descriptors_agree_started : ∃ outs t, run (Lcl.perform (serverKernel MemFs.memFs)) started opensAndCloses = .ok (outs,t) ∧
    Set.BijOn (remoteOf t.client) {fd | (t.client.entry fd).isSome} {fd | (t.world.service.entry fd).isSome} := by
  obtain ⟨outs,t,ran⟩ : ∃ outs t, run (Lcl.perform (serverKernel MemFs.memFs)) started opensAndCloses = .ok (outs,t) :=
    ⟨_,_,rfl⟩
  exact ⟨outs,t,ran,(descriptors_agree rfl rfl ran).1⟩

end Sel4Linux.System
