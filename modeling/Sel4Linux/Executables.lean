import Sel4Linux.Execve
import Sel4Linux.Reading

/-!
How execve gets at the file of a program, and what it leaves behind when it
fails. `read_elf_file` makes one request for the size and one for the data, so it
returns the whole of a file exactly when one reply has room for it
(`read_whole_iff`), and it keeps its descriptor whenever a request after the
opening fails (`releases_descriptor_iff`). A failed execve leaves the task as it
was: all of its errors come before the old mappings are dropped
(`failed_execve_keeps_task`).
-/
namespace Sel4Linux.Executables
open Sel4Linux.Bytes Sel4Linux.Utf8 Sel4Linux.Ipc Sel4Linux.Ext4 Sel4Linux.FdTable Sel4Linux.Service Sel4Linux.Files
open Sel4Linux.Client Sel4Linux.Requests Sel4Linux.Replies Sel4Linux.System Sel4Linux.Reading Sel4Linux.Execve Sel4Linux.Runs
open Sel4Linux.ServiceLoop (dispatch serviceRound_iff replyWord writeResponse writeResponse_mr0 writeResponse_mr1
  statusOf_eq_ok_iff)
open Sel4Linux.Task (Sel4Task)
set_option linter.unusedSimpArgs false

/-! ## A failed execve -/

/-- Whatever the file service does, the path, the arguments and the file: an execve that returns an error returns the
    task, with its pages, their contents, its heap and its entry, as it was. -/
theorem failed_execve_keeps_task {ω : Type} {K : Kernel ω} {s t : Lcl ω} {task task' : Sel4Task}
    {pathAddr argvAddr envpAddr : Word} {e : Errno}
    (failed : sysExecve K s task pathAddr argvAddr envpAddr = .ok ((.error e,task'),t)) : task' = task := by
  unfold sysExecve at failed
  dsimp only at failed
  split at failed
  · cases failed
    rfl
  · obtain ⟨⟨file,u⟩,_,failed⟩ := bind_ok_iff.mp failed
    dsimp only at failed
    cases file with
    | error e =>
      cases failed
      rfl
    | ok data =>
      dsimp only at failed
      cases valid : validateElfHeader data with
      | error e =>
        rw [valid] at failed
        cases failed
        rfl
      | ok _ =>
        rw [valid] at failed
        obtain ⟨image,_,failed⟩ := bind_ok_iff.mp failed
        cases image with
        | none =>
          cases failed
          rfl
        | some image => cases failed

/-- A file of three bytes is no program. -/
theorem failed_execve_keeps_task_short : ∃ t, sysExecve (serving [1,2,3]) freshLayer remembering 0x1000 0 0 =
    .ok ((.error (-8),remembering),t) := by
  have refused : (sysExecve (serving [1,2,3]) freshLayer remembering 0x1000 0 0).toOption.map (fun a => a.1.1) =
      some (.error (-8)) := by decide +kernel
  cases ran : sysExecve (serving [1,2,3]) freshLayer remembering 0x1000 0 0 with
  | error fault =>
    rw [ran] at refused
    cases refused
  | ok done =>
    obtain ⟨⟨result,task'⟩,t⟩ := done
    rw [ran] at refused
    cases refused
    exact ⟨t,by rw [failed_execve_keeps_task ran]⟩

/-! ## The descriptor of an executable -/

/-- A file service that gives one reply after another. -/
def replies : Kernel (List IpcBuffer) := fun queue _ =>
  match queue with
  | [] => .error .noReply
  | reply :: rest => .ok (rest,reply)

/-- The live descriptors of a client. -/
def Live (c : FsClient) : Set Word := {fd | (c.entry fd).isSome}

section
variable {s t : Lcl (List IpcBuffer)} {reply : IpcBuffer} {rest : List IpcBuffer} {fd : Word} {entry : FdEntry} {r : SysResult}

/-- An opening is refused, by the client or by the service, or makes a descriptor. -/
private theorem open_replied (numbered : Numbered s.client.fdTable s.client.nextFd) (queue : s.world = reply :: rest) {path : Str}
    (ran : s.open replies path 0 = .ok (r,t)) :
    (∃ e, r = .error e ∧ t.client = s.client ∧ (MAX_PATH_IPC < path.len ∨ reply.readMr 0 ≠ RESP_OK)) ∨
      r = .ok s.client.nextFd ∧ t.world = rest ∧ ¬ MAX_PATH_IPC < path.len ∧ reply.readMr 0 = RESP_OK ∧
        ∃ entry, ∀ fd, t.client.entry fd = if fd = s.client.nextFd then some entry else s.client.entry fd := by
  by_cases long : MAX_PATH_IPC < path.len
  · simp only [Lcl.open,Lcl.pathCall,if_pos long,ok_bind] at ran
    cases ran
    exact .inl ⟨_,rfl,rfl,.inl long⟩
  · simp only [Lcl.open,pathCall_eq _ s (Nat.le_of_not_lt long),queue,replies,ok_bind,answer] at ran
    by_cases ok : reply.readMr 0 = RESP_OK
    · rw [if_pos ok] at ran
      obtain ⟨table,grew,ran⟩ := bind_ok_iff.mp ran
      obtain ⟨_,_,ran⟩ := bind_ok_iff.mp ran
      cases ran
      exact .inr ⟨rfl,rfl,long,ok,_,(client_opened numbered grew rfl rfl).2⟩
    · rw [if_neg ok] at ran
      cases ran
      exact .inl ⟨_,rfl,rfl,.inr ok⟩

variable (live : s.client.entry fd = some entry) (queue : s.world = reply :: rest)
include live queue

private theorem fileSize_replied (ran : s.fileSize replies fd = .ok (r,t)) :
    t.client = s.client ∧ t.world = rest ∧ ((∃ size, r = .ok size) ↔ reply.readMr 0 = RESP_OK) := by
  simp only [Lcl.fileSize,Lcl.fdOnly,fdCall_eq _ s live,queue,replies,ok_bind,answer] at ran
  by_cases ok : reply.readMr 0 = RESP_OK
  · rw [if_pos ok] at ran
    cases ran
    exact ⟨rfl,rfl,iff_of_true ⟨_,rfl⟩ ok⟩
  · rw [if_neg ok] at ran
    cases ran
    exact ⟨rfl,rfl,iff_of_false (fun got => by cases got; contradiction) ok⟩

variable (file : 3 ≤ fd.toNat)
include file

private theorem read_replied {buf out : List Byte} (ran : s.read replies fd buf = .ok ((r,out),t)) :
    t.client = s.client ∧ t.world = rest ∧ ((∃ count, r = .ok count) ↔ reply.readMr 0 = RESP_OK) := by
  have notStd := not_std file
  simp only [Lcl.read,if_neg notStd.1,if_neg notStd.2,fdCall_eq _ s live,queue,replies,ok_bind,answer] at ran
  by_cases ok : reply.readMr 0 = RESP_OK
  · by_cases more : 0 < reply.readMr 1
    · rw [if_pos ⟨ok,more⟩] at ran
      obtain ⟨data,_,ran⟩ := bind_ok_iff.mp ran
      cases ran
      exact ⟨rfl,rfl,iff_of_true ⟨_,rfl⟩ ok⟩
    · rw [if_neg (fun both => more both.2),if_pos ok] at ran
      cases ran
      exact ⟨rfl,rfl,iff_of_true ⟨_,rfl⟩ ok⟩
  · rw [if_neg (fun both => ok both.1),if_neg ok] at ran
    cases ran
    exact ⟨rfl,rfl,iff_of_false (fun got => by cases got; contradiction) ok⟩

private theorem close_replied (closes : reply.readMr 0 = RESP_OK) (ran : s.close replies fd = .ok (r,t)) :
    ∀ other, t.client.entry other = if other = fd then none else s.client.entry other := by
  simp only [Lcl.close,if_neg (show ¬ fd.toNat ≤ 2 by omega),fdCall_eq _ s live,queue,replies,ok_bind,answer,if_pos closes] at ran
  cases ran
  exact client_closed live rfl

end

/-- For every client table (`Numbered` is what all operations keep, `perform_numbered`) and every four replies, of which
    the last accepts the closing: `read_elf_file` leaves the live descriptors as they were exactly when the file is not
    opened, or both the size and the data are granted. -/
theorem releases_descriptor_iff {s t : Lcl (List IpcBuffer)} {path : Str} {opened sized data closed : IpcBuffer}
    {result : Except Errno (List Byte)} (numbered : Numbered s.client.fdTable s.client.nextFd)
    (queue : s.world = [opened,sized,data,closed]) (closes : closed.readMr 0 = RESP_OK)
    (returned : readElfFile replies s path = .ok (result,t)) :
    Live t.client = Live s.client ↔
      (MAX_PATH_IPC < path.len ∨ opened.readMr 0 ≠ RESP_OK) ∨ sized.readMr 0 = RESP_OK ∧ data.readMr 0 = RESP_OK := by
  have dead : s.client.entry s.client.nextFd = none := numbered.next_dead
  -- A client that still has the new entry has one live descriptor more.
  have kept {u : Lcl (List IpcBuffer)} {entry : FdEntry} (there : u.client.entry s.client.nextFd = some entry) :
      Live u.client ≠ Live s.client := by
    intro same
    have here : s.client.nextFd ∈ Live s.client := same ▸ (congrArg Option.isSome there : _ = true)
    rw [Live,Set.mem_ofPred_eq,dead] at here
    cases here
  unfold readElfFile at returned
  obtain ⟨⟨fd,s₁⟩,ran₁,returned⟩ := bind_ok_iff.mp returned
  rcases open_replied numbered queue ran₁ with ⟨e,rfl,same,refused⟩ | ⟨rfl,queue₁,short,granted,entry,entries⟩
  · cases returned
    rw [same]
    exact iff_of_true rfl (.inl refused)
  rw [or_iff_right (by rintro (long | refused); exacts [short long,refused granted])]
  have live : s₁.client.entry s.client.nextFd = some entry := (entries _).trans (if_pos rfl)
  obtain ⟨⟨size,s₂⟩,ran₂,returned⟩ := bind_ok_iff.mp returned
  obtain ⟨same₂,queue₂,asked⟩ := fileSize_replied live queue₁ ran₂
  dsimp only at returned
  cases size with
  | error e =>
    cases returned
    refine iff_of_false (kept (same₂ ▸ live)) ?_
    intro both
    obtain ⟨_,wrong⟩ := asked.mpr both.1
    cases wrong
  | ok size =>
    rw [and_iff_right (asked.mp ⟨size,rfl⟩)]
    obtain ⟨_,_,returned⟩ := bind_ok_iff.mp returned
    obtain ⟨⟨⟨got,content⟩,s₃⟩,ran₃,returned⟩ := bind_ok_iff.mp returned
    rw [← same₂] at live
    obtain ⟨same₃,queue₃,read⟩ := read_replied live queue₂ numbered.three ran₃
    dsimp only at returned
    cases got with
    | error e =>
      cases returned
      refine iff_of_false (kept (same₃ ▸ live)) ?_
      intro ok
      obtain ⟨_,wrong⟩ := read.mpr ok
      cases wrong
    | ok bytesRead =>
      obtain ⟨⟨_,s₄⟩,ran₄,returned⟩ := bind_ok_iff.mp returned
      rw [← same₃] at live
      have gone := close_replied live queue₃ numbered.three closes ran₄
      have after : t = s₄ := by
        dsimp only at returned
        split at returned
        · cases returned
          rfl
        · cases returned
          rfl
      refine iff_of_true (Set.ext fun other => ?_) (read.mp ⟨bytesRead,rfl⟩)
      rw [Live,Live,Set.mem_ofPred_eq,Set.mem_ofPred_eq,after,gone,same₃,same₂,entries]
      by_cases here : other = s.client.nextFd
      · rw [if_pos here,here,dead]
      · rw [if_neg here,if_neg here]

/-- A reply with a status and a value. -/
def replyOf (status value : Word) : IpcBuffer := (IpcBuffer.new.writeMr 0 status).writeMr 1 value

/-- A layer that has just started, and a service that is going to give these replies. -/
def expecting (queue : List IpcBuffer) : Lcl (List IpcBuffer) :=
  { client := FsClient.new, ib := IpcBuffer.new, world := queue, sent := [], console := [] }

/-- An empty file, all requests granted. -/
theorem releases_descriptor_iff_empty : ∃ result t,
    readElfFile replies (expecting [replyOf 0 7,replyOf 0 0,replyOf 0 0,replyOf 0 0]) (ascii ['/','a']) = .ok (result,t) ∧
      Live t.client = Live FsClient.new := by
  obtain ⟨result,t,returned⟩ : ∃ result t,
      readElfFile replies (expecting [replyOf 0 7,replyOf 0 0,replyOf 0 0,replyOf 0 0]) (ascii ['/','a']) = .ok (result,t) :=
    ⟨_,_,rfl⟩
  exact ⟨result,t,returned,(releases_descriptor_iff nones_numbered rfl rfl returned).mpr (.inr ⟨rfl,rfl⟩)⟩

/-- The file is opened as remote descriptor 7 and its size is refused: descriptor 3 stays live. -/
theorem descriptor_not_released : ¬ ∀ (s t : Lcl (List IpcBuffer)) (path : Str) (opened sized data closed : IpcBuffer)
    (result : Except Errno (List Byte)), Numbered s.client.fdTable s.client.nextFd → s.world = [opened,sized,data,closed] →
      closed.readMr 0 = RESP_OK → readElfFile replies s path = .ok (result,t) → Live t.client = Live s.client := by
  intro all
  obtain ⟨t,returned,live⟩ : ∃ t, readElfFile replies (expecting [replyOf 0 7,replyOf 1 5,replyOf 0 0,replyOf 0 0])
      (ascii ['/','a']) = .ok (.error 5,t) ∧ (3 : Word) ∈ Live t.client := ⟨_,rfl,rfl⟩
  rw [all _ t _ _ _ _ _ _ nones_numbered rfl rfl returned] at live
  cases live

/-! ## Reading a whole file -/

section
variable {σ φ : Type} {X : Externs σ φ} {V : FileView X}

/-- The library's size of an open file is the number of its bytes, and it can close the file. -/
structure FileLaws (V : FileView X) : Prop where
  size : ∀ disk file c, V.content (X.fileSize disk file).2.1 (X.fileSize disk file).2.2 = some c →
    (X.fileSize disk file).1 = BitVec.ofNat 64 c.length
  close : ∀ disk file c, V.content disk file = some c → ∃ w, (X.fileClose disk file).1 = .ok w

/-- An opening ends with the size of the object that it stores. -/
private theorem open_added {fs fs' : EXT4FSImpl σ φ} {path : Str} {flags : BitVec 32} {opened : Nat × Word}
    (ran : fs.open X path flags = (.ok opened,fs')) : ∃ disk file, fs.add X disk file = (.ok opened,fs') := by
  unfold EXT4FSImpl.open at ran
  dsimp only at ran
  split at ran
  · split at ran
    · split at ran
      · cases ran
      · exact ⟨_,_,ran⟩
    · cases ran
  · split at ran
    · exact ⟨_,_,ran⟩
    · split at ran
      · split at ran
        · cases ran
        · exact ⟨_,_,ran⟩
      · cases ran

private theorem open_sized (laws : FileLaws V) {fs fs' : EXT4FSImpl σ φ} {path : Str} {flags : BitVec 32} {inode : Nat}
    {size : Word} {c : List Byte} (ran : fs.open X path flags = (.ok (inode,size),fs')) (shown : V.at fs' inode = some c) :
    size = BitVec.ofNat 64 c.length := by
  obtain ⟨disk,file,added⟩ := open_added ran
  unfold EXT4FSImpl.add at added
  dsimp only at added
  split at added
  · cases added
    simp only [FileView.at,put_stores_self,put_disk,Option.bind_some] at shown
    exact laws.size disk file c shown
  · cases added

private theorem handleOpen_sized (laws : FileLaws V) {s t : FsService σ φ} (numbered : Numbered s.fdTable s.nextFd) {path : Str}
    {flags : BitVec 32} {resp : FsResponse} (ran : s.handleOpenWithPath X path flags = .ok (resp,t)) (good : resp.isErr = false) :
    ∃ e, t.entry s.nextFd = some e ∧ ∀ c, V.at t.fs e.inode = some c → e.size = BitVec.ofNat 64 c.length := by
  unfold FsService.handleOpenWithPath at ran
  split at ran
  · cases ran
    cases good
  · split at ran
    · next inode size fs opened =>
      simp only [bind_ok_iff,Except.ok.injEq,Prod.mk.injEq] at ran
      obtain ⟨table,grew,_,_,_,rfl⟩ := ran
      have entries := (numbered.opened (by decide) (by decide) grew
        { path := path, inode := inode, size := size, offset := 0, flags := flags }).2.2
      exact ⟨_,(entries s.nextFd).trans (if_pos rfl),fun c shown => open_sized laws opened shown⟩
    · cases ran
      cases good

/-- The entry that an opening makes has the size of its file. -/
private theorem opened_sized (laws : FileLaws V) {s t : Lcl (Server σ φ)} (a : Agree s) {path : Str} {flags : BitVec 32}
    {fd : Word} (opened : s.perform (serverKernel X) (.open path flags) = .ok (.sys (.ok fd),t)) {c : List Byte}
    (shown : shows V t fd = some c) :
    ∃ e, t.world.service.entry fd = some e ∧ e.offset = 0 ∧ e.size = BitVec.ofNat 64 c.length := by
  obtain ⟨e,served,front⟩ := opened_positioned a opened
  refine ⟨e,served,front,?_⟩
  obtain ⟨resp,invoked,good,isFd⟩ := opened_invoked opened
  obtain ⟨e',served',size⟩ := handleOpen_sized laws a.server.toNumbered invoked good
  rw [← a.nextFd,← isFd,served] at served'
  cases served'
  refine size c ?_
  rw [shows,served] at shown
  exact shown

private theorem serverKernel_value {w : Server σ φ} {message : Message} {inv : Invocation} {value : Word} {t : FsService σ φ}
    (read : dispatch (received message w.ib) = .ok (some inv)) (invoked : w.service.invoke X inv = .ok (.Ok value,t)) :
    ∃ w' m, serverKernel X w message = .ok (w',m) ∧ w'.service = t ∧ m.readMr 0 = RESP_OK ∧ m.readMr 1 = value := by
  have round := (serviceRound_iff X read).mpr ⟨_,invoked,rfl⟩
  have total : (writeResponse (received message w.ib) (.Ok value)).1 = 2 := rfl
  refine ⟨{ service := t, ib := (writeResponse (received message w.ib) (.Ok value)).2 },
    delivered (replyWord (writeResponse (received message w.ib) (.Ok value)).1,
      (writeResponse (received message w.ib) (.Ok value)).2) message.ib,?_,rfl,?_,?_⟩
  · simp only [serverKernel,round,ok_bind]
  · rw [readMr_delivered (by omega),total,if_pos (by decide),writeResponse_mr0]
    rfl
  · rw [readMr_delivered (by omega),total,if_pos (by decide),writeResponse_mr1]
    rfl

/-- The size of a positioned descriptor, which stays as it is. -/
private theorem fileSize_positioned {s : Lcl (Server σ φ)} {fd : Word} {c : List Byte} {offset : Nat}
    (p : Positioned V s fd c offset) {e : FileEntry} (served : s.world.service.entry fd = some e) :
    ∃ t, s.fileSize (serverKernel X) fd = .ok (.ok e.size,t) ∧ Positioned V t fd c offset := by
  obtain ⟨file,entry,live,isRemote⟩ := positioned_live p
  obtain ⟨agree,place,shown,inside⟩ := p
  have sends : Sends s fd (.fileSize fd) :=
    ⟨by simp [Op.path],fun fd' on => by cases on; exact ⟨file,entry,live,isRemote⟩⟩
  have invoked : s.world.service.invoke X (.request (.FileSize fd)) = .ok (.Ok e.size,s.world.service) := by
    simp only [FsService.invoke,FsService.handleRequest,FsService.handleFileSize,served]
  obtain ⟨w,m,answered,isService,ok,mr1⟩ := serverKernel_value (dispatch_messageOf sends (by simp) s.ib s.world.ib) invoked
  obtain ⟨t,finished,isWorld⟩ : ∃ t, s.fileSize (replying (w,m)) fd = .ok (.ok e.size,t) ∧ t.world = w := by
    simp only [Lcl.fileSize,Lcl.fdOnly,fdCall_eq _ s live,replying,ok_bind,answer,if_pos ok,mr1]
    exact ⟨_,rfl,rfl⟩
  have performed : s.perform (serverKernel X) (.fileSize fd) = .ok (.sys (.ok e.size),t) := by
    rw [perform_sends sends]
    refine bind_ok_iff.mpr ⟨_,answered,?_⟩
    rw [Lcl.perform,finished]
    rfl
  have ran : s.fileSize (serverKernel X) fd = .ok (.ok e.size,t) := by
    obtain ⟨⟨r,t'⟩,ran,done⟩ := bind_ok_iff.mp performed
    cases done
    exact ran
  have same : t.world.service = s.world.service := by rw [isWorld,isService]
  exact ⟨t,ran,perform_agree agree performed,same.symm ▸ place,by rw [shows,same]; exact shown,inside⟩

private theorem close_positioned (laws : FileLaws V) {s : Lcl (Server σ φ)} {fd : Word} {c : List Byte} {offset : Nat}
    (p : Positioned V s fd c offset) : ∃ r t, s.close (serverKernel X) fd = .ok (r,t) := by
  obtain ⟨file,entry,live,isRemote⟩ := positioned_live p
  obtain ⟨agree,⟨e,served,_⟩,shown,inside⟩ := p
  have sends : Sends s fd (.close fd) := ⟨by simp [Op.path],fun fd' on => by cases on; exact ⟨file,entry,live,isRemote⟩⟩
  obtain ⟨object,stored,content⟩ : ∃ object, s.world.service.fs.stores e.inode = some object ∧
      V.content s.world.service.fs.disk object = some c := by
    rw [shows,served] at shown
    exact Option.bind_eq_some_iff.mp shown
  obtain ⟨r,closed⟩ := laws.close _ _ _ content
  obtain ⟨u,invoked⟩ : ∃ u, s.world.service.invoke X (.request (.Close fd)) = .ok (.Ok 0,u) := by
    simp only [FsService.invoke,FsService.handleRequest,FsService.handleClose,if_neg (show ¬ fd.toNat ≤ 2 by omega),served,
      EXT4FSImpl.close,stored,closed,unwrap,ok_bind]
    exact ⟨_,rfl⟩
  obtain ⟨w,m,answered,_,_,_⟩ := serverKernel_value (dispatch_messageOf sends (by simp) s.ib s.world.ib) invoked
  obtain ⟨r',t,finished⟩ : ∃ r t, s.close (replying (w,m)) fd = .ok (r,t) := by
    simp only [Lcl.close,if_neg (show ¬ fd.toNat ≤ 2 by omega),fdCall_eq _ s live,replying,ok_bind,answer]
    split
    · exact ⟨_,_,rfl⟩
    · exact ⟨_,_,rfl⟩
  refine ⟨r',t,?_⟩
  rw [close_sends _ s live file,isRemote]
  exact bind_ok_iff.mpr ⟨_,answered,finished⟩

/-- What `read_elf_file` returns for a file that the service opens, when the layer has room for it. -/
private theorem readElfFile_opened (laws : FileLaws V) {s u : Lcl (Server σ φ)} (a : Agree s) {path : Str} {fd : Word}
    (opened : s.perform (serverKernel X) (.open path 0) = .ok (.sys (.ok fd),u)) {c : List Byte} (shown : shows V u fd = some c)
    (room : c.length ≤ Client.HEAP_SIZE) :
    ∃ t, readElfFile (serverKernel X) s path = .ok (if c.length ≤ MAX_DATA_IPC then .ok c else .error (-5),t) := by
  have short : c.length < 2 ^ 64 := Nat.lt_of_le_of_lt room (by decide)
  have most : MAX_DATA_IPC = 944 := rfl
  have length : (BitVec.ofNat 64 c.length).toNat = c.length := by rw [BitVec.toNat_ofNat,Nat.mod_eq_of_lt short]
  obtain ⟨e,served,front,size⟩ := opened_sized laws a opened shown
  have p : Positioned V u fd c 0 := ⟨perform_agree a opened,⟨e,served,front⟩,shown,Nat.zero_le _⟩
  obtain ⟨s₂,asked,p⟩ := fileSize_positioned p served
  obtain ⟨s₃,performed,p,_⟩ := read_positioned short p (List.replicate c.length 0)
  obtain ⟨r,t,closed⟩ := close_positioned laws p
  obtain ⟨⟨_,_⟩,opening,done⟩ := bind_ok_iff.mp opened
  cases done
  obtain ⟨⟨⟨_,_⟩,_⟩,reading,done⟩ := bind_ok_iff.mp performed
  cases done
  have got : (chunk c 0 (min (List.replicate c.length (0 : Byte)).length 944)).length = min c.length 944 := by
    rw [chunk_length,List.length_replicate]
    omega
  refine ⟨t,?_⟩
  unfold readElfFile
  rw [opening,ok_bind]
  dsimp only
  rw [asked,ok_bind,size]
  dsimp only
  rw [length,allocate,if_pos room,ok_bind,reading,ok_bind]
  dsimp only
  rw [closed,ok_bind,got]
  dsimp only
  by_cases fits : c.length ≤ MAX_DATA_IPC
  · have whole : chunk c 0 (min (List.replicate c.length (0 : Byte)).length 944) = c := by
      rw [chunk,List.drop_zero,List.length_replicate]
      exact List.take_of_length_le (by omega)
    rw [if_pos fits,whole,List.drop_eq_nil_of_le (by rw [List.length_replicate]; omega),List.append_nil,Nat.min_eq_left (by omega),
      if_neg (by simp)]
  · rw [if_neg fits,if_pos]
    intro same
    have equal := congrArg BitVec.toNat same
    rw [length,BitVec.toNat_ofNat] at equal
    omega

/-- A file that is longer than the layer's heap stops the layer. -/
private theorem readElfFile_huge (laws : FileLaws V) {s u : Lcl (Server σ φ)} (a : Agree s) {path : Str} {fd : Word}
    (opened : s.perform (serverKernel X) (.open path 0) = .ok (.sys (.ok fd),u)) {c : List Byte} (shown : shows V u fd = some c)
    (short : c.length < 2 ^ 64) (huge : Client.HEAP_SIZE < c.length) :
    readElfFile (serverKernel X) s path = .error .outOfMemory := by
  obtain ⟨e,served,front,size⟩ := opened_sized laws a opened shown
  have p : Positioned V u fd c 0 := ⟨perform_agree a opened,⟨e,served,front⟩,shown,Nat.zero_le _⟩
  obtain ⟨s₂,asked,p⟩ := fileSize_positioned p served
  obtain ⟨⟨_,_⟩,opening,done⟩ := bind_ok_iff.mp opened
  cases done
  unfold readElfFile
  rw [opening,ok_bind]
  dsimp only
  rw [asked,ok_bind,size]
  dsimp only
  rw [BitVec.toNat_ofNat,Nat.mod_eq_of_lt short,allocate,if_neg (by omega)]
  rfl

/-- For every state that client and service reach and every file that the service opens, of any size: `read_elf_file`
    returns its bytes exactly when they fit in one reply. -/
theorem read_whole_iff (laws : FileLaws V) {start s u : Lcl (Server σ φ)} {disk : σ} (client : start.client = FsClient.new)
    (service : start.world.service = FsService.new disk) {before : List Op} {outs : List OpResult}
    (ran : run (Lcl.perform (serverKernel X)) start before = .ok (outs,s)) {path : Str} {fd : Word}
    (opened : s.perform (serverKernel X) (.open path 0) = .ok (.sys (.ok fd),u)) {c : List Byte} (shown : shows V u fd = some c)
    (short : c.length < 2 ^ 64) :
    (∃ t, readElfFile (serverKernel X) s path = .ok (.ok c,t)) ↔ c.length ≤ MAX_DATA_IPC := by
  have a := run_agree (fresh_agree client service) ran
  rcases Nat.lt_or_ge Client.HEAP_SIZE c.length with huge | room
  · rw [readElfFile_huge laws a opened shown short huge]
    refine iff_of_false ?_ fun fits => absurd (Nat.le_trans fits (by decide : MAX_DATA_IPC ≤ Client.HEAP_SIZE)) (by omega)
    rintro ⟨t,wrong⟩
    cases wrong
  · obtain ⟨t,returned⟩ := readElfFile_opened laws a opened shown room
    rw [returned]
    by_cases fits : c.length ≤ MAX_DATA_IPC
    · rw [if_pos fits]
      exact iff_of_true ⟨t,rfl⟩ fits
    · rw [if_neg fits]
      refine iff_of_false ?_ fits
      rintro ⟨t,wrong⟩
      cases wrong

end

theorem memFs_laws : FileLaws MemFs.memFsView := by
  refine ⟨fun disk file c shown => ?_,fun _ _ _ _ => ⟨0,rfl⟩⟩
  have isContent : MemFs.content disk file = some c := shown
  change BitVec.ofNat 64 ((MemFs.content disk file).getD []).length = _
  rw [isContent]
  rfl

/-- A client and a service that have just started, over a disk with one file. -/
def holding (c : List Byte) : Lcl (Server (List MemFs.Node) MemFs.Handle) :=
  { client := FsClient.new, ib := IpcBuffer.new, sent := [], console := []
    world := { service := FsService.new [{ path := aPath.bytes, type := .EXT4_DE_REG_FILE, bytes := c }], ib := IpcBuffer.new } }

theorem read_whole_iff_five :
    ∃ t, readElfFile (serverKernel MemFs.memFs) (holding [1,2,3,4,5]) aPath = .ok (.ok [1,2,3,4,5],t) := by
  obtain ⟨u,opened,shown⟩ : ∃ u, (holding [1,2,3,4,5]).perform (serverKernel MemFs.memFs) (.open aPath 0) = .ok (.sys (.ok 3),u) ∧
      shows MemFs.memFsView u 3 = some [1,2,3,4,5] := ⟨_,rfl,rfl⟩
  exact (read_whole_iff memFs_laws rfl rfl (rfl : run _ (holding [1,2,3,4,5]) [] = _) opened shown (by decide)).mpr (by decide)

/-- A file of 945 bytes is not read. -/
theorem long_file_not_read : ¬ ∀ c : List Byte, c.length < 2 ^ 64 →
    ∃ t, readElfFile (serverKernel MemFs.memFs) (holding c) aPath = .ok (.ok c,t) := by
  intro all
  have length : (List.replicate 945 (7 : Byte)).length = 945 := List.length_replicate
  obtain ⟨u,opened,shown⟩ : ∃ u, (holding (List.replicate 945 7)).perform (serverKernel MemFs.memFs) (.open aPath 0) =
      .ok (.sys (.ok 3),u) ∧ shows MemFs.memFsView u 3 = some (List.replicate 945 7) := ⟨_,rfl,rfl⟩
  obtain ⟨t,returned⟩ := all (List.replicate 945 7) (by rw [length]; decide)
  obtain ⟨t',failed⟩ := readElfFile_opened memFs_laws (fresh_agree rfl rfl) opened shown (by rw [length]; decide)
  rw [returned,length,if_neg (by decide)] at failed
  cases failed

end Sel4Linux.Executables
