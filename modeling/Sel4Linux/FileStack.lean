import Sel4Linux.OpenFiles

/-!
The client, the messages, the service loop, the handlers and the object store
together refine the table of open files: they answer every sequence of openings,
reads, seeks, size queries and closings, on any number of descriptors in any
order, exactly as the table does, as long as each finds the blocks that it takes
in what is left of both heaps (`files_refined`).
-/
namespace Sel4Linux.FileStack
open Sel4Linux.Bytes Sel4Linux.Utf8 Sel4Linux.Ipc Sel4Linux.Ext4 Sel4Linux.FdTable Sel4Linux.Service Sel4Linux.ServiceLoop
open Sel4Linux.Files
open Sel4Linux.Client Sel4Linux.Requests Sel4Linux.Replies Sel4Linux.Descriptors Sel4Linux.System Sel4Linux.Reading Sel4Linux.Runs
open Sel4Linux.OpenFiles Sel4Linux.Metered Sel4Linux.ClientHeap Sel4Linux.ServiceHeap Sel4Linux.SystemHeaps
set_option linter.unusedSimpArgs false

variable {σ φ : Type} {X : Externs σ φ} {L : Library X} {tree : Str → Node} {m : Machine} {t : FsService σ φ}

/-! ## The client -/

/-- The client and the service have the files of the table open. -/
structure Serves (L : Library X) (tree : Str → Node) (m : Machine) (c : Lcl (Server σ φ)) : Prop where
  agree : Agree c
  holds : Holds L tree m c.world.service

/-- A handler's response is what the caller's first registers tell. -/
theorem serverKernel_replies {w : Server σ φ} {message : Message} {inv : Invocation} {resp : FsResponse}
    (read : dispatch (received message w.ib) = .ok (some inv)) (small : inv.count ≤ 944)
    (invoked : w.service.invoke X inv = .ok (resp,t)) :
    ∃ w' ib, serverKernel X w message = .ok (w',ib) ∧ w'.service = t ∧ ib.readMr 0 = statusOf resp ∧
      ib.readMr 1 = resultOf resp := by
  have round := (serviceRound_iff X read).mpr ⟨_,invoked,rfl⟩
  have ran : serverKernel X w message = .ok ({ service := t, ib := (writeResponse (received message w.ib) resp).2 },
      delivered (replyWord (writeResponse (received message w.ib) resp).1,
        (writeResponse (received message w.ib) resp).2) message.ib) := by
    simp only [serverKernel,round,ok_bind]
  obtain ⟨resp',invoked',mr0,mr1⟩ := serverKernel_answers read small ran
  rw [invoked] at invoked'
  cases invoked'
  exact ⟨_,_,ran,rfl,mr0,mr1⟩

variable {c : Lcl (Server σ φ)} {m' : Machine}

/-- A call that the handler answers keeps the client and the service together. -/
theorem called {op : Op} {remote : Word} {inv : Invocation} {resp : FsResponse} {out : OpResult} (serves : Serves L tree m c)
    (sends : Sends c remote op) (named : invocation remote op = some inv)
    (invoked : c.world.service.invoke X inv = .ok (resp,t)) (holds : Holds L tree m' t)
    (finish : ∀ (w : Server σ φ) ib, ib.readMr 0 = statusOf resp → ib.readMr 1 = resultOf resp →
      ∃ d, c.perform (replying (w,ib)) op = .ok (out,d) ∧ d.world = w) :
    ∃ d, c.perform (serverKernel X) op = .ok (out,d) ∧ Serves L tree m' d := by
  have noWrite : ∀ fd data, op ≠ .write fd data := by
    rintro fd data rfl
    cases named
  have read := dispatch_messageOf sends noWrite c.ib c.world.ib
  rw [named] at read
  obtain ⟨w,ib,answered,isService,mr0,mr1⟩ := serverKernel_replies read (Calls.count (.inl named)) invoked
  obtain ⟨d,finished,isWorld⟩ := finish w ib mr0 mr1
  have ran : c.perform (serverKernel X) op = .ok (out,d) := by
    rw [perform_sends sends]
    exact bind_ok_iff.mpr ⟨_,answered,finished⟩
  refine ⟨d,ran,perform_agree serves.agree ran,?_⟩
  rw [isWorld,isService]
  exact holds

theorem Serves.sends (serves : Serves L tree m c) {fd : Word} {cur : Cursor} (op : Op) (live : m.cursor fd.toNat = some cur)
    (on : op.fd = some fd) (noPath : op.path = none) : Sends c fd op ∧ 3 ≤ fd.toNat ∧ ∃ entry, c.client.entry fd = some entry := by
  obtain ⟨file,e,served,_⟩ := serves.holds.live live
  have there : c.client.entry fd ≠ none := by
    intro dead
    rw [(serves.agree.dead_iff fd).mp dead] at served
    cases served
  obtain ⟨entry,isEntry⟩ := Option.ne_none_iff_exists'.mp there
  refine ⟨⟨fun path isPath => ?_,fun fd' on' => ?_⟩,file,entry,isEntry⟩
  · rw [noPath] at isPath
    cases isPath
  · rw [on] at on'
    cases on'
    exact ⟨file,entry,isEntry,(serves.agree.live isEntry).1⟩

theorem Serves.dead (serves : Serves L tree m c) {fd : Word} (dead : m.cursor fd.toNat = none) : c.client.entry fd = none :=
  (serves.agree.dead_iff fd).mpr (serves.holds.dead dead)

theorem sends_path {op : Op} {path : Str} (on : op.path = some path) (noFd : op.fd = none) (fits : path.len ≤ MAX_PATH_IPC) :
    Sends c 0 op := by
  refine ⟨fun path' on' => ?_,fun fd on' => ?_⟩
  · rw [on] at on'
    cases on'
    exact fits
  · rw [noFd] at on'
    cases on'

/-! ### What the client makes of a reply -/

section
variable {ω : Type} (d : Lcl ω) (w : ω) {ib : IpcBuffer}

theorem open_replied {path : Str} (flags : BitVec 32) (fits : path.len ≤ MAX_PATH_IPC) (ok : ib.readMr 0 = Client.RESP_OK)
    (numbered : Numbered d.client.fdTable d.client.nextFd) (room : (d.client.nextFd.toNat + 1) * FD_ENTRY_SIZE ≤ Client.HEAP_SIZE) :
    ∃ d', d.perform (replying (w,ib)) (.open path flags) = .ok (.sys (.ok d.client.nextFd),d') ∧ d'.world = w := by
  have short : path.len ≤ 944 := Nat.le_trans fits (by decide)
  have grew := numbered.grow Client.HEAP_SIZE FD_ENTRY_SIZE
  rw [allocate,if_pos room,ok_bind] at grew
  simp only [Lcl.perform,Lcl.open,pathCall_eq _ d fits,replying,ok_bind,answer,ok,if_true,replied,grew,allocate,
    if_pos (show path.len ≤ Client.HEAP_SIZE from heap_room short)]
  exact ⟨_,rfl,rfl⟩

theorem open_refused {path : Str} (flags : BitVec 32) (fits : path.len ≤ MAX_PATH_IPC) (failed : ib.readMr 0 ≠ Client.RESP_OK) :
    ∃ d', d.perform (replying (w,ib)) (.open path flags) = .ok (.sys (.error ((ib.readMr 1).setWidth 32)),d') ∧ d'.world = w := by
  simp only [Lcl.perform,Lcl.open,pathCall_eq _ d fits,replying,ok_bind,answer,if_neg failed]
  exact ⟨_,rfl,rfl⟩

theorem access_replied {path : Str} (ib : IpcBuffer) (mode : BitVec 32) (fits : path.len ≤ MAX_PATH_IPC) :
    ∃ d', d.perform (replying (w,ib)) (.access path mode) = .ok (.sys (if ib.readMr 0 = Client.RESP_OK then .ok 0
      else .error ((ib.readMr 1).setWidth 32)),d') ∧ d'.world = w := by
  simp only [Lcl.perform,Lcl.access,Lcl.pathOnly,pathCall_eq _ d fits,replying,ok_bind,answer]
  split
  · exact ⟨_,rfl,rfl⟩
  · exact ⟨_,rfl,rfl⟩

theorem fdOnly_replied {fd : Word} {entry : FdEntry} (ib : IpcBuffer) (live : d.client.entry fd = some entry)
    (req arg2 arg3 : Word) :
    ∃ d', d.fdOnly (replying (w,ib)) req fd arg2 arg3 = .ok (if ib.readMr 0 = Client.RESP_OK then .ok (ib.readMr 1)
      else .error ((ib.readMr 1).setWidth 32),d') ∧ d'.world = w := by
  simp only [Lcl.fdOnly,fdCall_eq _ d live,replying,ok_bind,answer]
  split
  · exact ⟨_,rfl,rfl⟩
  · exact ⟨_,rfl,rfl⟩

theorem close_replied {fd : Word} {entry : FdEntry} (live : d.client.entry fd = some entry) (file : 3 ≤ fd.toNat)
    (ok : ib.readMr 0 = Client.RESP_OK) :
    ∃ d', d.perform (replying (w,ib)) (.close fd) = .ok (.sys (.ok 0),d') ∧ d'.world = w := by
  simp only [Lcl.perform,Lcl.close,if_neg (show ¬ fd.toNat ≤ 2 by omega),fdCall_eq _ d live,replying,ok_bind,answer,ok,if_true]
  exact ⟨_,rfl,rfl⟩

end

/-! ### One operation -/

theorem errno_back (errno : Errno) : (errno.signExtend 64).setWidth 32 = errno := by
  apply BitVec.eq_of_getLsbD_eq
  intro i low
  simp [BitVec.getLsbD_signExtend,low,show i < 64 by omega]

theorem open_serves (serves : Serves L tree m c) (small : ∀ path c, tree path = .file c → c.length < 2 ^ 63) {path : Str}
    {flags : BitVec 32} (allowed : Allowed tree X m (.open path flags)) :
    ∃ d, c.perform (serverKernel X) (.open path flags) = .ok ((m.open tree path).1,d) ∧ Serves L tree (m.open tree path).2 d := by
  obtain ⟨noDir,plain,few,room⟩ := allowed
  unfold Machine.open resolve
  by_cases long : MAX_PATH_IPC < path.len
  · rw [if_pos long]
    refine ⟨c,?_,serves⟩
    simp only [Lcl.perform,Lcl.open,Lcl.pathCall,if_pos long,ok_bind]
  · have fits : path.len ≤ MAX_PATH_IPC := by omega
    have sends : Sends c 0 (.open path flags) := sends_path rfl rfl fits
    rw [if_neg long]
    by_cases empty : path.isEmpty = true
    · rw [if_pos empty]
      have refused : c.world.service.invoke X (.openWithPath path flags) = .ok (.Err (-22#32),c.world.service) := by
        simp only [FsService.invoke,FsService.handleOpenWithPath,empty,if_true]
      refine called serves sends rfl refused serves.holds fun w ib mr0 mr1 => ?_
      obtain ⟨d,ran,isWorld⟩ := open_refused c w flags fits (by rw [mr0]; decide)
      rw [mr1,resultOf,errno_back] at ran
      exact ⟨d,ran,isWorld⟩
    · have some' : path.isEmpty = false := Bool.eq_false_iff.mpr empty
      rw [if_neg empty]
      cases named : tree path with
      | dir => exact absurd named noDir
      | missing =>
        obtain ⟨t,refused,holds⟩ := open_absent serves.holds named some' plain
        refine called serves sends rfl refused holds fun w ib mr0 mr1 => ?_
        obtain ⟨d,ran,isWorld⟩ := open_refused c w flags fits (by rw [mr0]; decide)
        rw [mr1,resultOf,errno_back] at ran
        exact ⟨d,ran,isWorld⟩
      | file content =>
        obtain ⟨t,opened,holds⟩ := open_served serves.holds named (small path content named) some' fits plain few room
        have next : c.client.nextFd = BitVec.ofNat 64 m.next := by
          rw [serves.agree.nextFd,← serves.holds.next,BitVec.ofNat_toNat,BitVec.setWidth_eq]
        refine called serves sends rfl opened holds fun w ib mr0 mr1 => ?_
        rw [← next]
        refine open_replied c w flags fits mr0 serves.agree.client ?_
        have length := serves.holds.next
        rw [serves.agree.nextFd,length]
        unfold FILE_ENTRY_SIZE Service.HEAP_SIZE at room
        unfold FD_ENTRY_SIZE Client.HEAP_SIZE
        omega

theorem access_serves (serves : Serves L tree m c) {path : Str} {mode : BitVec 32}
    (allowed : Allowed tree X m (.access path mode)) :
    ∃ d, c.perform (serverKernel X) (.access path mode) = .ok ((m.access tree path).1,d) ∧
      Serves L tree (m.access tree path).2 d := by
  obtain ⟨noDir,few⟩ := allowed
  unfold Machine.access resolve
  by_cases long : MAX_PATH_IPC < path.len
  · rw [if_pos long]
    refine ⟨c,?_,serves⟩
    simp only [Lcl.perform,Lcl.access,Lcl.pathOnly,Lcl.pathCall,if_pos long,ok_bind]
  · have fits : path.len ≤ MAX_PATH_IPC := by omega
    have sends : Sends c 0 (.access path mode) := sends_path rfl rfl fits
    have refused (errno : Errno) (w : Server σ φ) (ib : IpcBuffer) (mr0 : ib.readMr 0 = statusOf (.Err errno))
        (mr1 : ib.readMr 1 = resultOf (.Err errno)) :
        ∃ d, c.perform (replying (w,ib)) (.access path mode) = .ok (.sys (.error errno),d) ∧ d.world = w := by
      obtain ⟨d,ran,isWorld⟩ := access_replied c w ib mode fits
      rw [mr0,if_neg (by simp [statusOf,ServiceLoop.RESP_ERR,Client.RESP_OK]),mr1,resultOf,errno_back] at ran
      exact ⟨d,ran,isWorld⟩
    rw [if_neg long]
    by_cases empty : path.isEmpty = true
    · rw [if_pos empty]
      have answered : c.world.service.invoke X (.accessWithPath path) = .ok (.Err (-22#32),c.world.service) := by
        simp only [FsService.invoke,FsService.handleAccessWithPath,empty,if_true]
      exact called serves sends rfl answered serves.holds (refused _)
    · have some' : path.isEmpty = false := Bool.eq_false_iff.mpr empty
      rw [if_neg empty]
      cases named : tree path with
      | dir => exact absurd named noDir
      | missing =>
        obtain ⟨t,answered,holds⟩ := access_absent serves.holds named some'
        exact called serves sends rfl answered holds (refused _)
      | file content =>
        obtain ⟨t,answered,holds⟩ := access_served serves.holds named some' few
        refine called serves sends rfl answered holds fun w ib mr0 mr1 => ?_
        obtain ⟨d,ran,isWorld⟩ := access_replied c w ib mode fits
        rw [mr0,if_pos (by rfl)] at ran
        exact ⟨d,ran,isWorld⟩

theorem read_serves (serves : Serves L tree m c) (small : ∀ fd cur, m.cursor fd = some cur → cur.content.length < 2 ^ 63)
    {fd : Word} {buf : List Byte} (allowed : Allowed tree X m (.read fd buf)) :
    ∃ d, c.perform (serverKernel X) (.read fd buf) = .ok ((m.read fd buf).1,d) ∧ Serves L tree (m.read fd buf).2 d := by
  unfold Machine.read
  by_cases console : fd = 0
  · rw [if_pos console]
    refine ⟨c,?_,serves⟩
    simp only [Lcl.perform,Lcl.read,if_pos console,ok_bind]
  · rw [if_neg console]
    cases live : m.cursor fd.toNat with
    | none =>
      refine ⟨c,?_,serves⟩
      simp only [Lcl.perform,Lcl.read,if_neg console,Lcl.fdCall,serves.dead live,ok_bind]
      split
      · rfl
      · rfl
    | some cur =>
      obtain ⟨sends,file,entry,isEntry⟩ := serves.sends (.read fd buf) live rfl rfl
      have most : min buf.length MAX_DATA_IPC ≤ 944 := by simp only [MAX_DATA_IPC,Client.DATA_MR_START]; omega
      obtain ⟨t,answered,holds⟩ := read_served serves.holds live (small _ cur live) (allowed cur live) most
      have short : (chunk cur.content cur.offset (min buf.length MAX_DATA_IPC)).length ≤ 944 := by rw [chunk_length]; omega
      have read := dispatch_messageOf sends (by simp) c.ib c.world.ib
      obtain ⟨w,ib,replied',isService,ok,mr1,words⟩ := serverKernel_data read answered short
      obtain ⟨d,finished,isWorld,_⟩ := read_replying c isEntry file buf w ok mr1 words short (by rw [chunk_length]; omega)
      have ran : c.perform (serverKernel X) (.read fd buf) =
          .ok (gives buf (chunk cur.content cur.offset (min buf.length MAX_DATA_IPC)),d) := by
        rw [perform_sends sends]
        exact bind_ok_iff.mpr ⟨_,replied',finished⟩
      refine ⟨d,ran,perform_agree serves.agree ran,?_⟩
      rw [isWorld,isService]
      exact holds

theorem write_serves (serves : Serves L tree m c) {fd : Word} {data : List Byte} (allowed : Allowed tree X m (.write fd data)) :
    ∃ d, c.perform (serverKernel X) (.write fd data) = .ok ((m.write fd data).1,d) ∧ Serves L tree (m.write fd data).2 d := by
  have dead := serves.dead allowed
  unfold Machine.write
  simp only [Lcl.perform,Lcl.write,dead]
  by_cases input : fd = 0
  · rw [if_pos input,if_neg (by rw [input]; decide)]
    exact ⟨c,rfl,serves⟩
  · rw [if_neg input]
    by_cases console : fd = 1 ∨ fd = 2
    · rw [if_pos console,if_pos console]
      exact ⟨_,rfl,⟨serves.agree.server,serves.agree.client,serves.agree.nextFd,serves.agree.same⟩,serves.holds⟩
    · rw [if_neg console,if_neg console]
      exact ⟨c,rfl,serves⟩

theorem lseek_serves (serves : Serves L tree m c) (small : ∀ fd cur, m.cursor fd = some cur → cur.content.length < 2 ^ 63)
    {fd offset : Word} {whence : BitVec 32} (allowed : Allowed tree X m (.lseek fd offset whence)) :
    ∃ d, c.perform (serverKernel X) (.lseek fd offset whence) = .ok ((m.lseek fd offset whence).1,d) ∧
      Serves L tree (m.lseek fd offset whence).2 d := by
  unfold Machine.lseek
  cases live : m.cursor fd.toNat with
  | none =>
    refine ⟨c,?_,serves⟩
    simp only [Lcl.perform,Lcl.lseek,Lcl.fdOnly,Lcl.fdCall,serves.dead live,ok_bind]
  | some cur =>
    obtain ⟨sends,file,entry,isEntry⟩ := serves.sends (.lseek fd offset whence) live rfl rfl
    obtain ⟨resp,t,answered,ends⟩ := lseek_served serves.holds live (small _ cur live) (allowed cur live)
    have replied' (w : Server σ φ) (ib : IpcBuffer) :
        ∃ d, c.perform (replying (w,ib)) (.lseek fd offset whence) = .ok (.sys (if ib.readMr 0 = Client.RESP_OK
          then .ok (ib.readMr 1) else .error ((ib.readMr 1).setWidth 32)),d) ∧ d.world = w := by
      obtain ⟨d,ran,isWorld⟩ := fdOnly_replied c w ib isEntry REQ_LSEEK offset (whence.signExtend 64)
      refine ⟨d,?_,isWorld⟩
      simp only [Lcl.perform,Lcl.lseek,ran,ok_bind]
    dsimp only
    cases led : cur.target offset whence with
    | ok p =>
      rw [led] at ends
      obtain ⟨rfl,holds⟩ := ends
      refine called serves sends rfl answered holds fun w ib mr0 mr1 => ?_
      obtain ⟨d,ran,isWorld⟩ := replied' w ib
      rw [mr0,if_pos (by rfl),mr1] at ran
      exact ⟨d,ran,isWorld⟩
    | error errno =>
      rw [led] at ends
      obtain ⟨rfl,rfl⟩ := ends
      refine called serves sends rfl answered serves.holds fun w ib mr0 mr1 => ?_
      obtain ⟨d,ran,isWorld⟩ := replied' w ib
      rw [mr0,if_neg (by simp [statusOf,ServiceLoop.RESP_ERR,Client.RESP_OK]),mr1,resultOf,errno_back] at ran
      exact ⟨d,ran,isWorld⟩

theorem close_serves (serves : Serves L tree m c) (fd : Word) :
    ∃ d, c.perform (serverKernel X) (.close fd) = .ok ((m.close fd).1,d) ∧ Serves L tree (m.close fd).2 d := by
  unfold Machine.close
  by_cases standard : fd.toNat ≤ 2
  · rw [if_pos standard]
    refine ⟨c,?_,serves⟩
    simp only [Lcl.perform,Lcl.close,if_pos standard,ok_bind]
  · rw [if_neg standard]
    cases live : m.cursor fd.toNat with
    | none =>
      refine ⟨c,?_,serves⟩
      simp only [Lcl.perform,Lcl.close,if_neg standard,Lcl.fdCall,serves.dead live,ok_bind]
    | some cur =>
      obtain ⟨sends,file,entry,isEntry⟩ := serves.sends (.close fd) live rfl rfl
      obtain ⟨t,answered,holds⟩ := close_served serves.holds live
      refine called serves sends rfl answered holds fun w ib mr0 _ => ?_
      exact close_replied c w isEntry file mr0

theorem fileSize_serves (serves : Serves L tree m c) (fd : Word) :
    ∃ d, c.perform (serverKernel X) (.fileSize fd) = .ok ((m.fileSize fd).1,d) ∧ Serves L tree (m.fileSize fd).2 d := by
  unfold Machine.fileSize
  cases live : m.cursor fd.toNat with
  | none =>
    refine ⟨c,?_,serves⟩
    simp only [Lcl.perform,Lcl.fileSize,Lcl.fdOnly,Lcl.fdCall,serves.dead live,ok_bind]
  | some cur =>
    obtain ⟨sends,file,entry,isEntry⟩ := serves.sends (.fileSize fd) live rfl rfl
    obtain ⟨_,e,served,on⟩ := serves.holds.live live
    have answered : c.world.service.invoke X (.request (.FileSize fd)) = .ok (.Ok e.size,c.world.service) := by
      simp only [FsService.invoke,FsService.handleRequest,FsService.handleFileSize,served]
    refine called serves sends rfl answered serves.holds fun w ib mr0 mr1 => ?_
    obtain ⟨d,ran,isWorld⟩ := fdOnly_replied c w ib isEntry REQ_FILE_SIZE 0 0
    rw [mr0,if_pos (by rfl),mr1,resultOf] at ran
    refine ⟨d,?_,isWorld⟩
    simp only [Lcl.perform,Lcl.fileSize,ran,ok_bind]
    rw [← on.size,BitVec.ofNat_toNat,BitVec.setWidth_eq]

/-- The bytes of a file that is open are those of a file that is there. -/
def Short (m : Machine) : Prop := ∀ fd cur, m.cursor fd = some cur → cur.content.length < 2 ^ 63

theorem short_set (short : Short m) {fd : Nat} {cur : Cursor} (here : cur.content.length < 2 ^ 63) :
    Short (m.set fd (some cur)) := by
  intro other cur' live
  simp only [Machine.set] at live
  split at live
  · cases live
    exact here
  · exact short other cur' live

theorem perform_short (small : ∀ path c, tree path = .file c → c.length < 2 ^ 63) (short : Short m) {op : Op}
    {r : OpResult × Machine} (step : m.perform tree op = .ok r) : Short r.2 := by
  cases op with
  | «open» path flags =>
    cases step
    unfold Machine.open resolve
    split
    · next c found =>
      refine short_set short ?_
      split at found
      · cases found
      · split at found
        · cases found
        · split at found
          · next named =>
            cases found
            exact small path c named
          · cases found
    · exact short
  | access path mode =>
    cases step
    unfold Machine.access
    split
    all_goals exact short
  | read fd buf =>
    cases step
    unfold Machine.read
    split
    · exact short
    · split
      · next cur live => exact short_set short (short _ cur live)
      · exact short
  | write fd data =>
    cases step
    unfold Machine.write
    split
    all_goals exact short
  | lseek fd offset whence =>
    cases step
    unfold Machine.lseek
    split
    · next cur live =>
      split
      · exact short_set short (short _ cur live)
      · exact short
    · exact short
  | close fd =>
    cases step
    unfold Machine.close
    split
    · exact short
    · split
      · intro other cur live
        simp only [Machine.set] at live
        split at live
        · cases live
        · exact short other cur live
      · exact short
  | fileSize fd =>
    cases step
    unfold Machine.fileSize
    split
    all_goals exact short
  | _ => cases step

/-- Every operation that the table describes is answered as it says, and the files stay open as they are in it. -/
theorem perform_serves (serves : Serves L tree m c) (small : ∀ path c, tree path = .file c → c.length < 2 ^ 63) (short : Short m)
    {op : Op} (allowed : Allowed tree X m op) : ∃ out d m', c.perform (serverKernel X) op = .ok (out,d) ∧
      m.perform tree op = .ok (out,m') ∧ Serves L tree m' d ∧ Short m' := by
  have step : ∃ r : OpResult × Machine, m.perform tree op = .ok r ∧
      ∃ d, c.perform (serverKernel X) op = .ok (r.1,d) ∧ Serves L tree r.2 d := by
    cases op with
    | «open» path flags => exact ⟨_,rfl,open_serves serves small allowed⟩
    | access path mode => exact ⟨_,rfl,access_serves serves allowed⟩
    | read fd buf => exact ⟨_,rfl,read_serves serves short allowed⟩
    | write fd data => exact ⟨_,rfl,write_serves serves allowed⟩
    | lseek fd offset whence => exact ⟨_,rfl,lseek_serves serves short allowed⟩
    | close fd => exact ⟨_,rfl,close_serves serves fd⟩
    | fileSize fd => exact ⟨_,rfl,fileSize_serves serves fd⟩
    | _ => exact allowed.elim
  obtain ⟨⟨out,m'⟩,there,d,ran,serves'⟩ := step
  exact ⟨out,d,m',ran,there,serves',perform_short small short there⟩

theorem new_serves {disk : σ} (client : c.client = FsClient.new) (service : c.world.service = FsService.new disk)
    (named : L.tree disk = tree) : Serves L tree Machine.new c := by
  refine ⟨fresh_agree client service,service ▸ new_consistent disk,by rw [service]; rfl,by rw [service]; exact named,fun fd => ?_⟩
  have none' : (FsService.new disk : FsService σ φ).entry fd = none := lookup_nones fd
  rw [service,none']
  exact .none

/-- Whatever the heaps, the operations that the table of open files describes are answered with its results. -/
theorem run_serves (small : ∀ path content, tree path = .file content → content.length < 2 ^ 63) (serves : Serves L tree m c)
    (short : Short m) {ops : List Op} (allowed : Meets (Machine.perform tree) (Allowed tree X) m ops) :
    ∃ outs d m', run (Lcl.perform (serverKernel X)) c ops = .ok (outs,d) ∧ run (Machine.perform tree) m ops = .ok (outs,m') ∧
      Serves L tree m' d := by
  have keep (d : Lcl (Server σ φ)) (m : Machine) (op : Op) (both : Serves L tree m d ∧ Short m) (allowed : Allowed tree X m op) :
      ∃ out d' m', d.perform (serverKernel X) op = .ok (out,d') ∧ m.perform tree op = .ok (out,m') ∧ Serves L tree m' d' ∧
        Short m' :=
    perform_serves both.1 small both.2 allowed
  have start : Serves L tree m c ∧ Short m := ⟨serves,short⟩
  obtain ⟨outs,d,m',ran,there,serves',_⟩ := run_simulates keep start allowed
  exact ⟨outs,d,m',ran,there,serves'⟩

/-- A client and a service that have just started, over a library that keeps its files, and any operations that the table
    of open files describes: they are answered, one after the other, with exactly the results that it gives, and in the end
    the same files are open at the same offsets, exactly when every operation finds what it takes in what the operations
    before it have left of the two heaps. -/
theorem files_refined (L : Library X) (D : Drain σ φ) (E : Elsewhere Op) {disk : σ} {c : Lcl (Server σ φ)}
    (client : c.client = FsClient.new) (service : c.world.service = FsService.new disk)
    (small : ∀ path content, L.tree disk path = .file content → content.length < 2 ^ 63)
    {ops : List Op} (allowed : Meets (Machine.perform (L.tree disk)) (Allowed (L.tree disk) X) Machine.new ops) (h : Heaps) :
    (∃ outs d k m, run (heapPerform X D E) (c,h) ops = .ok (outs,(d,k)) ∧
        run (Machine.perform (L.tree disk)) Machine.new ops = .ok (outs,m) ∧ Serves L (L.tree disk) m d) ↔
      Meets (heapPerform X D E) (Enough (Lcl.perform (serverKernel X)) (performUses X D E)) (c,h) ops := by
  have start : Serves L (L.tree disk) Machine.new c := new_serves client service rfl
  obtain ⟨outs,d,m,ran,there,serves⟩ := run_serves small start (fun _ _ live => by cases live) allowed
  unfold heapPerform
  rw [← metered_ran_iff ran]
  constructor
  · rintro ⟨outs',d',k,_,ran',_⟩
    cases ran.symm.trans (metered_ran ran')
    exact ⟨k,ran'⟩
  · rintro ⟨k,ran'⟩
    exact ⟨outs,d,k,m,ran',there,serves⟩

/-! ## The file system in memory -/

/-- The node of a path and a type. -/
def nodeAt (disk : List MemFs.Node) (path : Str) (type : InodeTypes) : Option MemFs.Node :=
  MemFs.node disk { path := path.bytes, type := type, pos := 0 }

def memTree (disk : List MemFs.Node) (path : Str) : Node :=
  if (nodeAt disk path .EXT4_DE_DIR).isSome then .dir
  else
    match nodeAt disk path .EXT4_DE_REG_FILE with
    | some n => .file n.bytes
    | none => .missing

theorem memTree_file {disk : List MemFs.Node} {path : Str} {c : List Byte} (named : memTree disk path = .file c) :
    ∃ n, nodeAt disk path .EXT4_DE_REG_FILE = some n ∧ n.bytes = c := by
  unfold memTree at named
  split at named
  · cases named
  · cases there : nodeAt disk path .EXT4_DE_REG_FILE with
    | none =>
      rw [there] at named
      cases named
    | some n =>
      rw [there] at named
      cases named
      exact ⟨n,rfl,rfl⟩

theorem plain_keeps {flags : BitVec 32} (plain : Plain MemFs.memFs flags) : flags &&& MemFs.O_TRUNC ≠ MemFs.O_TRUNC := by
  have both : (MemFs.O_TRUNC ||| 3#32) &&& MemFs.O_TRUNC = MemFs.O_TRUNC := by decide
  have masked := congrArg (· &&& MemFs.O_TRUNC) plain.2
  change flags &&& (MemFs.O_TRUNC ||| 3#32) &&& MemFs.O_TRUNC = 0#32 &&& MemFs.O_TRUNC at masked
  rw [BitVec.and_assoc,both,BitVec.zero_and] at masked
  rw [masked]
  decide

/-- The file system in memory keeps its files. -/
def memLibrary : Library MemFs.memFs where
  tree := memTree
  content := MemFs.content
  creat := by decide
  checked _ _ _ _ := ⟨rfl,rfl⟩
  dir disk h path := by
    change (nodeAt disk path .EXT4_DE_DIR).isSome = true ↔ memTree disk path = .dir
    unfold memTree
    by_cases there : (nodeAt disk path .EXT4_DE_DIR).isSome = true
    · rw [if_pos there]
      exact iff_of_true there rfl
    · rw [if_neg there]
      cases nodeAt disk path .EXT4_DE_REG_FILE with
      | none => exact iff_of_false there (by simp)
      | some n => exact iff_of_false there (by simp)
  file disk h path noDir := by
    change (nodeAt disk path .EXT4_DE_REG_FILE).isSome = true ↔ ∃ c, memTree disk path = .file c
    unfold memTree at noDir ⊢
    by_cases there : (nodeAt disk path .EXT4_DE_DIR).isSome = true
    · exact absurd (if_pos there) noDir
    · rw [if_neg there]
      cases nodeAt disk path .EXT4_DE_REG_FILE with
      | none => simp
      | some n => simp
  opened disk path flags c named plain := by
    obtain ⟨n,there,bytes⟩ := memTree_file named
    refine ⟨0,disk,{ path := path.bytes, type := .EXT4_DE_REG_FILE, pos := 0 },?_,?_,rfl,rfl⟩
    · have found : MemFs.node disk { path := path.bytes, type := .EXT4_DE_REG_FILE, pos := 0 } = some n := there
      simp [MemFs.memFs,MemFs.fileOpen,found,plain_keeps plain]
    · exact Option.map_eq_some_iff.mpr ⟨n,there,bytes⟩
  size disk h c shown := by
    refine ⟨disk,h,?_,shown,rfl,rfl⟩
    simp [MemFs.memFs,shown]
  read disk h c offset buf shown inside := by
    refine ⟨0,disk,{ h with pos := offset.toNat },disk,
      { h with pos := offset.toNat + (chunk c offset.toNat buf.length).length },?_,?_,shown,rfl,rfl⟩
    · simp [MemFs.memFs,MemFs.fileSeek,shown,inside]
    · have same : MemFs.content disk { h with pos := offset.toNat } = some c := shown
      simp [MemFs.memFs,MemFs.fileRead,same]
  closed disk h c _ := ⟨0,disk,h,rfl,rfl,rfl⟩

theorem started_small (path : Str) (content : List Byte) (named : memTree started.world.service.fs.disk path = .file content) :
    content.length < 2 ^ 63 := by
  obtain ⟨n,there,rfl⟩ := memTree_file named
  have member := List.mem_of_find?_eq_some there
  rw [List.mem_singleton.mp member]
  decide

/-- One file opened twice: reads and seeks of the two descriptors, one of them closed in between. -/
def twoReaders : List Op :=
  [.open aPath 0,.open aPath 0,.read 3 [0,0],.lseek 4 (-1) 2,.read 4 [0,0],.close 3,.fileSize 4,.read 3 [0]]

def readersSee : List OpResult :=
  [.sys (.ok 3),.sys (.ok 4),.data (.ok 2) [1,2],.sys (.ok 4),.data (.ok 1) [5,0],.sys (.ok 0),.sys (.ok 5),
    .data (.error (-9#32)) [0]]

theorem files_refined_two :
    ∃ d k, run (heapPerform MemFs.memFs .none .none) (started,.unused) twoReaders = .ok (readersSee,(d,k)) := by
  have plain : Plain MemFs.memFs 0 := plain_zero memLibrary
  have allowed : Meets (Machine.perform (memTree started.world.service.fs.disk))
      (Allowed (memTree started.world.service.fs.disk) MemFs.memFs)
      Machine.new twoReaders := by
    refine ⟨⟨by decide,plain,by decide,by decide⟩,fun _ _ opened => ?_⟩
    cases opened
    refine ⟨⟨by decide,plain,by decide,by decide⟩,fun _ _ opened => ?_⟩
    cases opened
    refine ⟨fun cur live => ?_,fun _ _ read => ?_⟩
    · cases live
      decide
    · cases read
      refine ⟨fun cur live => ?_,fun _ _ sought => ?_⟩
      · cases live
        decide
      · cases sought
        refine ⟨fun cur live => ?_,fun _ _ read => ?_⟩
        · cases live
          decide
        · cases read
          refine ⟨trivial,fun _ _ closed => ?_⟩
          cases closed
          refine ⟨trivial,fun _ _ asked => ?_⟩
          cases asked
          refine ⟨fun cur live => ?_,fun _ _ _ => trivial⟩
          cases live
  have enough : Meets (heapPerform MemFs.memFs .none .none)
      (Enough (Lcl.perform (serverKernel MemFs.memFs)) (performUses MemFs.memFs .none .none)) (started,.unused) twoReaders :=
    (metered_ran_iff rfl).mp ⟨_,rfl⟩
  obtain ⟨outs,d,k,m,ran,there,_⟩ :=
    (@files_refined _ _ _ memLibrary .none .none _ started rfl rfl started_small _ allowed .unused).mpr enough
  have table : (run (Machine.perform (memTree started.world.service.fs.disk)) Machine.new twoReaders).map Prod.fst =
    .ok readersSee := rfl
  rw [show run (Machine.perform (memTree started.world.service.fs.disk)) Machine.new twoReaders = .ok (outs,m) from there] at table
  cases table
  exact ⟨d,k,ran⟩

end Sel4Linux.FileStack
