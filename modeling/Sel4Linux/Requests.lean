import Sel4Linux.FsClient
import Sel4Linux.ServiceLoop

/-!
What the service reads out of the messages that the client composes, when the
announced registers arrive over whatever the service's buffer held. Every
request except a write names the same handler with the same arguments
(`request_codec`). A write puts its payload over the byte count, so it arrives
only when the word that the service then reads for the count happens to fit
(`write_arrives_iff`). Byte strings go through the registers by two encoders and
two decoders, one of each in either crate, and any encoder with any decoder is
the identity (`strings_carried`).
-/
namespace Sel4Linux.Requests
open Sel4Linux.Bytes Sel4Linux.Utf8 Sel4Linux.Ipc Sel4Linux.FdTable Sel4Linux.Service Sel4Linux.ServiceLoop Sel4Linux.Client
set_option linter.unusedSimpArgs false

/-! ## Registers of a received message -/

theorem readMr_header (ib : IpcBuffer) (req arg1 arg2 arg3 : Word) (k : Nat) :
    (header ib req arg1 arg2 arg3).readMr k =
      if k = 0 then req else if k = 1 then arg1 else if k = 2 then arg2 else if k = 3 then arg3
      else if k = 4 then 0 else ib.readMr k := by
  simp only [header,readMr_writeMr]
  by_cases small : k < 5
  · interval_cases k <;> simp [IPC_BUFFER_MSG_REGS]
  · simp [show ¬ k = 0 by omega,show ¬ k = 1 by omega,show ¬ k = 2 by omega,show ¬ k = 3 by omega,
      show ¬ k = 4 by omega]

/-- A message of the client that announces `total` registers. -/
def announce (total : Nat) (ib : IpcBuffer) : Message := { info := BitVec.ofNat 64 total &&& 0x7F#64, ib := ib }

/-- The service's registers once the message has arrived over `old`. -/
def received (message : Message) (old : IpcBuffer) : IpcBuffer := transfer message.info message.ib old

theorem readMr_received {total : Nat} (small : total < 128) (ib old : IpcBuffer) (k : Nat) :
    (received (announce total ib) old).readMr k = if k < total then ib.readMr k else old.readMr k := by
  simp only [received,announce,readMr_transfer,infoLength_ofNat small]

/-- The registers of a received request without a payload. -/
theorem received_header (ib old : IpcBuffer) (req arg1 arg2 arg3 : Word) :
    ∃ m, received (announce 5 (header ib req arg1 arg2 arg3)) old = m ∧
      m.readMr 0 = req ∧ m.readMr 1 = arg1 ∧ m.readMr 2 = arg2 ∧ m.readMr 3 = arg3 := by
  refine ⟨_,rfl,?_⟩
  simp [readMr_received,readMr_header]

theorem pathMrs_le {path : Str} (fits : path.len ≤ MAX_PATH_IPC) : pathMrs path ≤ 120 := by
  unfold pathMrs MAX_PATH_IPC Client.PATH_MR_START at *; omega

theorem five_le_pathMrs (path : Str) : 5 ≤ pathMrs path := by unfold pathMrs Client.PATH_MR_START; omega

/-- The registers of a received path request, and the path decoded from it. -/
theorem received_path {path : Str} (fits : path.len ≤ MAX_PATH_IPC) (ib old : IpcBuffer) (req arg3 : Word) :
    ∃ m, received (announce (pathMrs path) (pathRequest ib req path arg3)) old = m ∧
      m.readMr 0 = req ∧ m.readMr 3 = arg3 ∧
      decodePathFromMrs m ServiceLoop.PATH_MR_START (m.readMr 2) = .ok path := by
  obtain ⟨m,isM⟩ : ∃ m, received (announce (pathMrs path) (pathRequest ib req path arg3)) old = m := ⟨_,rfl⟩
  have total := pathMrs_le fits
  have enough := five_le_pathMrs path
  have length : path.bytes.length ≤ 920 := by simpa [Str.len,MAX_PATH_IPC,Client.PATH_MR_START] using fits
  have word : ∀ k, m.readMr k = if k < pathMrs path then (pathRequest ib req path arg3).readMr k else old.readMr k :=
    fun k => isM ▸ readMr_received (by omega) _ _ k
  have front : ∀ k < 5, m.readMr k = (header ib req 0 (BitVec.ofNat 64 path.len) arg3).readMr k := by
    intro k low
    rw [word,if_pos (by omega),pathRequest,encodeBytesToMrs,readMr_packMrs,
      if_neg (by unfold Client.PATH_MR_START; omega)]
  have count : (m.readMr 2).toNat = path.bytes.length := by
    rw [front 2 (by omega),readMr_header]
    simp [Str.len]; omega
  refine ⟨m,isM,by rw [front 0 (by omega),readMr_header]; simp,by rw [front 3 (by omega),readMr_header]; simp,?_⟩
  have words : ∀ i < mrsFor path.bytes.length, m.readMr (5 + i) = packWord path.bytes i := by
    intro i low
    have bound : mrsFor path.bytes.length ≤ 115 := mrsFor_le (by omega)
    rw [word,if_pos (by unfold pathMrs Client.PATH_MR_START Str.len; unfold mrsFor at low; omega),pathRequest,
      encodeBytesToMrs,readMr_packMrs,if_pos (by unfold Client.PATH_MR_START IPC_BUFFER_MSG_REGS; omega)]
    simp [Client.PATH_MR_START]
  have bytes := unpackMrs_of_words m (Nat.le_refl _) words
  rw [List.take_length] at bytes
  have room : path.bytes.length ≤ Service.HEAP_SIZE := heap_room (by omega)
  simp [decodePathFromMrs,count,ServiceLoop.PATH_MR_START,bytes,allocate,room,Str.len]

/-! ## Byte strings between the two crates -/

/-- What writing a byte string into the registers from `start` on has to do: the result is the number of registers
    used and the buffer after. -/
structure Carried (ib : IpcBuffer) (data : List Byte) (start : Nat) (result : Nat × IpcBuffer) : Prop where
  count : result.1 = (data.length + 7) / 8
  client : decodeBytesFromMrs result.2 start (BitVec.ofNat 64 data.length) = .ok data
  server : ∀ text : isUtf8 data = true, decodePathFromMrs result.2 start (BitVec.ofNat 64 data.length) = .ok ⟨data,text⟩
  others : ∀ k, k < start ∨ start + (data.length + 7) / 8 ≤ k → result.2.readMr k = ib.readMr k

/-- The words are read back where they were put. -/
theorem unpackMrs_packMrs (ib : IpcBuffer) {data : List Byte} {start : Nat}
    (fits : start + mrsFor data.length ≤ IPC_BUFFER_MSG_REGS) :
    unpackMrs (packMrs ib data start).2 start data.length = data := by
  have words : ∀ i < mrsFor data.length, (packMrs ib data start).2.readMr (start + i) = packWord data i := by
    intro i inside
    rw [readMr_packMrs,if_pos (by omega),Nat.add_sub_cancel_left]
  rw [unpackMrs_of_words _ (Nat.le_refl _) words,List.take_length]

theorem packMrs_carried (ib : IpcBuffer) {data : List Byte} {start : Nat}
    (fits : start + mrsFor data.length ≤ IPC_BUFFER_MSG_REGS) : Carried ib data start (packMrs ib data start) := by
  have short : data.length ≤ 960 := by simp only [mrsFor,IPC_BUFFER_MSG_REGS] at fits; omega
  have length : (BitVec.ofNat 64 data.length).toNat = data.length := by simp; omega
  have clientRoom : allocate Client.HEAP_SIZE data.length = .ok () :=
    allocate_ok_iff.mpr (by simp only [Client.HEAP_SIZE]; omega)
  have serverRoom : allocate Service.HEAP_SIZE data.length = .ok () :=
    allocate_ok_iff.mpr (by simp only [Service.HEAP_SIZE]; omega)
  refine ⟨rfl,?_,?_,?_⟩
  · simp [decodeBytesFromMrs,length,clientRoom,unpackMrs_packMrs ib fits,bind,Except.bind]
  · intro text
    have back : Str.fromUtf8Lossy data = ⟨data,text⟩ := Str.fromUtf8Lossy_self ⟨data,text⟩
    simp [decodePathFromMrs,length,serverRoom,unpackMrs_packMrs ib fits,back,Str.len,bind,Except.bind]
  · intro k outside
    rw [readMr_packMrs,if_neg (by simp only [mrsFor]; omega)]

/-- Either encoder's registers, read by either decoder, are the string; the other registers stay. -/
theorem strings_carried (ib : IpcBuffer) (data : List Byte) (start : Nat)
    (fits : start + (data.length + 7) / 8 ≤ IPC_BUFFER_MSG_REGS) :
    Carried ib data start (encodeBytesToMrs ib data start) ∧ Carried ib data start (encodeDataToMrs ib data start) :=
  ⟨packMrs_carried ib fits,packMrs_carried ib fits⟩

theorem strings_carried_nine : Carried IpcBuffer.new (List.replicate 9 0x61) 5
      (encodeBytesToMrs IpcBuffer.new (List.replicate 9 0x61) 5) ∧
    Carried IpcBuffer.new (List.replicate 9 0x61) 5 (encodeDataToMrs IpcBuffer.new (List.replicate 9 0x61) 5) :=
  strings_carried IpcBuffer.new (List.replicate 9 0x61) 5 (by simp [IPC_BUFFER_MSG_REGS])

/-! ## Requests other than writes -/

/-- The handler call that an operation on the remote descriptor stands for. -/
def invocation (remote : Word) : Op → Option Invocation
  | .open path flags => some (.openWithPath path flags)
  | .stat path => some (.statWithPath path)
  | .mkdir path => some (.mkdirWithPath path)
  | .unlink path => some (.unlinkWithPath path)
  | .access path _ => some (.accessWithPath path)
  | .read _ buf => some (.request (.Read remote 0 (BitVec.ofNat 64 (min buf.length MAX_DATA_IPC))))
  | .getdents64 _ buf => some (.request (.Getdents64 remote 0 (BitVec.ofNat 64 (min buf.length MAX_DATA_IPC))))
  | .close _ => some (.request (.Close remote))
  | .lseek _ offset whence => some (.lseek remote offset whence)
  | .fileSize _ => some (.request (.FileSize remote))
  | .write .. => none

variable {ω : Type}

/-- The operations that send a request: the path fits, the descriptor is live on `remote`. -/
def Sends (s : Lcl ω) (remote : Word) (op : Op) : Prop :=
  (∀ path, op.path = some path → path.len ≤ MAX_PATH_IPC) ∧
  ∀ fd, op.fd = some fd → 3 ≤ fd.toNat ∧ ∃ entry, s.client.entry fd = some entry ∧ entry.remoteFd = remote

/-- What fits of the data of a write. -/
def payloadOf (data : List Byte) : List Byte := data.take (min data.length MAX_DATA_IPC)

/-- Registers of the message of an operation. -/
def totalMrs : Op → Nat
  | .open path _ | .stat path | .mkdir path | .unlink path | .access path _ => pathMrs path
  | .read .. | .getdents64 .. | .close _ | .lseek .. | .fileSize _ => 5
  | .write _ data => writeMrs (payloadOf data)

/-- The client's buffer as an operation fills it. -/
def composed (ib : IpcBuffer) (remote : Word) : Op → IpcBuffer
  | .open path flags => pathRequest ib REQ_OPEN path (flags.setWidth 64)
  | .stat path => pathRequest ib REQ_STAT path 0
  | .mkdir path => pathRequest ib REQ_MKDIR path 0
  | .unlink path => pathRequest ib REQ_UNLINK path 0
  | .access path mode => pathRequest ib REQ_ACCESS path (mode.setWidth 64)
  | .read _ buf => header ib REQ_READ remote 0 (BitVec.ofNat 64 (min buf.length MAX_DATA_IPC))
  | .getdents64 _ buf => header ib REQ_GETDENTS64 remote 0 (BitVec.ofNat 64 (min buf.length MAX_DATA_IPC))
  | .close _ => header ib REQ_CLOSE remote 0 0
  | .lseek _ offset whence => header ib REQ_LSEEK remote offset (whence.signExtend 64)
  | .fileSize _ => header ib REQ_FILE_SIZE remote 0 0
  | .write _ data => writeRequest ib remote (payloadOf data)

/-- The message of an operation. -/
def messageOf (ib : IpcBuffer) (remote : Word) (op : Op) : Message := announce (totalMrs op) (composed ib remote op)

theorem dispatch_messageOf {s : Lcl ω} {remote : Word} {op : Op} (sends : Sends s remote op)
    (noWrite : ∀ fd data, op ≠ .write fd data) (ib old : IpcBuffer) :
    dispatch (received (messageOf ib remote op) old) = .ok (invocation remote op) := by
  obtain ⟨fits,_⟩ := sends
  cases op with
  | «open» path flags =>
    obtain ⟨m,same,type,arg3,decoded⟩ := received_path (fits path rfl) ib old REQ_OPEN (flags.setWidth 64)
    rw [messageOf,totalMrs,composed,same]
    simp [dispatch,type,arg3,decoded,REQ_OPEN,invocation]
  | stat path =>
    obtain ⟨m,same,type,arg3,decoded⟩ := received_path (fits path rfl) ib old REQ_STAT 0
    rw [messageOf,totalMrs,composed,same]
    simp [dispatch,type,decoded,REQ_STAT,invocation]
  | mkdir path =>
    obtain ⟨m,same,type,arg3,decoded⟩ := received_path (fits path rfl) ib old REQ_MKDIR 0
    rw [messageOf,totalMrs,composed,same]
    simp [dispatch,type,decoded,REQ_MKDIR,invocation]
  | unlink path =>
    obtain ⟨m,same,type,arg3,decoded⟩ := received_path (fits path rfl) ib old REQ_UNLINK 0
    rw [messageOf,totalMrs,composed,same]
    simp [dispatch,type,decoded,REQ_UNLINK,invocation]
  | access path mode =>
    obtain ⟨m,same,type,arg3,decoded⟩ := received_path (fits path rfl) ib old REQ_ACCESS (mode.setWidth 64)
    rw [messageOf,totalMrs,composed,same]
    simp [dispatch,type,decoded,REQ_ACCESS,invocation]
  | read fd buf =>
    obtain ⟨m,same,type,arg1,arg2,arg3⟩ :=
      received_header ib old REQ_READ remote 0 (BitVec.ofNat 64 (min buf.length MAX_DATA_IPC))
    rw [messageOf,totalMrs,composed,same]
    simp [dispatch,type,arg1,arg3,REQ_READ,invocation]
  | getdents64 fd buf =>
    obtain ⟨m,same,type,arg1,arg2,arg3⟩ :=
      received_header ib old REQ_GETDENTS64 remote 0 (BitVec.ofNat 64 (min buf.length MAX_DATA_IPC))
    rw [messageOf,totalMrs,composed,same]
    simp [dispatch,type,arg1,arg3,REQ_GETDENTS64,invocation]
  | close fd =>
    obtain ⟨m,same,type,arg1,arg2,arg3⟩ := received_header ib old REQ_CLOSE remote 0 0
    rw [messageOf,totalMrs,composed,same]
    simp [dispatch,type,arg1,REQ_CLOSE,invocation]
  | lseek fd offset whence =>
    obtain ⟨m,same,type,arg1,arg2,arg3⟩ := received_header ib old REQ_LSEEK remote offset (whence.signExtend 64)
    rw [messageOf,totalMrs,composed,same]
    simp [dispatch,type,arg1,arg2,arg3,REQ_LSEEK,invocation]
  | fileSize fd =>
    obtain ⟨m,same,type,arg1,arg2,arg3⟩ := received_header ib old REQ_FILE_SIZE remote 0 0
    rw [messageOf,totalMrs,composed,same]
    simp [dispatch,type,arg1,REQ_FILE_SIZE,invocation]
  | write fd data => exact absurd rfl (noWrite fd data)

/-! ## One call for each request -/

/-- The client once a reply has come. -/
def replied (s : Lcl ω) (message : Message) (world : ω) (ib : IpcBuffer) : Lcl ω :=
  { s with world := world, ib := ib, sent := s.sent ++ [message] }

/-- The reply's first registers beside the client. -/
def answer (s : Lcl ω) (message : Message) (reply : ω × IpcBuffer) :
    Except Fault (Except Ext4.Errno (Word × Word × Word) × Lcl ω) :=
  .ok (.ok (reply.2.readMr 0,reply.2.readMr 1,reply.2.readMr 2),replied s message reply.1 reply.2)

theorem doCall_eq (K : Kernel ω) (s : Lcl ω) (total : Nat) (ib : IpcBuffer) :
    (s.compose ib).doCall K total = K s.world (announce total ib) >>= fun reply =>
      .ok ((reply.2.readMr 0,reply.2.readMr 1,reply.2.readMr 2),replied s (announce total ib) reply.1 reply.2) := rfl

theorem pathCall_eq (K : Kernel ω) (s : Lcl ω) {path : Str} (fits : path.len ≤ MAX_PATH_IPC) (req arg3 : Word) :
    s.pathCall K req path arg3 =
      K s.world (announce (pathMrs path) (pathRequest s.ib req path arg3)) >>=
        answer s (announce (pathMrs path) (pathRequest s.ib req path arg3)) := by
  rw [Lcl.pathCall,if_neg (by omega),doCall_eq,bind_assoc]
  rfl

/-- A descriptor of a file is none of the standard ones. -/
theorem not_std {fd : Word} (file : 3 ≤ fd.toNat) : ¬ fd = 0 ∧ ¬ (fd = 1 ∨ fd = 2) := by
  constructor
  · rintro rfl; simp at file
  · rintro (rfl | rfl) <;> simp at file

theorem fdCall_eq (K : Kernel ω) (s : Lcl ω) {fd : Word} {entry : FdEntry} (live : s.client.entry fd = some entry)
    (req arg2 arg3 : Word) :
    s.fdCall K req fd arg2 arg3 =
      K s.world (announce 5 (header s.ib req entry.remoteFd arg2 arg3)) >>=
        answer s (announce 5 (header s.ib req entry.remoteFd arg2 arg3)) := by
  rw [Lcl.fdCall,live]
  simp only [doCall_eq,bind_assoc]
  rfl

/-- A kernel that answers every call with the same reply. -/
def replying (reply : ω × IpcBuffer) : Kernel ω := fun _ _ => .ok reply

/-- The one call of a write. -/
theorem write_sends (K : Kernel ω) (s : Lcl ω) {fd : Word} {entry : FdEntry} (live : s.client.entry fd = some entry)
    (file : 3 ≤ fd.toNat) (data : List Byte) :
    s.write K fd data =
      K s.world (announce (writeMrs (payloadOf data)) (writeRequest s.ib entry.remoteFd (payloadOf data))) >>= fun reply =>
        s.write (replying reply) fd data := by
  have notStd := not_std file
  simp only [Lcl.write,if_neg notStd.1,if_neg notStd.2,live,doCall_eq,bind_assoc,payloadOf,replying,Runs.ok_bind]

/-- The one call of a read. -/
theorem read_sends (K : Kernel ω) (s : Lcl ω) {fd : Word} {entry : FdEntry} (live : s.client.entry fd = some entry)
    (file : 3 ≤ fd.toNat) (buf : List Byte) :
    s.read K fd buf = K s.world (messageOf s.ib entry.remoteFd (.read fd buf)) >>= fun reply => s.read (replying reply) fd buf := by
  have notStd := not_std file
  simp only [Lcl.read,if_neg notStd.1,if_neg notStd.2,fdCall_eq _ s live,bind_assoc,messageOf,totalMrs,composed,replying,
    Runs.ok_bind]

/-- The one call of a close. -/
theorem close_sends (K : Kernel ω) (s : Lcl ω) {fd : Word} {entry : FdEntry} (live : s.client.entry fd = some entry)
    (file : 3 ≤ fd.toNat) :
    s.close K fd = K s.world (messageOf s.ib entry.remoteFd (.close fd)) >>= fun reply => s.close (replying reply) fd := by
  simp only [Lcl.close,if_neg (show ¬ fd.toNat ≤ 2 by omega),fdCall_eq _ s live,bind_assoc,messageOf,totalMrs,composed,replying,
    Runs.ok_bind]

/-- The one call of a seek. -/
theorem lseek_sends (K : Kernel ω) (s : Lcl ω) {fd : Word} {entry : FdEntry} (live : s.client.entry fd = some entry)
    (offset : Word) (whence : BitVec 32) :
    s.lseek K fd offset whence = K s.world (messageOf s.ib entry.remoteFd (.lseek fd offset whence)) >>= fun reply =>
      s.lseek (replying reply) fd offset whence := by
  simp only [Lcl.lseek,Lcl.fdOnly,fdCall_eq _ s live,bind_assoc,messageOf,totalMrs,composed,replying,Runs.ok_bind]

/-- An operation that sends does nothing before its one call; the call's message is `messageOf`,
    and what follows depends on the kernel through the reply only. -/
theorem perform_sends {s : Lcl ω} {remote : Word} {op : Op} (sends : Sends s remote op) (K : Kernel ω) :
    s.perform K op = K s.world (messageOf s.ib remote op) >>= fun reply => s.perform (replying reply) op := by
  obtain ⟨fits,live⟩ := sends
  cases op with
  | «open» path flags =>
    simp only [Lcl.perform,Lcl.open,pathCall_eq _ s (fits path rfl),bind_assoc,messageOf,totalMrs,composed,replying,Runs.ok_bind]
  | stat path =>
    simp only [Lcl.perform,Lcl.stat,pathCall_eq _ s (fits path rfl),bind_assoc,messageOf,totalMrs,composed,replying,Runs.ok_bind]
  | mkdir path =>
    simp only [Lcl.perform,Lcl.mkdir,Lcl.pathOnly,pathCall_eq _ s (fits path rfl),bind_assoc,messageOf,totalMrs,composed,replying,
      Runs.ok_bind]
  | unlink path =>
    simp only [Lcl.perform,Lcl.unlink,Lcl.pathOnly,pathCall_eq _ s (fits path rfl),bind_assoc,messageOf,totalMrs,composed,replying,
      Runs.ok_bind]
  | access path mode =>
    simp only [Lcl.perform,Lcl.access,Lcl.pathOnly,pathCall_eq _ s (fits path rfl),bind_assoc,messageOf,totalMrs,composed,replying,
      Runs.ok_bind]
  | read fd buf =>
    obtain ⟨file,entry,isLive,rfl⟩ := live fd rfl
    rw [Lcl.perform,read_sends K s isLive file,bind_assoc]
    rfl
  | getdents64 fd buf =>
    obtain ⟨_,entry,isLive,rfl⟩ := live fd rfl
    simp only [Lcl.perform,Lcl.getdents64,fdCall_eq _ s isLive,bind_assoc,messageOf,totalMrs,composed,replying,Runs.ok_bind]
  | close fd =>
    obtain ⟨file,entry,isLive,rfl⟩ := live fd rfl
    rw [Lcl.perform,close_sends K s isLive file,bind_assoc]
    rfl
  | lseek fd offset whence =>
    obtain ⟨_,entry,isLive,rfl⟩ := live fd rfl
    rw [Lcl.perform,lseek_sends K s isLive,bind_assoc]
    rfl
  | fileSize fd =>
    obtain ⟨_,entry,isLive,rfl⟩ := live fd rfl
    simp only [Lcl.perform,Lcl.fileSize,Lcl.fdOnly,fdCall_eq _ s isLive,bind_assoc,messageOf,totalMrs,composed,replying,
      Runs.ok_bind]
  | write fd data =>
    obtain ⟨file,entry,isLive,rfl⟩ := live fd rfl
    rw [Lcl.perform,write_sends K s isLive file,bind_assoc]
    rfl

theorem totalMrs_le {s : Lcl ω} {remote : Word} {op : Op} (sends : Sends s remote op) : totalMrs op ≤ 120 := by
  obtain ⟨fits,_⟩ := sends
  cases op with
  | «open» path _ => exact pathMrs_le (fits path rfl)
  | stat path => exact pathMrs_le (fits path rfl)
  | mkdir path => exact pathMrs_le (fits path rfl)
  | unlink path => exact pathMrs_le (fits path rfl)
  | access path _ => exact pathMrs_le (fits path rfl)
  | write _ data =>
    simp only [totalMrs,writeMrs,payloadOf,MAX_DATA_IPC,Client.DATA_MR_START,List.length_take]
    omega
  | _ => exact (by decide : 5 ≤ 120)

/-- A request other than a write reaches the handler it names with the arguments it was given,
    in at most 120 registers, whatever the service's buffer held before. -/
theorem request_codec (s : Lcl ω) (remote : Word) (op : Op) (sends : Sends s remote op)
    (noWrite : ∀ fd data, op ≠ .write fd data) (old : IpcBuffer) :
    ∃ (ib : IpcBuffer) (inv : Invocation), totalMrs op ≤ 120 ∧ infoLength (announce (totalMrs op) ib).info = totalMrs op ∧
      (∀ K : Kernel ω, s.perform K op =
        K s.world (announce (totalMrs op) ib) >>= fun reply => s.perform (replying reply) op) ∧
      invocation remote op = some inv ∧ dispatch (received (announce (totalMrs op) ib) old) = .ok (some inv) := by
  obtain ⟨inv,named⟩ : ∃ inv, invocation remote op = some inv := by
    cases op with
    | write fd data => exact absurd rfl (noWrite fd data)
    | _ => exact ⟨_,rfl⟩
  have total := totalMrs_le sends
  have decoded := dispatch_messageOf sends noWrite s.ib old
  rw [named] at decoded
  exact ⟨composed s.ib remote op,inv,total,infoLength_ofNat (by omega),perform_sends sends,named,decoded⟩

/-- A client with one open descriptor. -/
def oneOpen : Lcl Unit :=
  { client := { fdTable := [none,none,none,some { remoteFd := 3, path := ascii ['/','a'] }], nextFd := 4 },
    ib := IpcBuffer.new, world := (), sent := [], console := [] }

theorem oneOpen_live : oneOpen.client.entry 3 = some { remoteFd := 3, path := ascii ['/','a'] } := rfl

theorem request_codec_lseek : ∃ (ib : IpcBuffer) (inv : Invocation), 5 ≤ 120 ∧ infoLength (announce 5 ib).info = 5 ∧
    (∀ K : Kernel Unit, oneOpen.perform K (.lseek 3 (-8) 1) =
      K () (announce 5 ib) >>= fun reply => oneOpen.perform (replying reply) (.lseek 3 (-8) 1)) ∧
    invocation 3 (.lseek 3 (-8) 1) = some inv ∧ dispatch (received (announce 5 ib) IpcBuffer.new) = .ok (some inv) :=
  request_codec oneOpen 3 (.lseek 3 (-8) 1)
    ⟨by simp [Op.path],by simp [Op.fd,oneOpen,FsClient.entry,lookup]⟩ (by simp) IpcBuffer.new

/-! ## Writes -/

/-- The word that the service takes for the byte count of a write: the payload runs over it
    from the ninth byte on, and shorter messages do not announce its register. -/
def countSeen (old : IpcBuffer) (data : List Byte) : Word :=
  if data.length ≤ 8 then old.readMr 3 else packWord data 1

/-- When the bytes of a write arrive: they are text, and the word taken for the count is their
    number, or one or two less where they end in U+FFFD. -/
def WriteArrives (old : IpcBuffer) (data : List Byte) : Prop :=
  isUtf8 data = true ∧ (data.length = (countSeen old data).toNat ∨
    (replacement <:+ data ∧
      ((countSeen old data).toNat + 1 = data.length ∨ (countSeen old data).toNat + 2 = data.length)))

/-- The registers of a received write. -/
theorem received_write {data : List Byte} (nonempty : 1 ≤ data.length) (fits : data.length ≤ MAX_DATA_IPC)
    (ib old : IpcBuffer) (remote : Word) :
    ∃ m, received (announce (writeMrs data) (writeRequest ib remote data)) old = m ∧
      m.readMr 0 = REQ_WRITE ∧ m.readMr 1 = remote ∧ m.readMr 3 = countSeen old data ∧
      ∀ i < mrsFor data.length, m.readMr (2 + i) = packWord data i := by
  have length : data.length ≤ 944 := by simpa [MAX_DATA_IPC,Client.DATA_MR_START] using fits
  have count : mrsFor data.length ≤ 118 ∧ 1 ≤ mrsFor data.length := ⟨mrsFor_le (by omega),lt_mrsFor_iff.mpr (by omega)⟩
  have word : ∀ k, (received (announce (writeMrs data) (writeRequest ib remote data)) old).readMr k =
      if k < 2 + mrsFor data.length then
        if 2 ≤ k ∧ k < 2 + mrsFor data.length then packWord data (k - 2)
        else (header ib REQ_WRITE remote 0 (BitVec.ofNat 64 data.length)).readMr k
      else old.readMr k := by
    intro k
    have total : writeMrs data = 2 + mrsFor data.length := rfl
    rw [readMr_received (by omega),total]
    by_cases sent : k < 2 + mrsFor data.length
    · simp only [if_pos sent,writeRequest,encodeBytesToMrs,readMr_packMrs,Client.DATA_MR_START,IPC_BUFFER_MSG_REGS,
        show k < 120 by omega,and_true]
    · simp only [if_neg sent]
  refine ⟨_,rfl,?_,?_,?_,?_⟩
  · rw [word,if_pos (by omega),if_neg (by omega),readMr_header]; rfl
  · rw [word,if_pos (by omega),if_neg (by omega),readMr_header]; rfl
  · rw [word]
    unfold countSeen
    by_cases short : data.length ≤ 8
    · have one : mrsFor data.length ≤ 1 := mrsFor_le (by omega)
      rw [if_neg (by omega),if_pos short]
    · have two : 1 < mrsFor data.length := lt_mrsFor_iff.mpr (by omega)
      rw [if_pos (by omega),if_pos (by omega),if_neg short]
  · intro i low
    rw [word,if_pos (by omega),if_pos (by omega),show 2 + i - 2 = i by omega]

theorem payloadOf_eq {data : List Byte} (fits : data.length ≤ MAX_DATA_IPC) : payloadOf data = data := by
  rw [payloadOf,List.take_of_length_le (by omega)]

/-- Exactly when a write of 1 to 944 bytes makes the service call its handler with those bytes. -/
theorem write_arrives_iff (s : Lcl ω) {fd : Word} {entry : FdEntry} (live : s.client.entry fd = some entry)
    (file : 3 ≤ fd.toNat) {data : List Byte} (nonempty : 1 ≤ data.length) (fits : data.length ≤ 944) (old : IpcBuffer) :
    ∃ (total : Nat) (ib : IpcBuffer), total ≤ 120 ∧
      (∀ K : Kernel ω, s.write K fd data = K s.world (announce total ib) >>= fun reply => s.write (replying reply) fd data) ∧
      (dispatch (received (announce total ib) old) = .ok (some (.writeWithData entry.remoteFd data)) ↔
        WriteArrives old data) := by
  have inMrs : data.length ≤ MAX_DATA_IPC := by simpa [MAX_DATA_IPC,Client.DATA_MR_START] using fits
  refine ⟨writeMrs data,writeRequest s.ib entry.remoteFd data,?_,?_,?_⟩
  · unfold writeMrs Client.DATA_MR_START; omega
  · intro K
    have sends := write_sends K s live file data
    rwa [payloadOf_eq inMrs] at sends
  · obtain ⟨m,same,type,arg1,arg3,words⟩ := received_write nonempty inMrs s.ib old entry.remoteFd
    rw [same]
    set n := (countSeen old data).toNat with isN
    have read : dispatch m = decodePathFromMrs m ServiceLoop.DATA_MR_START (m.readMr 3) >>= fun bytes =>
        .ok (some (.writeWithData entry.remoteFd bytes.bytes)) := by
      simp [dispatch,type,arg1,REQ_WRITE]
    -- Bytes up to the end of the payload are read back as they were packed.
    have front : n ≤ data.length → unpackMrs m 2 n = data.take n := fun within =>
      unpackMrs_of_words m within (fun i low => words i (lt_mrsFor_iff.mpr (by rw [lt_mrsFor_iff] at low; omega)))
    rw [read,Runs.bind_ok_iff]
    constructor
    · rintro ⟨bytes,decoded,called⟩
      simp only [Except.ok.injEq,Option.some.injEq,Invocation.writeWithData.injEq,true_and] at called
      simp only [decodePathFromMrs,Runs.bind_ok_iff,Except.ok.injEq,arg3,← isN] at decoded
      obtain ⟨_,_,_,_,rfl⟩ := decoded
      have whole : lossy (unpackMrs m 2 n) = data := called
      have within : n ≤ data.length := by
        have longer := length_le_lossy (unpackMrs m 2 n)
        rwa [whole,unpackMrs_length] at longer
      rw [front within,lossy_take_iff] at whole
      refine ⟨whole.1,?_⟩
      rcases whole.2 with all | cut
      · exact .inl (by omega)
      · exact .inr cut
    · rintro ⟨text,count⟩
      have within : n ≤ data.length := by
        rcases count with all | ⟨_,one | two⟩
        · omega
        · omega
        · omega
      have whole : lossy (unpackMrs m 2 n) = data := by
        rw [front within,lossy_take_iff]
        refine ⟨text,?_⟩
        rcases count with all | cut
        · exact .inl (by omega)
        · exact .inr cut
      have room : n ≤ Service.HEAP_SIZE ∧ data.length ≤ Service.HEAP_SIZE :=
        ⟨heap_room (by omega),heap_room fits⟩
      refine ⟨Str.fromUtf8Lossy (unpackMrs m 2 n),?_,by simp [whole]⟩
      simp [decodePathFromMrs,arg3,← isN,ServiceLoop.DATA_MR_START,allocate,room,Str.len,whole]

/-- Text of nine bytes or more arrives when its second word spells its length. -/
theorem write_arrives_nine : ∃ (total : Nat) (ib : IpcBuffer), total ≤ 120 ∧
    (∀ K : Kernel Unit, oneOpen.write K 3 [1,2,3,4,5,6,7,8,9] =
      K () (announce total ib) >>= fun reply => oneOpen.write (replying reply) 3 [1,2,3,4,5,6,7,8,9]) ∧
    (dispatch (received (announce total ib) IpcBuffer.new) = .ok (some (.writeWithData 3 [1,2,3,4,5,6,7,8,9])) ↔
      WriteArrives IpcBuffer.new [1,2,3,4,5,6,7,8,9]) :=
  write_arrives_iff oneOpen oneOpen_live (by decide) (by decide) (by decide) IpcBuffer.new

/-- A write of the one byte `A` over a service buffer of zeros calls the handler with no bytes at all. -/
theorem write_lost : ∃ (total : Nat) (ib : IpcBuffer),
    (∀ K : Kernel Unit, oneOpen.write K 3 [0x41#8] =
      K () (announce total ib) >>= fun reply => oneOpen.write (replying reply) 3 [0x41#8]) ∧
    dispatch (received (announce total ib) IpcBuffer.new) = .ok (some (.writeWithData 3 [])) ∧
    dispatch (received (announce total ib) IpcBuffer.new) ≠ .ok (some (.writeWithData 3 [0x41#8])) := by
  refine ⟨3,writeRequest IpcBuffer.new 3 [0x41#8],fun K => ?_,by decide,by decide⟩
  exact write_sends K oneOpen oneOpen_live (by decide) [0x41#8]

end Sel4Linux.Requests
