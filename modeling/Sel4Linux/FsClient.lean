import Sel4Linux.Service

/-!
The client of the file service (`lcl/src/fs/ipc_client.rs`). Everything on the
other side of `seL4_Call` is a parameter (`Kernel`): a state, and what a call
with this message does to that state and to the caller's IPC buffer. The
messages handed over so far are kept as history.
-/
namespace Sel4Linux.Client
open Sel4Linux.Bytes Sel4Linux.Utf8 Sel4Linux.Ipc Sel4Linux.FdTable
open Sel4Linux.Ext4 (Errno)
set_option linter.unusedSimpArgs false

abbrev SysResult := Except Errno Word

/-- The heap that the client's allocations come from: that of the root task (`root-task/src/allocator.rs`), which is
    the program that calls the layer. -/
def HEAP_SIZE : Nat := 0x100000

/-- `size_of::<Option<FdEntry>>()`: a word and a string. -/
def FD_ENTRY_SIZE : Nat := 32

def REQ_OPEN : Word := 1
def REQ_READ : Word := 2
def REQ_WRITE : Word := 3
def REQ_CLOSE : Word := 4
def REQ_STAT : Word := 5
def REQ_GETDENTS64 : Word := 6
def REQ_MKDIR : Word := 7
def REQ_UNLINK : Word := 8
def REQ_ACCESS : Word := 9
def REQ_FILE_SIZE : Word := 10
def REQ_LSEEK : Word := 11

def RESP_OK : Word := 0

def PATH_MR_START : Nat := 5
def DATA_MR_START : Nat := 2
def MAX_PATH_IPC : Nat := (120 - PATH_MR_START) * 8
def MAX_DATA_IPC : Nat := (120 - DATA_MR_START) * 8

structure FdEntry where
  remoteFd : Word
  path : Str
  deriving DecidableEq

structure FsClient where
  fdTable : List (Option FdEntry)
  nextFd : Word
  deriving DecidableEq

def FsClient.new : FsClient := { fdTable := [none,none,none], nextFd := 3 }

/-- A message as `seL4_Call` gets it: the info word and the buffer. -/
structure Message where
  info : Word
  ib : IpcBuffer
  deriving DecidableEq

/-- What a call on the file service's endpoint does, over states `ω` of everything else:
    the state and the caller's buffer afterwards, or no reply. -/
abbrev Kernel (ω : Type) := ω → Message → Except Fault (ω × IpcBuffer)

/-- The client thread: its descriptor table, its IPC buffer, the rest of the system, the messages
    it has sent and the characters it has put on the debug console. -/
structure Lcl (ω : Type) where
  client : FsClient
  ib : IpcBuffer
  world : ω
  sent : List Message
  console : List Byte

def encodeBytesToMrs (ib : IpcBuffer) (data : List Byte) (startMr : Nat) : Nat × IpcBuffer := packMrs ib data startMr

def decodeBytesFromMrs (ib : IpcBuffer) (startMr : Nat) (len : Word) : Except Fault (List Byte) := do
  let _ ← allocate HEAP_SIZE len.toNat
  .ok (unpackMrs ib startMr len.toNat)

variable {ω : Type} (K : Kernel ω) (s : Lcl ω)

/-- `fd_table.get(fd)`. -/
def FsClient.entry (c : FsClient) (fd : Word) : Option FdEntry := lookup c.fdTable fd

/-- The buffer rewritten by `with_ipc_buffer`. -/
def Lcl.compose (ib : IpcBuffer) : Lcl ω := { s with ib := ib }

/-- `do_call`: MR0, MR1 and MR2 of the reply. -/
def Lcl.doCall (totalMrs : Nat) : Except Fault ((Word × Word × Word) × Lcl ω) := do
  let message : Message := { info := BitVec.ofNat 64 totalMrs &&& 0x7F#64, ib := s.ib }
  let (world,ib) ← K s.world message
  .ok ((ib.readMr 0,ib.readMr 1,ib.readMr 2),{ s with world := world, ib := ib, sent := s.sent ++ [message] })

/-- The five words in front of every request. -/
def header (ib : IpcBuffer) (req arg1 arg2 arg3 : Word) : IpcBuffer :=
  ((((ib.writeMr 0 req).writeMr 1 arg1).writeMr 2 arg2).writeMr 3 arg3).writeMr 4 0

/-- A request with a path: its length in MR2, one argument in MR3, its bytes from MR5 on. -/
def pathRequest (ib : IpcBuffer) (req : Word) (path : Str) (arg3 : Word) : IpcBuffer :=
  (encodeBytesToMrs (header ib req 0 (BitVec.ofNat 64 path.len) arg3) path.bytes PATH_MR_START).2

/-- Registers of a request with a path. -/
def pathMrs (path : Str) : Nat := PATH_MR_START + (path.len + 7) / 8

/-- `Err(-36)` for paths that do not fit, the reply's MR0 to MR2 otherwise. -/
def Lcl.pathCall (req : Word) (path : Str) (arg3 : Word) : Except Fault (Except Errno (Word × Word × Word) × Lcl ω) :=
  if MAX_PATH_IPC < path.len then .ok (.error (-36#32),s)
  else do
    let (reply,s) ← (s.compose (pathRequest s.ib req path arg3)).doCall K (pathMrs path)
    .ok (.ok reply,s)

/-- `Err(-9)` for descriptors without an entry, the reply's MR0 to MR2 otherwise. -/
def Lcl.fdCall (req fd arg2 arg3 : Word) : Except Fault (Except Errno (Word × Word × Word) × Lcl ω) :=
  match s.client.entry fd with
  | some entry => do
    let (reply,s) ← (s.compose (header s.ib req entry.remoteFd arg2 arg3)).doCall K 5
    .ok (.ok reply,s)
  | none => .ok (.error (-9#32),s)

/-! ## Requests with a path -/

def Lcl.open (path : Str) (flags : BitVec 32) : Except Fault (SysResult × Lcl ω) := do
  let (reply,s) ← s.pathCall K REQ_OPEN path (flags.setWidth 64)
  match reply with
  | .error e => .ok (.error e,s)
  | .ok (status,result,_) =>
    if status = RESP_OK then do
      let localFd := s.client.nextFd
      let table ← growTable HEAP_SIZE FD_ENTRY_SIZE s.client.fdTable localFd.toNat
      let _ ← allocate HEAP_SIZE path.len
      let entry : FdEntry := { remoteFd := result, path := path }
      .ok (.ok localFd,
        { s with client := { fdTable := table.set localFd.toNat (some entry), nextFd := s.client.nextFd + 1 } })
    else .ok (.error (result.setWidth 32),s)

/-- `stat`: mode, size, inode number and link count. -/
def Lcl.stat (path : Str) : Except Fault (Except Errno (BitVec 32 × Word × Word × BitVec 32) × Lcl ω) := do
  let (reply,s) ← s.pathCall K REQ_STAT path 0
  match reply with
  | .error e => .ok (.error e,s)
  | .ok (status,r1,r2) =>
    if status = RESP_OK then
      let sizeHi := s.ib.readMr 3
      let ino := s.ib.readMr 4
      let nlink := s.ib.readMr 5
      let size := (sizeHi <<< 32) ||| r2
      .ok (.ok (r1.setWidth 32,size,ino,nlink.setWidth 32),s)
    else .ok (.error (r1.setWidth 32),s)

/-- `Ok(0)` for success: `mkdir`, `unlink` and `access` return nothing else. -/
def Lcl.pathOnly (req : Word) (path : Str) (arg3 : Word) : Except Fault (SysResult × Lcl ω) := do
  let (reply,s) ← s.pathCall K req path arg3
  match reply with
  | .error e => .ok (.error e,s)
  | .ok (status,r,_) => if status = RESP_OK then .ok (.ok 0,s) else .ok (.error (r.setWidth 32),s)

def Lcl.mkdir (path : Str) : Except Fault (SysResult × Lcl ω) := s.pathOnly K REQ_MKDIR path 0

def Lcl.unlink (path : Str) : Except Fault (SysResult × Lcl ω) := s.pathOnly K REQ_UNLINK path 0

def Lcl.access (path : Str) (mode : BitVec 32) : Except Fault (SysResult × Lcl ω) :=
  s.pathOnly K REQ_ACCESS path (mode.setWidth 64)

/-! ## Requests on a descriptor -/

/-- The bytes that a payload of `r1` bytes puts into the caller's buffer, and how many. -/
def copyOut (buf data : List Byte) (r1 : Word) : Nat × List Byte :=
  let n := min (min r1.toNat buf.length) data.length
  (n,data.take n ++ buf.drop n)

/-- `read`, with the caller's buffer afterwards. -/
def Lcl.read (fd : Word) (buf : List Byte) : Except Fault ((SysResult × List Byte) × Lcl ω) :=
  if fd = 0 then .ok ((.ok 0,buf),s)
  else if fd = 1 ∨ fd = 2 then .ok ((.error (-9#32),buf),s)
  else do
    let (reply,s) ← s.fdCall K REQ_READ fd 0 (BitVec.ofNat 64 (min buf.length MAX_DATA_IPC))
    match reply with
    | .error e => .ok ((.error e,buf),s)
    | .ok (status,r1,_) =>
      if status = RESP_OK ∧ 0 < r1 then do
        let data ← decodeBytesFromMrs s.ib DATA_MR_START r1
        let (n,buf) := copyOut buf data r1
        .ok ((.ok (BitVec.ofNat 64 n),buf),s)
      else if status = RESP_OK then .ok ((.ok 0,buf),s)
      else .ok ((.error (r1.setWidth 32),buf),s)

/-- The message of `write`: the header first, then the payload from MR2 on. -/
def writeRequest (ib : IpcBuffer) (remoteFd : Word) (payload : List Byte) : IpcBuffer :=
  (encodeBytesToMrs (header ib REQ_WRITE remoteFd 0 (BitVec.ofNat 64 payload.length)) payload DATA_MR_START).2

/-- Registers of a write. -/
def writeMrs (payload : List Byte) : Nat := DATA_MR_START + (payload.length + 7) / 8

def Lcl.write (fd : Word) (data : List Byte) : Except Fault (SysResult × Lcl ω) :=
  if fd = 0 then .ok (.error (-9#32),s)
  else if fd = 1 ∨ fd = 2 then .ok (.ok (BitVec.ofNat 64 data.length),{ s with console := s.console ++ data })
  else
    match s.client.entry fd with
    | some entry => do
      let payload := data.take (min data.length MAX_DATA_IPC)
      let ((status,r1,_),s) ← (s.compose (writeRequest s.ib entry.remoteFd payload)).doCall K (writeMrs payload)
      if status = RESP_OK then .ok (.ok r1,s) else .ok (.error (r1.setWidth 32),s)
    | none => .ok (.error (-9#32),s)

def Lcl.close (fd : Word) : Except Fault (SysResult × Lcl ω) :=
  if fd.toNat ≤ 2 then .ok (.ok 0,s)
  else do
    let (reply,s) ← s.fdCall K REQ_CLOSE fd 0 0
    match reply with
    | .error e => .ok (.error e,s)
    | .ok (status,r1,_) =>
      if status = RESP_OK then
        .ok (.ok 0,{ s with client := { s.client with fdTable := s.client.fdTable.set fd.toNat none } })
      else .ok (.error (r1.setWidth 32),s)

/-- `getdents64`, with the caller's buffer afterwards: the result is the service's byte count. -/
def Lcl.getdents64 (fd : Word) (buf : List Byte) : Except Fault ((SysResult × List Byte) × Lcl ω) := do
  let (reply,s) ← s.fdCall K REQ_GETDENTS64 fd 0 (BitVec.ofNat 64 (min buf.length MAX_DATA_IPC))
  match reply with
  | .error e => .ok ((.error e,buf),s)
  | .ok (status,r1,_) =>
    if status = RESP_OK ∧ 0 < r1 then do
      let data ← decodeBytesFromMrs s.ib DATA_MR_START r1
      let (_,buf) := copyOut buf data r1
      .ok ((.ok r1,buf),s)
    else if status = RESP_OK then .ok ((.ok 0,buf),s)
    else .ok ((.error (r1.setWidth 32),buf),s)

/-- `Ok(r1)` for success: `lseek` and `file_size`. -/
def Lcl.fdOnly (req fd arg2 arg3 : Word) : Except Fault (SysResult × Lcl ω) := do
  let (reply,s) ← s.fdCall K req fd arg2 arg3
  match reply with
  | .error e => .ok (.error e,s)
  | .ok (status,r1,_) => if status = RESP_OK then .ok (.ok r1,s) else .ok (.error (r1.setWidth 32),s)

def Lcl.lseek (fd offset : Word) (whence : BitVec 32) : Except Fault (SysResult × Lcl ω) :=
  s.fdOnly K REQ_LSEEK fd offset (whence.signExtend 64)

def Lcl.fileSize (fd : Word) : Except Fault (SysResult × Lcl ω) := s.fdOnly K REQ_FILE_SIZE fd 0 0

/-! ## All operations -/

/-- A client operation with its arguments; `buf` is the caller's buffer. -/
inductive Op where
  | open (path : Str) (flags : BitVec 32)
  | stat (path : Str)
  | read (fd : Word) (buf : List Byte)
  | write (fd : Word) (data : List Byte)
  | close (fd : Word)
  | getdents64 (fd : Word) (buf : List Byte)
  | lseek (fd offset : Word) (whence : BitVec 32)
  | mkdir (path : Str)
  | unlink (path : Str)
  | access (path : Str) (mode : BitVec 32)
  | fileSize (fd : Word)
  deriving DecidableEq

/-- What an operation returns, with the caller's buffer where it has one. -/
inductive OpResult where
  | sys (result : SysResult)
  | stat (result : Except Errno (BitVec 32 × Word × Word × BitVec 32))
  | data (result : SysResult) (buf : List Byte)
  deriving DecidableEq

/-- The error of a result. -/
def OpResult.errno : OpResult → Option Errno
  | .sys (.error e) | .stat (.error e) | .data (.error e) _ => some e
  | _ => none

/-- The operation's run. -/
def Lcl.perform : Op → Except Fault (OpResult × Lcl ω)
  | .open path flags => do let (r,s) ← s.open K path flags; .ok (.sys r,s)
  | .stat path => do let (r,s) ← s.stat K path; .ok (.stat r,s)
  | .read fd buf => do let ((r,buf),s) ← s.read K fd buf; .ok (.data r buf,s)
  | .write fd data => do let (r,s) ← s.write K fd data; .ok (.sys r,s)
  | .close fd => do let (r,s) ← s.close K fd; .ok (.sys r,s)
  | .getdents64 fd buf => do let ((r,buf),s) ← s.getdents64 K fd buf; .ok (.data r buf,s)
  | .lseek fd offset whence => do let (r,s) ← s.lseek K fd offset whence; .ok (.sys r,s)
  | .mkdir path => do let (r,s) ← s.mkdir K path; .ok (.sys r,s)
  | .unlink path => do let (r,s) ← s.unlink K path; .ok (.sys r,s)
  | .access path mode => do let (r,s) ← s.access K path mode; .ok (.sys r,s)
  | .fileSize fd => do let (r,s) ← s.fileSize K fd; .ok (.sys r,s)

/-- The descriptor that an operation names. -/
def Op.fd : Op → Option Word
  | .read fd _ | .write fd _ | .close fd | .getdents64 fd _ | .lseek fd _ _ | .fileSize fd => some fd
  | _ => none

/-- The path that an operation names. -/
def Op.path : Op → Option Str
  | .open path _ | .stat path | .mkdir path | .unlink path | .access path _ => some path
  | _ => none

end Sel4Linux.Client
