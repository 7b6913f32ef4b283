import Sel4Linux.FsClient
import Sel4Linux.TaskMem

/-!
The file syscalls of the Linux layer (`lcl/src/syscall/fs.rs`): some descriptor
numbers are answered on the spot, everything else is handed to the client of the
file service. The task's memory goes in as it is at the call and comes back with
the result.
-/
namespace Sel4Linux.FileSyscalls
open Sel4Linux.Bytes Sel4Linux.Utf8 Sel4Linux.Ipc Sel4Linux.TaskMem Sel4Linux.Client
set_option linter.unusedSimpArgs false

def EBADF : BitVec 32 := 9
def EFAULT : BitVec 32 := 14
def ESPIPE : BitVec 32 := 29

def DEV_NULL : Str := ascii ['/','d','e','v','/','n','u','l','l']
def DEV_ZERO : Str := ascii ['/','d','e','v','/','z','e','r','o']
def DEV_URANDOM : Str := ascii ['/','d','e','v','/','u','r','a','n','d','o','m']

/-- The loop of `read_cstr_from_task`, for `fuel` more bytes at most. -/
def cstrBytes (task : TaskMemInfo) : Nat → Word → List Byte
  | 0, _ => []
  | fuel + 1, a =>
    match task.readBytes a [0] with
    | some (b :: _) => if b = 0 then [] else b :: cstrBytes task fuel (a + 1)
    | _ => []

/-- `read_cstr_from_task`: the loop ends once it has more than 4096 bytes. -/
def readCstrFromTask (task : TaskMemInfo) (addr : Word) : Str := Str.fromUtf8Lossy (cstrBytes task 4097 addr)

/-- The 144 bytes of a `struct stat`. -/
def structStat (ino nlink : Word) (mode : BitVec 32) (size blksize blocks : Word) : List Byte :=
  List.replicate 8 0 ++ leBytes ino ++ leBytes nlink ++ (leBytes (mode.setWidth 64)).take 4 ++ List.replicate 20 0 ++
    leBytes size ++ leBytes blksize ++ leBytes blocks ++ List.replicate 72 0

/-- `Err(e) => Err(-e)`. -/
def negated : SysResult → SysResult
  | .ok v => .ok v
  | .error e => .error (-e)

variable {ω : Type} (K : Kernel ω) (s : Lcl ω) (task : TaskMemInfo)

/-- What a syscall leaves: its result, the task's memory, the layer's state. -/
abbrev Answer (ω : Type) := (SysResult × TaskMemInfo) × Lcl ω

def sysRead (fd bufAddr count : Word) : Except Fault (Answer ω) :=
  if fd = 0 then .ok ((.ok 0,task),s)
  else if fd = 1 ∨ fd = 2 then .ok ((.error EBADF,task),s)
  else if fd = 10 then .ok ((.ok 0,task),s)
  else if fd = 11 then do
    let _ ← allocate HEAP_SIZE count.toNat
    let (written,task) := task.writeBytes bufAddr (List.replicate count.toNat 0)
    .ok ((if written then .ok count else .error EFAULT,task),s)
  else do
    let _ ← allocate HEAP_SIZE count.toNat
    let ((r,buf),s) ← s.read K fd (List.replicate count.toNat 0)
    match r with
    | .ok bytesRead =>
      if bytesRead.toNat ≤ buf.length then
        let (written,task) := task.writeBytes bufAddr (buf.take bytesRead.toNat)
        .ok ((if written then .ok bytesRead else .error EFAULT,task),s)
      else .error .range
    | .error e => .ok ((.error (-e),task),s)

/-- The bytes that `sys_write` puts on the console: those that can be read, one at a time. -/
def consoleBytes (bufAddr count : Word) : List Byte :=
  ((List.range count.toNat).map fun i => (task.readBytes (bufAddr + BitVec.ofNat 64 i) [0]).getD []).flatten

def sysWrite (fd bufAddr count : Word) : Except Fault (Answer ω) :=
  if fd = 0 then .ok ((.error EBADF,task),s)
  else if fd = 1 ∨ fd = 2 then .ok ((.ok count,task),{ s with console := s.console ++ consoleBytes task bufAddr count })
  else if fd = 10 then .ok ((.ok count,task),s)
  else if fd = 11 then .ok ((.ok count,task),s)
  else do
    let _ ← allocate HEAP_SIZE count.toNat
    match task.readBytes bufAddr (List.replicate count.toNat 0) with
    | none => .ok ((.error EFAULT,task),s)
    | some data => do
      let (r,s) ← s.write K fd data
      .ok ((negated r,task),s)

def sysOpenat (_dirfd : BitVec 32) (pathAddr : Word) (flags _mode : BitVec 32) : Except Fault (Answer ω) :=
  let path := readCstrFromTask task pathAddr
  if path = DEV_NULL then .ok ((.ok 10,task),s)
  else if path = DEV_ZERO then .ok ((.ok 11,task),s)
  else if path = DEV_URANDOM then .ok ((.ok 12,task),s)
  else do
    let (r,s) ← s.open K path flags
    .ok ((negated r,task),s)

def sysClose (fd : Word) : Except Fault (Answer ω) :=
  if fd.toNat ≤ 2 then .ok ((.ok 0,task),s)
  else if 10 ≤ fd.toNat ∧ fd.toNat ≤ 12 then .ok ((.ok 0,task),s)
  else do
    let (r,s) ← s.close K fd
    match r with
    | .ok _ => .ok ((.ok 0,task),s)
    | .error e => .ok ((.error (-e),task),s)

def sysLseek (fd offset : Word) (whence : BitVec 32) : Except Fault (Answer ω) :=
  if fd.toNat ≤ 2 ∨ 10 ≤ fd.toNat ∧ fd.toNat ≤ 12 then .ok ((.error ESPIPE,task),s)
  else do
    let (r,s) ← s.lseek K fd offset whence
    .ok ((negated r,task),s)

/-- `Ok(_) => Ok(0)` and `Err(e) => Err(-e)`. -/
def doneOr : SysResult → SysResult
  | .ok _ => .ok 0
  | .error e => .error (-e)

def sysFstat (fd _statAddr : Word) : Except Fault (Answer ω) :=
  if fd.toNat ≤ 2 ∨ 10 ≤ fd.toNat ∧ fd.toNat ≤ 12 then .ok ((.ok 0,task),s)
  else do
    let (r,s) ← s.fileSize K fd
    .ok ((doneOr r,task),s)

def sysFstatat (_dirfd : BitVec 32) (pathAddr statAddr : Word) (_flags : BitVec 32) : Except Fault (Answer ω) := do
  let (r,s) ← s.stat K (readCstrFromTask task pathAddr)
  match r with
  | .ok (mode,size,ino,nlink) =>
    let buf := structStat ino (nlink.setWidth 64) mode size 4096 ((size + 511) / 512)
    let (written,task) := task.writeBytes statAddr buf
    .ok ((if written then .ok 0 else .error EFAULT,task),s)
  | .error e => .ok ((.error (-e),task),s)

def sysMkdirat (_dirfd : BitVec 32) (pathAddr : Word) (_mode : BitVec 32) : Except Fault (Answer ω) := do
  let (r,s) ← s.mkdir K (readCstrFromTask task pathAddr)
  .ok ((doneOr r,task),s)

def sysUnlinkat (_dirfd : BitVec 32) (pathAddr : Word) (_flags : BitVec 32) : Except Fault (Answer ω) := do
  let (r,s) ← s.unlink K (readCstrFromTask task pathAddr)
  .ok ((doneOr r,task),s)

def sysFaccessat (_dirfd : BitVec 32) (pathAddr : Word) (mode _flags : BitVec 32) : Except Fault (Answer ω) := do
  let (r,s) ← s.access K (readCstrFromTask task pathAddr) mode
  .ok ((doneOr r,task),s)

def sysGetdents64 (fd bufAddr count : Word) : Except Fault (Answer ω) := do
  let _ ← allocate HEAP_SIZE count.toNat
  let ((r,buf),s) ← s.getdents64 K fd (List.replicate count.toNat 0)
  match r with
  | .ok bytesRead =>
    if 0 < bytesRead then
      if bytesRead.toNat ≤ buf.length then
        let (written,task) := task.writeBytes bufAddr (buf.take bytesRead.toNat)
        .ok ((if written then .ok bytesRead else .error EFAULT,task),s)
      else .error .range
    else .ok ((.ok 0,task),s)
  | .error e => .ok ((.error (-e),task),s)

/-- A file syscall with its arguments. -/
inductive Call where
  | openat (dirfd : BitVec 32) (pathAddr : Word) (flags mode : BitVec 32)
  | read (fd bufAddr count : Word)
  | write (fd bufAddr count : Word)
  | lseek (fd offset : Word) (whence : BitVec 32)
  | close (fd : Word)
  deriving DecidableEq

/-- A task's syscall, with the task's memory at that moment. -/
structure Event where
  task : TaskMemInfo
  call : Call

/-- The layer's answer to a syscall. -/
def syscall (e : Event) : Except Fault (Answer ω) :=
  match e.call with
  | .openat dirfd pathAddr flags mode => sysOpenat K s e.task dirfd pathAddr flags mode
  | .read fd bufAddr count => sysRead K s e.task fd bufAddr count
  | .write fd bufAddr count => sysWrite K s e.task fd bufAddr count
  | .lseek fd offset whence => sysLseek K s e.task fd offset whence
  | .close fd => sysClose K s e.task fd

/-- The descriptor that a syscall is on. -/
def Call.fd : Call → Option Word
  | .openat .. => none
  | .read fd _ _ | .write fd _ _ | .lseek fd _ _ | .close fd => some fd

end Sel4Linux.FileSyscalls
