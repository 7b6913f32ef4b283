import Sel4Linux.AddressSpace
import Sel4Linux.OpenFiles

/-!
What the Linux layer is for, seen from its tasks: each task has a flat memory of
its own (`TaskSpace`), all of them share a table of open files (`Machine`), and
what they write to descriptors 1 and 2 is printed. A syscall goes between these
(`Answers`): bytes of a file into a memory, bytes of a memory to the console, pages
into a memory or out of it.
-/
namespace Sel4Linux.LinuxMachine
open Sel4Linux.Bytes Sel4Linux.Utf8 Sel4Linux.TaskMem Sel4Linux.Client Sel4Linux.FileSyscalls Sel4Linux.Task Sel4Linux.Syscalls
open Sel4Linux.MemImage Sel4Linux.MemoryCalls Sel4Linux.FlatSpace Sel4Linux.AddressSpace Sel4Linux.OpenFiles Sel4Linux.Files
open Sel4Linux.Ext4 (Errno Externs)
set_option linter.unusedSimpArgs false

/-! ## Memory -/

/-- The bytes from an address on, up to a zero or to where nothing is, `fuel` at most. -/
def stringAt (m : Space Byte) : Nat → Nat → List Byte
  | 0,_ => []
  | fuel + 1,a =>
    match m a with
    | some b => if b = 0 then [] else b :: stringAt m fuel (a + 1)
    | none => []

/-- The bytes of a range that are there. -/
def present (m : Space Byte) (addr n : Nat) : List Byte := (List.range n).filterMap fun i => m (addr + i)

/-- The path at an address. -/
def pathAt (s : TaskSpace) (addr : Word) : Str := Str.fromUtf8Lossy (stringAt s.bytes 4097 addr.toNat)

/-- Bytes put into a memory. -/
def store (s : TaskSpace) (addr : Word) (data : List Byte) : TaskSpace :=
  { s with bytes := put PAGE_SIZE 0 s.bytes addr.toNat data }

/-! ## Files -/

/-- The descriptors of the device files. -/
def deviceNumber (path : Str) : Option Word :=
  if path = DEV_NULL then some 10 else if path = DEV_ZERO then some 11 else if path = DEV_URANDOM then some 12 else none

/-- Descriptors of the console and of two devices: a read or a write does not go to a file. -/
def OnTheSpot (fd : Word) : Prop := fd = 0 ∨ (fd = 1 ∨ fd = 2) ∨ fd = 10 ∨ fd = 11

instance (fd : Word) : Decidable (OnTheSpot fd) := inferInstanceAs (Decidable (_ ∨ _))

/-- Descriptors of the console and of the three devices: nothing else goes to a file. -/
def Reserved (fd : Word) : Prop := fd.toNat ≤ 2 ∨ 10 ≤ fd.toNat ∧ fd.toNat ≤ 12

instance (fd : Word) : Decidable (Reserved fd) := inferInstanceAs (Decidable (_ ∨ _))

theorem reserved_iff {fd : Word} : Reserved fd ↔ fd.toNat ≤ 2 ∨ 10 ≤ fd.toNat ∧ fd.toNat ≤ 12 := Iff.rfl

/-- What a syscall on files comes to: its result, the caller's memory, the open files, and what it prints. -/
structure Outcome where
  result : SysResult
  space : TaskSpace
  files : Machine
  printed : List Byte

section
variable (tree : Str → Node) (s : TaskSpace) (m : Machine)

/-- A result and nothing else. -/
def only (r : SysResult) : Outcome := { result := r, space := s, files := m, printed := [] }

/-- A device has its number; a file is opened at its beginning, with the next descriptor. -/
def openat (pathAddr : Word) : Outcome :=
  match deviceNumber (pathAt s pathAddr) with
  | some fd => only s m (.ok fd)
  | none =>
    match resolve tree (pathAt s pathAddr) with
    | .ok c =>
      { result := .ok (BitVec.ofNat 64 m.next), space := s,
        files := { m.set m.next (some { content := c, offset := 0 }) with next := m.next + 1 }, printed := [] }
    | .error e => only s m (.error (-e))

/-- The console and `/dev/null` give nothing, `/dev/zero` gives zeros, and a file the bytes at its offset, as many as a message
    takes. -/
def read (fd bufAddr count : Word) : Outcome :=
  if fd = 0 ∨ fd = 10 then only s m (.ok 0)
  else if fd = 1 ∨ fd = 2 then only s m (.error EBADF)
  else if fd = 11 then only (store s bufAddr (List.replicate count.toNat 0)) m (.ok count)
  else
    match m.cursor fd.toNat with
    | some cur =>
      let piece := chunk cur.content cur.offset (min count.toNat MAX_DATA_IPC)
      { result := .ok (BitVec.ofNat 64 piece.length), space := store s bufAddr piece,
        files := m.set fd.toNat (some { cur with offset := cur.offset + piece.length }), printed := [] }
    | none => only s m (.error EBADF)

/-- On the console what is there of the buffer is printed; the devices take everything; other descriptors are not open. -/
def write (fd bufAddr count : Word) : Outcome :=
  if fd = 0 then only s m (.error EBADF)
  else if fd = 1 ∨ fd = 2 then
    { result := .ok count, space := s, files := m, printed := present s.bytes bufAddr.toNat count.toNat }
  else if fd = 10 ∨ fd = 11 then only s m (.ok count)
  else if (s.bytes bufAddr.toNat).isSome then only s m (.error EBADF)
  else only s m (.error EFAULT)

def lseek (fd offset : Word) (whence : BitVec 32) : Outcome :=
  if Reserved fd then only s m (.error ESPIPE)
  else
    match m.cursor fd.toNat with
    | some cur =>
      match cur.target offset whence with
      | .ok p =>
        { result := .ok (BitVec.ofNat 64 p), space := s, files := m.set fd.toNat (some { cur with offset := p }), printed := [] }
      | .error e => only s m (.error (-e))
    | none => only s m (.error EBADF)

def close (fd : Word) : Outcome :=
  if Reserved fd then only s m (.ok 0)
  else
    match m.cursor fd.toNat with
    | some _ => { result := .ok 0, space := s, files := m.set fd.toNat none, printed := [] }
    | none => only s m (.error EBADF)

def fstat (fd : Word) : Outcome :=
  if Reserved fd ∨ (m.cursor fd.toNat).isSome then only s m (.ok 0) else only s m (.error EBADF)

def faccessat (pathAddr : Word) : Outcome :=
  match resolve tree (pathAt s pathAddr) with
  | .ok _ => only s m (.ok 0)
  | .error e => only s m (.error (-e))

/-- The syscalls on files. -/
def onFiles (args : SyscallArgs) : Sysno → Option Outcome
  | .openat => some (openat tree s m args.a1)
  | .read => some (read s m args.a0 args.a1 args.a2)
  | .write => some (write s m args.a0 args.a1 args.a2)
  | .lseek => some (lseek s m args.a0 args.a1 (args.a2.setWidth 32))
  | .close => some (close s m args.a0)
  | .fstat => some (fstat s m args.a0)
  | .faccessat => some (faccessat tree s m args.a1)
  | _ => none

end

/-! ## Syscalls -/

/-- The syscalls on pages. -/
def onPages (args : SyscallArgs) : Sysno → Option MemCall
  | .brk => some (.sysBrk args.a0)
  | .mmap => some (.sysMmap args.a0 args.a1 args.a2)
  | .munmap => some (.sysMunmap args.a0 args.a1)
  | _ => none

/-- Syscalls that do nothing to memories or files. -/
def idle : List Sysno :=
  [.open,.stat,.mprotect,.ioctl,.access,.pipe,.dup,.dup2,.nanosleep,.getpid,.fork,.wait4,.kill,.fcntl,.mkdir,.rmdir,.creat,.unlink,
    .getcwd,.chdir,.rename,.getuid,.getgid,.geteuid,.getegid,.futex,.renameat,.pselect6,.ppoll,.readv,.writev,.pread64,.pwrite64,
    .setTidAddress,.ftruncate,.rtSigreturn,.schedYield,.shmget,.shmat,.shmctl,.prlimit64,.sendfile,.utimensat,.mount,.umount2,
    .statfs]

/-- The memories that a syscall which only fills a buffer of its caller may leave. -/
inductive Fills (s : TaskSpace) (args : SyscallArgs) : Sysno → TaskSpace → Prop
  | uname (data : List Byte) : Fills s args .uname (store s args.a0 data)
  | clockGettime : Fills s args .clockGettime (store (store s args.a1 (leBytes 0)) (args.a1 + 8) (leBytes 0))
  | gettimeofday : Fills s args .gettimeofday (store (store s args.a0 (leBytes 0)) (args.a0 + 8) (leBytes 0))
  | sigprocmask (mask : Word) : Fills s args .sigprocmask (if args.a2 = 0 then s else store s args.a2 (leBytes mask))
  | noAction : Fills s args .rtSigaction s
  | rtSigaction (action : List Byte) : Fills s args .rtSigaction (store s args.a2 action)

/-- A syscall of a task with this memory may have this result, leave this memory and these files, and print this. -/
inductive Answers (tree : Str → Node) (s : TaskSpace) (m : Machine) (args : SyscallArgs) : Option Sysno → SysResult → TaskSpace →
    Machine → List Byte → Prop
  | files {no out} (isFiles : onFiles tree s m args no = some out) :
    Answers tree s m args (some no) out.result out.space out.files out.printed
  | pages {no call r s'} (isPages : onPages args no = some call) (allowed : Allowed s call (.syscall r) s') :
    Answers tree s m args (some no) r s' m []
  | fills {no s'} (filled : Fills s args no s') (r : SysResult) : Answers tree s m args (some no) r s' m []
  | exit {no} (isExit : no = .exit ∨ no = .exitGroup) : Answers tree s m args (some no) (.ok 0) s m []
  | exitClears {no} (isExit : no = .exit ∨ no = .exitGroup) (tidAddr : Word) :
    Answers tree s m args (some no) (.ok 0) (store s tidAddr [0,0,0,0]) m []
  | idle {no} (isIdle : no ∈ idle) (r : SysResult) : Answers tree s m args (some no) r s m []
  | unknown : Answers tree s m args none (.error ENOSYS) s m []

/-- A syscall on files leaves nothing open. -/
theorem Answers.of_files {tree : Str → Node} {s s' : TaskSpace} {m m' : Machine} {args : SyscallArgs} {no : Sysno} {out : Outcome}
    {r : SysResult} {printed : List Byte} (isFiles : onFiles tree s m args no = some out)
    (answers : Answers tree s m args (some no) r s' m' printed) :
    r = out.result ∧ s' = out.space ∧ m' = out.files ∧ printed = out.printed := by
  cases answers with
  | files isFiles' =>
    rw [isFiles] at isFiles'
    cases isFiles'
    exact ⟨rfl,rfl,rfl,rfl⟩
  | pages isPages allowed =>
    cases no with
    | brk | mmap | munmap => cases isFiles
    | _ => cases isPages
  | fills filled => cases filled <;> cases isFiles
  | exit isExit => rcases isExit with rfl | rfl <;> cases isFiles
  | exitClears isExit tidAddr => rcases isExit with rfl | rfl <;> cases isFiles
  | idle isIdle =>
    cases no with
    | openat | read | write | lseek | close | fstat | faccessat => exact absurd isIdle (by decide)
    | _ => cases isFiles

/-- The memories, the open files, and what has been printed. -/
structure Linux where
  spaces : Spaces
  files : Machine
  printed : List Byte

/-- What comes from a task: a syscall, or an access to a page that is not there. -/
inductive TaskEvent where
  | syscall (args : SyscallArgs)
  | pageFault (addr : Word)

/-- A task's memory changed. -/
def Linux.withSpace (S : Linux) (tid : Word) (s : TaskSpace) : Linux :=
  { S with spaces := fun other => if other = tid then some s else S.spaces other }

/-- One event of a task, with the result if it is a syscall of a task that is there. -/
inductive Step (tree : Str → Node) : Linux → Word × TaskEvent → Option SysResult → Linux → Prop
  | absent {S tid e} (none' : S.spaces tid = none) : Step tree S (tid,e) none S
  | syscall {S tid args s r s' m' printed} (here : S.spaces tid = some s)
      (answers : Answers tree s S.files args (Sysno.tryFrom args.syscallNo) r s' m' printed) :
    Step tree S (tid,.syscall args) (some r) { S.withSpace tid s' with files := m', printed := S.printed ++ printed }
  | pageFault {S tid addr s} (here : S.spaces tid = some s) :
    Step tree S (tid,.pageFault addr) none (S.withSpace tid (s.back addr.toNat (addr.toNat + 1)))

/-! ## What is described -/

variable {σ φ : Type}

/-- The condition on a call on files: its buffer or path does not wrap around, there is room for it, and what it asks of
    the table of open files the table describes. -/
def FilesFit (X : Externs σ φ) (tree : Str → Node) (s : TaskSpace) (m : Machine) (args : SyscallArgs) : Sysno → Prop
  | .openat => args.a1.toNat + 4097 ≤ 2 ^ 64 ∧
    (deviceNumber (pathAt s args.a1) = none → OpenFiles.Allowed tree X m (.open (pathAt s args.a1) (args.a2.setWidth 32)))
  | .read => args.a1.toNat + args.a2.toNat ≤ 2 ^ 64 ∧ args.a2.toNat ≤ HEAP_SIZE ∧
    (¬ OnTheSpot args.a0 → OpenFiles.Allowed tree X m (.read args.a0 (List.replicate args.a2.toNat 0)))
  | .write => args.a1.toNat + args.a2.toNat ≤ 2 ^ 64 ∧ args.a2.toNat ≤ HEAP_SIZE ∧
    (¬ OnTheSpot args.a0 → m.cursor args.a0.toNat = none)
  | .lseek => ¬ Reserved args.a0 → OpenFiles.Allowed tree X m (.lseek args.a0 args.a1 (args.a2.setWidth 32))
  | .close | .fstat => True
  | .faccessat => args.a1.toNat + 4097 ≤ 2 ^ 64 ∧ OpenFiles.Allowed tree X m (.access (pathAt s args.a1) (args.a2.setWidth 32))
  | _ => False

/-- The buffer that is filled does not wrap around. -/
def BufferFits (raw : List SignalAction → Nat → List Byte) (args : SyscallArgs) : Sysno → Prop
  | .uname => args.a0.toNat + 390 ≤ 2 ^ 64
  | .clockGettime => args.a1.toNat + 16 ≤ 2 ^ 64
  | .gettimeofday => args.a0.toNat + 16 ≤ 2 ^ 64
  | .sigprocmask => args.a2.toNat + 8 ≤ 2 ^ 64
  | .rtSigaction => ∀ actions index, args.a2.toNat + (raw actions index).length ≤ 2 ^ 64
  | _ => False

/-- The condition on a syscall of a task. -/
inductive Described (X : Externs σ φ) (raw : List SignalAction → Nat → List Byte) (tree : Str → Node) (task : Sel4Task)
    (s : TaskSpace) (m : Machine) (args : SyscallArgs) : Option Sysno → Prop
  | files {no} (fit : FilesFit X tree s m args no) : Described X raw tree task s m args (some no)
  | pages {no call} (isPages : onPages args no = some call) (fits : Fits task call) : Described X raw tree task s m args (some no)
  | fills {no} (room : BufferFits raw args no) : Described X raw tree task s m args (some no)
  | exit {no} (isExit : no = .exit ∨ no = .exitGroup) (room : task.clearChildTid.toNat + 4 ≤ 2 ^ 64) :
    Described X raw tree task s m args (some no)
  | idle {no} (isIdle : no ∈ idle) : Described X raw tree task s m args (some no)
  | unknown : Described X raw tree task s m args none

end Sel4Linux.LinuxMachine
