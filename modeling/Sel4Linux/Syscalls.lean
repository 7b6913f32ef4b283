import Sel4Linux.Execve
import Sel4Linux.Tcb

/-!
The syscalls of the Linux layer by number (`lcl/src/syscall/mod.rs`). A syscall
gets its number and arguments from a register frame (`SyscallArgs.ofRegs`), and
leaves the tasks and the client of the file service as its handler does
(`dispatch`). Numbers without a handler and handlers without an implementation
answer ENOSYS.
-/
namespace Sel4Linux.Syscalls
open Sel4Linux.Bytes Sel4Linux.Utf8 Sel4Linux.Ipc Sel4Linux.TaskMem Sel4Linux.Tcb Sel4Linux.Client Sel4Linux.FileSyscalls
open Sel4Linux.Task Sel4Linux.Execve Sel4Linux.Runs
open Sel4Linux.Ext4 (Errno)
set_option linter.unusedSimpArgs false

inductive Sysno where
  | read | write | open | close | stat | fstat | lseek | mmap | mprotect | munmap | brk | ioctl | access | pipe | dup | dup2
  | nanosleep | getpid | fork | execve | exit | wait4 | kill | fcntl | mkdir | rmdir | creat | unlink | getcwd | chdir
  | rename | getdents64 | getuid | getgid | geteuid | getegid | futex | clockGettime | exitGroup | openat | mkdirat
  | unlinkat | renameat | faccessat | pselect6 | ppoll | readv | writev | pread64 | pwrite64 | setTidAddress | ftruncate
  | sigprocmask | rtSigaction | rtSigreturn | schedYield | uname | shmget | shmat | shmctl | gettimeofday | prlimit64
  | sendfile | fstatat | utimensat | mount | umount2 | statfs
  deriving DecidableEq

/-- The numbers of `Sysno::try_from`. -/
def sysnos : List (Nat × Sysno) :=
  [(0,.read),(1,.write),(2,.open),(3,.close),(4,.stat),(5,.fstat),(8,.lseek),(9,.mmap),(10,.mprotect),(11,.munmap),
    (12,.brk),(13,.rtSigaction),(14,.sigprocmask),(15,.rtSigreturn),(16,.ioctl),(17,.pread64),(18,.pwrite64),(19,.readv),
    (20,.writev),(21,.access),(22,.pipe),(24,.schedYield),(32,.dup),(33,.dup2),(35,.nanosleep),(39,.getpid),(40,.sendfile),
    (57,.fork),(59,.execve),(60,.exit),(61,.wait4),(62,.kill),(63,.uname),(72,.fcntl),(77,.ftruncate),(79,.getcwd),
    (80,.chdir),(82,.rename),(83,.mkdir),(84,.rmdir),(85,.creat),(87,.unlink),(96,.gettimeofday),(98,.getuid),
    (102,.getuid),(104,.getgid),(107,.geteuid),(108,.getegid),(137,.statfs),(165,.mount),(166,.umount2),(202,.futex),
    (217,.getdents64),(218,.setTidAddress),(228,.clockGettime),(231,.exitGroup),(257,.openat),(258,.mkdirat),
    (262,.fstatat),(263,.unlinkat),(264,.renameat),(269,.faccessat),(270,.pselect6),(271,.ppoll),(280,.utimensat),
    (29,.shmget),(30,.shmat),(31,.shmctl),(302,.prlimit64)]

def Sysno.tryFrom (value : Word) : Option Sysno := (sysnos.find? fun entry => entry.1 = value.toNat).map fun entry => entry.2

/-- What `handle_syscall` reads from the registers. -/
structure SyscallArgs where
  syscallNo : Word
  a0 : Word
  a1 : Word
  a2 : Word
  a3 : Word
  a4 : Word
  a5 : Word
  deriving DecidableEq

def SyscallArgs.ofRegs (regs : Regs) : SyscallArgs :=
  { syscallNo := word regs 0, a0 := word regs 5, a1 := word regs 4, a2 := word regs 3, a3 := word regs 10,
    a4 := word regs 8, a5 := word regs 9 }

/-- The Linux layer: its tasks, and the thread that serves them. -/
structure Layer (ω : Type) where
  tasks : TaskMap
  lcl : Lcl ω

variable {ω : Type}

/-- The result of a syscall that needs nothing but the task. -/
def Layer.taskCall (L : Layer ω) (tid : Word) (answer : SysResult × Sel4Task) : Except Fault (SysResult × Layer ω) :=
  .ok (answer.1,{ L with tasks := L.tasks.insert tid answer.2 })

/-- The result of a file syscall. -/
def Layer.fileCall (L : Layer ω) (tid : Word) (task : Sel4Task) (answer : Except Fault (Answer ω)) :
    Except Fault (SysResult × Layer ω) := do
  let ((r,mem),lcl) ← answer
  .ok (r,{ tasks := L.tasks.insert tid { task with mem := mem }, lcl := lcl })

def ENOSYS : BitVec 32 := 38
def EPERM : BitVec 32 := 1

/-- `handle_syscall` on the task `task`, which is `tid`'s; `raw` gives the bytes of a `SignalAction`. -/
def dispatch (K : Kernel ω) (raw : List SignalAction → Nat → List Byte) (L : Layer ω) (tid : Word) (task : Sel4Task)
    (args : SyscallArgs) : Except Fault (SysResult × Layer ω) :=
  let ⟨syscallNo,a0,a1,a2,a3,_,_⟩ := args
  match Sysno.tryFrom syscallNo with
  | none => .ok (.error ENOSYS,L)
  | some sysno =>
    match sysno with
    | .exit => L.taskCall tid (sysExit task (a0.setWidth 32))
    | .exitGroup => L.taskCall tid (sysExit task (a0.setWidth 32))
    | .getpid => L.taskCall tid (sysGetpid task)
    | .execve => do
      let ((r,task),lcl) ← sysExecve K L.lcl task a0 a1 a2
      .ok (r,{ tasks := L.tasks.insert tid task, lcl := lcl })
    | .getuid => .ok (.ok 0,L)
    | .getgid => .ok (.ok 0,L)
    | .geteuid => .ok (.ok 0,L)
    | .getegid => .ok (.ok 0,L)
    | .schedYield => .ok (.ok 0,L)
    | .setTidAddress => L.taskCall tid (sysSetTidAddress task a0)
    | .uname => L.taskCall tid (sysUname task a0)
    | .brk => L.taskCall tid (sysBrk task a0)
    | .mmap => L.taskCall tid (sysMmap task a0 a1 a2)
    | .munmap => L.taskCall tid (sysMunmap task a0 a1)
    | .read => L.fileCall tid task (sysRead K L.lcl task.mem a0 a1 a2)
    | .write => L.fileCall tid task (sysWrite K L.lcl task.mem a0 a1 a2)
    | .openat => L.fileCall tid task (sysOpenat K L.lcl task.mem (a0.setWidth 32) a1 (a2.setWidth 32) (a3.setWidth 32))
    | .close => L.fileCall tid task (sysClose K L.lcl task.mem a0)
    | .fstat => L.fileCall tid task (sysFstat K L.lcl task.mem a0 a1)
    | .fstatat => L.fileCall tid task (sysFstatat K L.lcl task.mem (a0.setWidth 32) a1 a2 (a3.setWidth 32))
    | .lseek => L.fileCall tid task (sysLseek K L.lcl task.mem a0 a1 (a2.setWidth 32))
    | .ioctl => .ok (.ok 0,L)
    | .fcntl => .ok (.ok 0,L)
    | .readv => .ok (.ok 0,L)
    | .writev => .ok (.ok 0,L)
    | .pread64 => .ok (.ok 0,L)
    | .pwrite64 => .ok (.ok 0,L)
    | .mkdirat => L.fileCall tid task (sysMkdirat K L.lcl task.mem (a0.setWidth 32) a1 (a2.setWidth 32))
    | .unlinkat => L.fileCall tid task (sysUnlinkat K L.lcl task.mem (a0.setWidth 32) a1 (a2.setWidth 32))
    | .renameat => .ok (.ok 0,L)
    | .ftruncate => .ok (.ok 0,L)
    | .getdents64 => L.fileCall tid task (sysGetdents64 K L.lcl task.mem a0 a1 a2)
    | .pipe => .ok (.error ENOSYS,L)
    | .dup => .ok (.error ENOSYS,L)
    | .dup2 => .ok (.error ENOSYS,L)
    | .sendfile => .ok (.ok 0,L)
    | .faccessat =>
      L.fileCall tid task (sysFaccessat K L.lcl task.mem (a0.setWidth 32) a1 (a2.setWidth 32) (a3.setWidth 32))
    | .utimensat => .ok (.ok 0,L)
    | .statfs => .ok (.ok 0,L)
    | .mount => .ok (.error EPERM,L)
    | .umount2 => .ok (.error EPERM,L)
    | .clockGettime => L.taskCall tid (sysZeroTime task a1)
    | .gettimeofday => L.taskCall tid (sysZeroTime task a0)
    | .rtSigaction => L.taskCall tid (sysRtSigaction task raw a0 a1 a2)
    | .sigprocmask => L.taskCall tid (sysSigprocmask task (a0.setWidth 32) a1 a2)
    | .rtSigreturn => L.taskCall tid (sysRtSigreturn task)
    | .kill =>
      let (r,tasks) := sysKill L.tasks a0 a1
      .ok (r,{ L with tasks := tasks })
    | .mprotect => .ok (.ok 0,L)
    | .nanosleep => .ok (.ok 0,L)
    | _ => .ok (.error ENOSYS,L)

end Sel4Linux.Syscalls
