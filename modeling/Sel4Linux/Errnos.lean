import Sel4Linux.Exception

/-!
Signs of error numbers. The client of the file service has negative ones, its own
and the service's (`NegativeErrors`); the file syscalls turn them round, and the
other handlers have positive ones. The layer negates what a handler returns, so
that a task sees an error as it should, except those of execve, which keeps the
client's sign (`failure_seen_iff`).
-/
namespace Sel4Linux.Errnos
open Sel4Linux.Bytes Sel4Linux.Utf8 Sel4Linux.Ipc Sel4Linux.TaskMem Sel4Linux.Tcb Sel4Linux.Client Sel4Linux.FileSyscalls
open Sel4Linux.Task Sel4Linux.Execve Sel4Linux.Syscalls Sel4Linux.Exception Sel4Linux.Runs
open Sel4Linux.Ext4 (Errno)
set_option linter.unusedSimpArgs false

def Negative (e : Errno) : Prop := -4095 ≤ e.toInt ∧ e.toInt ≤ -1

def Positive (e : Errno) : Prop := 1 ≤ e.toInt ∧ e.toInt ≤ 4095

instance (e : Errno) : Decidable (Negative e) := inferInstanceAs (Decidable (_ ∧ _))

instance (e : Errno) : Decidable (Positive e) := inferInstanceAs (Decidable (_ ∧ _))

def ErrnoValue (rax : Word) : Prop := -4095 ≤ rax.toInt ∧ rax.toInt ≤ -1

theorem positive_neg {e : Errno} (negative : Negative e) : Positive (-e) := by
  obtain ⟨low,high⟩ := negative
  have value : (-e).toInt = -e.toInt := by
    rw [BitVec.toInt_neg]
    exact Int.bmod_eq_of_le (by omega) (by omega)
  rw [Positive]
  omega

theorem retV_toInt {e : Errno} (small : -4095 ≤ e.toInt ∧ e.toInt ≤ 4095) : (retV (.error e)).toInt = -e.toInt := by
  rw [retV]
  rw [BitVec.toInt_neg,BitVec.toInt_signExtend_of_le (by decide)]
  exact Int.bmod_eq_of_le (by omega) (by omega)

theorem positive_seen {e : Errno} (positive : Positive e) : ErrnoValue (retV (.error e)) := by
  obtain ⟨low,high⟩ := positive
  have value := retV_toInt (e := e) ⟨by omega,by omega⟩
  rw [ErrnoValue]
  omega

theorem negative_unseen {e : Errno} (negative : Negative e) : ¬ ErrnoValue (retV (.error e)) := by
  obtain ⟨low,high⟩ := negative
  have value := retV_toInt (e := e) ⟨by omega,by omega⟩
  rw [ErrnoValue]
  omega

/-- The error of a result, if it is one, is of a kind. -/
def OnError {α : Type} (P : Errno → Prop) : Except Errno α → Prop
  | .ok _ => True
  | .error e => P e

/-- The file service answers an error with a negative number. -/
def NegativeErrors {ω : Type} (K : Kernel ω) : Prop :=
  ∀ world message world' ib, K world message = .ok (world',ib) → ib.readMr 0 ≠ RESP_OK → Negative ((ib.readMr 1).setWidth 32)

section
variable {ω : Type} {K : Kernel ω} (service : NegativeErrors K) (s : Lcl ω)

/-! ## The client -/

/-- A reply with an error has a negative number, and so has a request that is not made. -/
def Answered : Except Errno (Word × Word × Word) → Prop
  | .error e => Negative e
  | .ok (status,r1,_) => status ≠ RESP_OK → Negative (r1.setWidth 32)

private theorem ensures_answer {α : Type} {Q : α → Prop} {call : Except Fault (Except Errno (Word × Word × Word) × Lcl ω)}
    {next : Except Errno (Word × Word × Word) × Lcl ω → Except Fault α} (called : Ensures call fun out => Answered out.1)
    (passed : ∀ e s, Negative e → Ensures (next (.error e,s)) Q)
    (replied : ∀ status r1 r2 s, (status ≠ RESP_OK → Negative (r1.setWidth 32)) → Ensures (next (.ok (status,r1,r2),s)) Q) :
    Ensures (call >>= next) Q := by
  refine ensures_bind called ?_
  rintro ⟨reply,s⟩ answered
  cases reply with
  | error e => exact passed e s answered
  | ok reply => exact replied reply.1 reply.2.1 reply.2.2 s answered

/-- A call whose reply is passed on, with a value of its own where it is good. -/
private theorem replied_negative {α : Type} {call : Except Fault (Except Errno (Word × Word × Word) × Lcl ω)}
    (called : Ensures call fun out => Answered out.1) (value : Word → Word → Lcl ω → α) :
    Ensures (call >>= fun (reply,s) =>
      match reply with
      | .error e => (.ok (.error e,s) : Except Fault (Except Errno α × Lcl ω))
      | .ok (status,r1,r2) => if status = RESP_OK then .ok (.ok (value r1 r2 s),s) else .ok (.error (r1.setWidth 32),s))
      fun out => OnError Negative out.1 := by
  refine ensures_answer called (fun e s negative => ensures_ok negative) ?_
  intro status r1 r2 s answered
  dsimp only
  split
  · exact ensures_ok trivial
  · next failed => exact ensures_ok (answered failed)

include service

theorem doCall_answered (totalMrs : Nat) : Ensures (s.doCall K totalMrs) fun out => Answered (.ok out.1) := by
  rw [Lcl.doCall]
  dsimp only
  intro out ran
  obtain ⟨⟨world,ib⟩,reply,isOut⟩ := bind_ok_iff.mp ran
  cases isOut
  exact service _ _ _ _ reply

theorem pathCall_answered (req : Word) (path : Str) (arg3 : Word) :
    Ensures (s.pathCall K req path arg3) fun out => Answered out.1 := by
  rw [Lcl.pathCall]
  split
  · exact ensures_ok (by decide : Negative (-36#32))
  · exact ensures_bind (doCall_answered service _ _) fun out answered => ensures_ok answered

theorem fdCall_answered (req fd arg2 arg3 : Word) : Ensures (s.fdCall K req fd arg2 arg3) fun out => Answered out.1 := by
  rw [Lcl.fdCall]
  split
  · exact ensures_bind (doCall_answered service _ _) fun out answered => ensures_ok answered
  · exact ensures_ok (by decide : Negative (-9#32))

theorem open_negative (path : Str) (flags : BitVec 32) : Ensures (s.open K path flags) fun out => OnError Negative out.1 := by
  rw [Lcl.open]
  refine ensures_answer (pathCall_answered service s _ _ _) (fun e s negative => ensures_ok negative) ?_
  intro status r1 r2 s answered
  dsimp only
  split
  · exact ensures_then fun table => ensures_then fun _ => ensures_ok trivial
  · next failed => exact ensures_ok (answered failed)

theorem stat_negative (path : Str) : Ensures (s.stat K path) fun out => OnError Negative out.1 := by
  rw [Lcl.stat]
  exact replied_negative (pathCall_answered service s _ _ _) fun r1 r2 s =>
    (r1.setWidth 32,(s.ib.readMr 3 <<< 32) ||| r2,s.ib.readMr 4,(s.ib.readMr 5).setWidth 32)

theorem pathOnly_negative (req : Word) (path : Str) (arg3 : Word) :
    Ensures (s.pathOnly K req path arg3) fun out => OnError Negative out.1 := by
  rw [Lcl.pathOnly]
  exact replied_negative (pathCall_answered service s _ _ _) fun _ _ _ => 0

theorem fdOnly_negative (req fd arg2 arg3 : Word) :
    Ensures (s.fdOnly K req fd arg2 arg3) fun out => OnError Negative out.1 := by
  rw [Lcl.fdOnly]
  exact replied_negative (fdCall_answered service s _ _ _ _) fun r1 _ _ => r1

theorem read_negative (fd : Word) (buf : List Byte) : Ensures (s.read K fd buf) fun out => OnError Negative out.1.1 := by
  rw [Lcl.read]
  split
  · exact ensures_ok trivial
  · split
    · exact ensures_ok (by decide : Negative (-9#32))
    · refine ensures_answer (fdCall_answered service s _ _ _ _) (fun e s negative => ensures_ok negative) ?_
      intro status r1 r2 s answered
      dsimp only
      split
      · exact ensures_then fun data => ensures_ok trivial
      · split
        · exact ensures_ok trivial
        · next failed => exact ensures_ok (answered failed)

theorem write_negative (fd : Word) (data : List Byte) : Ensures (s.write K fd data) fun out => OnError Negative out.1 := by
  rw [Lcl.write]
  split
  · exact ensures_ok (by decide : Negative (-9#32))
  · split
    · exact ensures_ok trivial
    · split
      · refine ensures_bind (doCall_answered service _ _) ?_
        rintro ⟨⟨status,r1,_⟩,s⟩ answered
        dsimp only
        split
        · exact ensures_ok trivial
        · next failed => exact ensures_ok (answered failed)
      · exact ensures_ok (by decide : Negative (-9#32))

theorem close_negative (fd : Word) : Ensures (s.close K fd) fun out => OnError Negative out.1 := by
  rw [Lcl.close]
  split
  · exact ensures_ok trivial
  · refine ensures_answer (fdCall_answered service s _ _ _ _) (fun e s negative => ensures_ok negative) ?_
    intro status r1 r2 s answered
    dsimp only
    split
    · exact ensures_ok trivial
    · next failed => exact ensures_ok (answered failed)

theorem getdents64_negative (fd : Word) (buf : List Byte) :
    Ensures (s.getdents64 K fd buf) fun out => OnError Negative out.1.1 := by
  rw [Lcl.getdents64]
  refine ensures_answer (fdCall_answered service s _ _ _ _) (fun e s negative => ensures_ok negative) ?_
  intro status r1 r2 s answered
  dsimp only
  split
  · exact ensures_then fun data => ensures_ok trivial
  · split
    · exact ensures_ok trivial
    · next failed => exact ensures_ok (answered failed)

/-! ## The handlers -/

omit service in
private theorem onError_negated {r : SysResult} (negative : OnError Negative r) : OnError Positive (negated r) := by
  cases r with
  | ok v => trivial
  | error e => exact positive_neg negative

omit service in
private theorem onError_doneOr {r : SysResult} (negative : OnError Negative r) : OnError Positive (doneOr r) := by
  cases r with
  | ok v => trivial
  | error e => exact positive_neg negative

omit service in
private theorem onError_written (written : Bool) (v : Word) :
    OnError Positive (if written then .ok v else .error EFAULT : SysResult) := by
  cases written with
  | false => exact (by decide : Positive EFAULT)
  | true => trivial

variable (mem : TaskMemInfo)

theorem sysRead_positive (fd bufAddr count : Word) :
    Ensures (sysRead K s mem fd bufAddr count) fun out => OnError Positive out.1.1 := by
  rw [sysRead]
  split
  · exact ensures_ok trivial
  · split
    · exact ensures_ok (by decide : Positive EBADF)
    · split
      · exact ensures_ok trivial
      · split
        · exact ensures_then fun _ => ensures_ok (onError_written _ count)
        · refine ensures_then fun _ => ensures_bind (read_negative service s _ _) ?_
          rintro ⟨⟨r,buf⟩,s⟩ negative
          cases r with
          | error e => exact ensures_ok (positive_neg negative)
          | ok bytesRead =>
            dsimp only
            split
            · exact ensures_ok (onError_written _ bytesRead)
            · exact ensures_error

theorem sysWrite_positive (fd bufAddr count : Word) :
    Ensures (sysWrite K s mem fd bufAddr count) fun out => OnError Positive out.1.1 := by
  rw [sysWrite]
  split
  · exact ensures_ok (by decide : Positive EBADF)
  · split
    · exact ensures_ok trivial
    · split
      · exact ensures_ok trivial
      · split
        · exact ensures_ok trivial
        · refine ensures_then fun _ => ?_
          split
          · exact ensures_ok (by decide : Positive EFAULT)
          · next data there =>
            exact ensures_bind (write_negative service s fd data) fun out negative => ensures_ok (onError_negated negative)

theorem sysOpenat_positive (dirfd : BitVec 32) (pathAddr : Word) (flags mode : BitVec 32) :
    Ensures (sysOpenat K s mem dirfd pathAddr flags mode) fun out => OnError Positive out.1.1 := by
  rw [sysOpenat]
  dsimp only
  split
  · exact ensures_ok trivial
  · split
    · exact ensures_ok trivial
    · split
      · exact ensures_ok trivial
      · exact ensures_bind (open_negative service s _ flags) fun out negative => ensures_ok (onError_negated negative)

theorem sysClose_positive (fd : Word) : Ensures (sysClose K s mem fd) fun out => OnError Positive out.1.1 := by
  rw [sysClose]
  split
  · exact ensures_ok trivial
  · split
    · exact ensures_ok trivial
    · refine ensures_bind (close_negative service s fd) ?_
      rintro ⟨r,s⟩ negative
      cases r with
      | ok v => exact ensures_ok trivial
      | error e => exact ensures_ok (positive_neg negative)

theorem sysLseek_positive (fd offset : Word) (whence : BitVec 32) :
    Ensures (sysLseek K s mem fd offset whence) fun out => OnError Positive out.1.1 := by
  rw [sysLseek]
  split
  · exact ensures_ok (by decide : Positive ESPIPE)
  · exact ensures_bind (fdOnly_negative service s _ _ _ _) fun out negative => ensures_ok (onError_negated negative)

theorem sysFstat_positive (fd statAddr : Word) :
    Ensures (sysFstat K s mem fd statAddr) fun out => OnError Positive out.1.1 := by
  rw [sysFstat]
  split
  · exact ensures_ok trivial
  · exact ensures_bind (fdOnly_negative service s _ _ _ _) fun _ negative => ensures_ok (onError_doneOr negative)

theorem sysFstatat_positive (dirfd : BitVec 32) (pathAddr statAddr : Word) (flags : BitVec 32) :
    Ensures (sysFstatat K s mem dirfd pathAddr statAddr flags) fun out => OnError Positive out.1.1 := by
  rw [sysFstatat]
  refine ensures_bind (stat_negative service s _) ?_
  rintro ⟨r,s⟩ negative
  cases r with
  | error e => exact ensures_ok (positive_neg negative)
  | ok st => exact ensures_ok (onError_written _ 0)

theorem sysMkdirat_positive (dirfd : BitVec 32) (pathAddr : Word) (mode : BitVec 32) :
    Ensures (sysMkdirat K s mem dirfd pathAddr mode) fun out => OnError Positive out.1.1 :=
  ensures_bind (pathOnly_negative service s _ _ _) fun _ negative => ensures_ok (onError_doneOr negative)

theorem sysUnlinkat_positive (dirfd : BitVec 32) (pathAddr : Word) (flags : BitVec 32) :
    Ensures (sysUnlinkat K s mem dirfd pathAddr flags) fun out => OnError Positive out.1.1 :=
  ensures_bind (pathOnly_negative service s _ _ _) fun _ negative => ensures_ok (onError_doneOr negative)

theorem sysFaccessat_positive (dirfd : BitVec 32) (pathAddr : Word) (mode flags : BitVec 32) :
    Ensures (sysFaccessat K s mem dirfd pathAddr mode flags) fun out => OnError Positive out.1.1 :=
  ensures_bind (pathOnly_negative service s _ _ _) fun _ negative => ensures_ok (onError_doneOr negative)

theorem sysGetdents64_positive (fd bufAddr count : Word) :
    Ensures (sysGetdents64 K s mem fd bufAddr count) fun out => OnError Positive out.1.1 := by
  rw [sysGetdents64]
  refine ensures_then fun _ => ensures_bind (getdents64_negative service s _ _) ?_
  rintro ⟨⟨r,buf⟩,s⟩ negative
  cases r with
  | error e => exact ensures_ok (positive_neg negative)
  | ok bytesRead =>
    dsimp only
    split
    · split
      · exact ensures_ok (onError_written _ bytesRead)
      · exact ensures_error
    · exact ensures_ok trivial

theorem readElfFile_negative (path : Str) : Ensures (readElfFile K s path) fun out => OnError Negative out.1 := by
  rw [readElfFile]
  refine ensures_bind (open_negative service s path 0) ?_
  rintro ⟨opened,s⟩ negative
  cases opened with
  | error e => exact ensures_ok negative
  | ok fd =>
    refine ensures_bind (fdOnly_negative service s _ fd _ _) ?_
    rintro ⟨asked,s⟩ negative
    cases asked with
    | error e => exact ensures_ok negative
    | ok size =>
      refine ensures_then fun _ => ensures_bind (read_negative service s fd _) ?_
      rintro ⟨⟨got,content⟩,s⟩ negative
      cases got with
      | error e => exact ensures_ok negative
      | ok bytesRead =>
        refine ensures_then fun closed => ?_
        dsimp only
        split
        · exact ensures_ok (by decide : Negative (-5))
        · exact ensures_ok trivial

omit service in
private theorem validate_negative (data : List Byte) : OnError Negative (validateElfHeader data) := by
  have enoexec : Negative (-8) := by decide
  rw [validateElfHeader]
  split_ifs
  · exact enoexec
  · exact enoexec
  · exact enoexec
  · exact enoexec
  · trivial

theorem sysExecve_negative (task : Sel4Task) (pathAddr argvAddr envpAddr : Word) :
    Ensures (sysExecve K s task pathAddr argvAddr envpAddr) fun out => OnError Negative out.1.1 := by
  rw [sysExecve]
  dsimp only
  split
  · exact ensures_ok (by decide : Negative (-2))
  · refine ensures_bind (readElfFile_negative service s _) ?_
    rintro ⟨file,s⟩ negative
    cases file with
    | error e => exact ensures_ok negative
    | ok data =>
      dsimp only
      have header := validate_negative data
      split
      · next e invalid =>
        rw [invalid] at header
        exact ensures_ok header
      · refine ensures_then fun image => ?_
        cases image with
        | none => exact ensures_ok (by decide : Negative (-8))
        | some image => exact ensures_ok trivial

end

/-! ## The dispatcher -/

section
variable {ω : Type} {K : Kernel ω} {raw : List SignalAction → Nat → List Byte} {L : Layer ω} {tid : Word} {task : Sel4Task}

private theorem taskCall_positive {answer : SysResult × Sel4Task} (positive : OnError Positive answer.1) :
    Ensures (L.taskCall tid answer) fun out => OnError Positive out.1 := ensures_ok positive

private theorem fileCall_positive {answer : Except Fault (Answer ω)}
    (positive : Ensures answer fun out => OnError Positive out.1.1) :
    Ensures (L.fileCall tid task answer) fun out => OnError Positive out.1 :=
  ensures_bind positive fun _ holds => ensures_ok holds

theorem sysSigprocmask_positive (how : BitVec 32) (setAddr oldAddr : Word) :
    OnError Positive (sysSigprocmask task how setAddr oldAddr).1 := by
  rw [sysSigprocmask]
  dsimp only
  split_ifs
  · trivial
  · trivial
  · split
    · trivial
    · trivial
    · trivial
    · exact (by decide : Positive 22)
  · split
    · trivial
    · trivial
    · trivial
    · exact (by decide : Positive 22)

theorem sysRtSigaction_positive (sig actAddr oldactAddr : Word) :
    OnError Positive (sysRtSigaction task raw sig actAddr oldactAddr).1 := by
  rw [sysRtSigaction]
  dsimp only
  split_ifs
  · exact (by decide : Positive 22)
  · trivial
  · trivial
  · trivial
  · trivial

theorem sysKill_positive (map : TaskMap) (pid sig : Word) : OnError Positive (sysKill map pid sig).1 := by
  rw [sysKill]
  split
  · exact (by decide : Positive 3)
  · split
    · trivial
    · trivial

theorem tryFrom_execve_iff (no : Word) : Sysno.tryFrom no = some .execve ↔ no = 59 := by
  have only : ∀ entry ∈ sysnos, entry.2 = .execve → entry.1 = 59 := by decide
  constructor
  · intro isExecve
    obtain ⟨entry,found,isSysno⟩ := Option.map_eq_some_iff.mp isExecve
    have isNo : entry.1 = no.toNat := by simpa using List.find?_some found
    have number := only entry (List.mem_of_find?_eq_some found) isSysno
    exact BitVec.eq_of_toNat_eq (isNo.symm.trans number)
  · rintro rfl
    decide

variable (service : NegativeErrors K)

include service in
/-- The errors of all handlers but execve are positive. -/
theorem dispatch_positive {args : SyscallArgs} (other : args.syscallNo ≠ 59) :
    Ensures (dispatch K raw L tid task args) fun out => OnError Positive out.1 := by
  have enosys : Positive ENOSYS := by decide
  have eperm : Positive EPERM := by decide
  rw [dispatch]
  obtain ⟨syscallNo,a0,a1,a2,a3,a4,a5⟩ := args
  dsimp only
  split
  · exact ensures_ok enosys
  · next sysno isSysno =>
    cases sysno with
    | execve => exact absurd ((tryFrom_execve_iff syscallNo).mp isSysno) other
    | read => exact fileCall_positive (sysRead_positive service L.lcl task.mem a0 a1 a2)
    | write => exact fileCall_positive (sysWrite_positive service L.lcl task.mem a0 a1 a2)
    | openat => exact fileCall_positive (sysOpenat_positive service L.lcl task.mem _ a1 _ _)
    | close => exact fileCall_positive (sysClose_positive service L.lcl task.mem a0)
    | fstat => exact fileCall_positive (sysFstat_positive service L.lcl task.mem a0 a1)
    | fstatat => exact fileCall_positive (sysFstatat_positive service L.lcl task.mem _ a1 a2 _)
    | lseek => exact fileCall_positive (sysLseek_positive service L.lcl task.mem a0 a1 _)
    | mkdirat => exact fileCall_positive (sysMkdirat_positive service L.lcl task.mem _ a1 _)
    | unlinkat => exact fileCall_positive (sysUnlinkat_positive service L.lcl task.mem _ a1 _)
    | faccessat => exact fileCall_positive (sysFaccessat_positive service L.lcl task.mem _ a1 _ _)
    | getdents64 => exact fileCall_positive (sysGetdents64_positive service L.lcl task.mem a0 a1 a2)
    | rtSigaction => exact taskCall_positive (sysRtSigaction_positive a0 a1 a2)
    | sigprocmask => exact taskCall_positive (sysSigprocmask_positive _ a1 a2)
    | kill => exact ensures_ok (sysKill_positive L.tasks a0 a1)
    | brk =>
      refine taskCall_positive ?_
      rw [sysBrk]
      split_ifs
      · trivial
      · trivial
    | exit | exitGroup | getpid | setTidAddress | uname | mmap | munmap | clockGettime | gettimeofday | rtSigreturn =>
      exact taskCall_positive trivial
    | mount | umount2 => exact ensures_ok eperm
    | getuid | getgid | geteuid | getegid | schedYield | ioctl | fcntl | readv | writev | pread64 | pwrite64 | renameat
      | ftruncate | sendfile | utimensat | statfs | mprotect | nanosleep => exact ensures_ok trivial
    | «open» | stat | access | pipe | dup | dup2 | fork | wait4 | mkdir | rmdir | creat | unlink | getcwd | chdir | rename
      | futex | pselect6 | ppoll | shmget | shmat | shmctl | prlimit64 => exact ensures_ok enosys

/-- A file that execve can load: one that was read, with the header of an executable and a segment. -/
def Loadable : Except Errno (List Byte) → Prop
  | .error _ => False
  | .ok data => validateElfHeader data = .ok () ∧ imageOf data ≠ .ok none

/-- execve takes none of its error returns: it has a path, and the file is one that can be loaded. -/
structure ExecveGoes (K : Kernel ω) (s : Lcl ω) (task : Sel4Task) (pathAddr : Word) : Prop where
  named : ¬ (readCstrFromTask task.mem pathAddr).isEmpty
  loads : ∀ file s', readElfFile K s (readCstrFromTask task.mem pathAddr) = .ok (file,s') → Loadable file

theorem execve_error_iff (s : Lcl ω) (pathAddr argvAddr envpAddr : Word) :
    (∃ e task' s', sysExecve K s task pathAddr argvAddr envpAddr = .ok ((.error e,task'),s')) ↔
      ¬ ExecveGoes K s task pathAddr := by
  rw [sysExecve]
  dsimp only
  by_cases unnamed : (readCstrFromTask task.mem pathAddr).isEmpty
  · rw [if_pos unnamed]
    exact iff_of_true ⟨_,_,_,rfl⟩ fun goes => goes.named unnamed
  · rw [if_neg unnamed]
    cases isRead : readElfFile K s (readCstrFromTask task.mem pathAddr) with
    | error fault =>
      refine iff_of_false (by rintro ⟨e,task',s',ran⟩; cases ran) ?_
      intro stops
      refine stops ⟨unnamed,?_⟩
      intro file s' isFile
      rw [isRead] at isFile
      cases isFile
    | ok got =>
      obtain ⟨file,u⟩ := got
      have goes_iff : ExecveGoes K s task pathAddr ↔ Loadable file := by
        constructor
        · intro goes
          exact goes.loads file u isRead
        · intro loadable
          refine ⟨unnamed,?_⟩
          intro other s' isFile
          rw [isRead] at isFile
          cases isFile
          exact loadable
      rw [goes_iff]
      simp only [ok_bind]
      cases file with
      | error e => exact iff_of_true ⟨_,_,_,rfl⟩ id
      | ok data =>
        dsimp only [Loadable]
        cases header : validateElfHeader data with
        | error e => exact iff_of_true ⟨_,_,_,rfl⟩ fun loadable => by cases loadable.1
        | ok done =>
          cases isImage : imageOf data with
          | error fault =>
            refine iff_of_false (by rintro ⟨e,task',s',ran⟩; cases ran) ?_
            exact not_not_intro ⟨rfl,fun none => by cases none⟩
          | ok image =>
            cases image with
            | none => exact iff_of_true ⟨_,_,_,rfl⟩ fun loadable => loadable.2 rfl
            | some image =>
              refine iff_of_false (by rintro ⟨e,task',s',ran⟩; cases ran) ?_
              exact not_not_intro ⟨rfl,fun none => by cases none⟩

/-- A task sees every error of a syscall as an error, unless the syscall is execve and takes an error return. -/
theorem failure_seen_iff (service : NegativeErrors K) (regs : Regs) :
    (∀ e after, dispatch K raw L tid task (SyscallArgs.ofRegs regs) = .ok (.error e,after) →
        ErrnoValue (retV (.error e))) ↔
      (word regs 0 ≠ 59 ∨ ExecveGoes K L.lcl task (word regs 5)) := by
  by_cases other : word regs 0 ≠ 59
  · refine iff_of_true ?_ (.inl other)
    intro e after ran
    exact positive_seen (dispatch_positive service other _ ran)
  · have isExecve : word regs 0 = 59 := not_ne_iff.mp other
    rw [or_iff_right other]
    have ran_iff (e : Errno) : (∃ after, dispatch K raw L tid task (SyscallArgs.ofRegs regs) = .ok (.error e,after)) ↔
        ∃ task' s', sysExecve K L.lcl task (word regs 5) (word regs 4) (word regs 3) = .ok ((.error e,task'),s') := by
      unfold dispatch SyscallArgs.ofRegs
      dsimp only
      rw [(tryFrom_execve_iff _).mpr isExecve]
      dsimp only
      constructor
      · rintro ⟨after,ran⟩
        obtain ⟨⟨⟨r,task'⟩,s'⟩,execve,isOut⟩ := bind_ok_iff.mp ran
        cases isOut
        exact ⟨task',s',execve⟩
      · rintro ⟨task',s',execve⟩
        exact ⟨_,bind_ok_iff.mpr ⟨_,execve,rfl⟩⟩
    constructor
    · intro seen
      by_contra stops
      obtain ⟨e,task',s',execve⟩ := (execve_error_iff L.lcl _ (word regs 4) (word regs 3)).mpr stops
      obtain ⟨after,ran⟩ := (ran_iff e).mpr ⟨task',s',execve⟩
      exact negative_unseen (sysExecve_negative service L.lcl task _ _ _ _ execve) (seen e after ran)
    · intro goes e after ran
      obtain ⟨task',s',execve⟩ := (ran_iff e).mp ⟨after,ran⟩
      exact absurd goes ((execve_error_iff L.lcl _ _ _).mp ⟨e,task',s',execve⟩)

end

/-! A file service that has no file. -/

def refusing : Kernel Unit := fun world message => .ok (world,(message.ib.writeMr 0 1).writeMr 1 (-2))

private theorem refusing_negative : NegativeErrors refusing := by
  intro world message world' ib replied failed
  cases replied
  rw [readMr_writeMr_self _ (by decide)]
  decide

theorem failure_seen_iff_openat :
    (∀ e after, dispatch refusing (fun _ _ => []) paging 1 (Sel4Task.new 1 5)
        (SyscallArgs.ofRegs (setWord zeroRegs 0 257)) = .ok (.error e,after) → ErrnoValue (retV (.error e))) ↔
      (word (setWord zeroRegs 0 257) 0 ≠ 59 ∨
        ExecveGoes refusing paging.lcl (Sel4Task.new 1 5) (word (setWord zeroRegs 0 257) 5)) :=
  failure_seen_iff refusing_negative (setWord zeroRegs 0 257)

/-- An execve without a path leaves 2 in RAX, which is not an error. -/
theorem execve_failure_unseen : NegativeErrors refusing ∧
    ∃ after, dispatch refusing (fun _ _ => []) paging 1 (Sel4Task.new 1 5)
      (SyscallArgs.ofRegs (setWord zeroRegs 0 59)) = .ok (.error (-2),after) ∧ retV (.error (-2)) = 2 ∧
        ¬ ErrnoValue (retV (.error (-2))) :=
  ⟨refusing_negative,_,rfl,by decide,negative_unseen (by decide)⟩

end Sel4Linux.Errnos
