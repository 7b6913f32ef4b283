import Sel4Linux.Exception
import Sel4Linux.PageMaps
import Sel4Linux.Timers

/-!
The Linux layer over whole runs: faults of its tasks in any order, with all
syscalls behind them, and the timer between them. What a task is does not change:
every mapped page keeps its content, an exit is final, and no task comes or goes
(`tasks_kept`). A task that takes no fault stays as it is but for the signals
that others send it, and it is never resumed in another one's place
(`tasks_isolated`).
-/
namespace Sel4Linux.TaskIsolation
open Sel4Linux.Bytes Sel4Linux.Utf8 Sel4Linux.Ipc Sel4Linux.TaskMem Sel4Linux.Tcb Sel4Linux.Client Sel4Linux.FileSyscalls
open Sel4Linux.MemImage Sel4Linux.PageMaps Sel4Linux.Task Sel4Linux.Execve Sel4Linux.Syscalls Sel4Linux.Exception
open Sel4Linux.Timers Sel4Linux.Runs
set_option linter.unusedSimpArgs false

/-! ## Pages -/

/-- Every mapped page has its content, and all contents are those of pages. After an execve the old contents are
    there without being mapped. -/
structure Backed (mem : TaskMemInfo) : Prop where
  mapped : ∀ p ∈ mem.mappedPage, p ∈ mem.pageData
  aligned : ∀ p ∈ mem.pageData, p.toNat % PAGE_SIZE = 0

variable {mem : TaskMemInfo}

theorem backed_iff : Backed mem ↔
    ∀ p, ((mem.slotAt p).isSome = true → (mem.pageAt p).isSome = true) ∧
      ((mem.pageAt p).isSome = true → p.toNat % PAGE_SIZE = 0) := by
  constructor
  · intro backed p
    rw [← mem_mappedPage_iff,← mem_pageData_iff]
    exact ⟨backed.mapped p,backed.aligned p⟩
  · intro each
    refine ⟨fun p => ?_,fun p => ?_⟩
    · rw [mem_mappedPage_iff,mem_pageData_iff]
      exact (each p).1
    · rw [mem_pageData_iff]
      exact (each p).2

theorem backed_default : Backed TaskMemInfo.default := by
  refine backed_iff.mpr fun p => ?_
  rw [slotAt_default,pageAt_default]
  simp

theorem backed_mapBlankPageSimple (backed : Backed mem) (vaddr : Word) : Backed (mem.mapBlankPageSimple vaddr) := by
  refine backed_iff.mpr fun p => ?_
  rw [slotAt_mapBlankPageSimple,pageAt_mapBlankPageSimple]
  by_cases here : p = pageVaddr vaddr
  · rw [if_pos here,if_pos here,here]
    exact ⟨fun _ => rfl,fun _ => pageVaddr_aligned vaddr⟩
  · rw [if_neg here,if_neg here]
    exact backed_iff.mp backed p

theorem backed_mapBlankPages (backed : Backed mem) (pages : List Word) : Backed (mem.mapBlankPages pages) := by
  induction pages generalizing mem with
  | nil => exact backed
  | cons vaddr rest ih => exact ih (backed_mapBlankPageSimple backed vaddr)

theorem backed_writePage (backed : Backed mem) (addr : Word) (offset : Nat) (data : List Byte) :
    Backed (mem.writePage (pageVaddr addr) offset data) := by
  refine backed_iff.mpr fun p => ?_
  rw [slotAt_writePage,pageAt_writePage]
  by_cases here : p = pageVaddr addr
  · rw [if_pos here]
    exact ⟨fun _ => rfl,fun _ => here ▸ pageVaddr_aligned addr⟩
  · rw [if_neg here,if_neg fun both => here both.1]
    exact backed_iff.mp backed p

theorem backed_writeBytes (backed : Backed mem) (addr : Word) (data : List Byte) : Backed (mem.writeBytes addr data).2 := by
  induction mem, addr, data using TaskMemInfo.writeBytes.induct with
  | case1 mem addr data empty =>
    rw [TaskMemInfo.writeBytes,if_pos empty]
    exact backed
  | case2 mem addr data more len ih =>
    rw [TaskMemInfo.writeBytes,if_neg more]
    exact ih (backed_writePage backed addr (pageOffset addr) (data.take len))

theorem backed_runOps (backed : Backed mem) (ops : List MemOp) : Backed (runOps mem ops) := by
  induction ops generalizing mem with
  | nil => exact backed
  | cons op rest ih =>
    refine ih ?_
    cases op with
    | map vaddr => exact backed_mapBlankPageSimple backed vaddr
    | write addr data => exact backed_writeBytes backed addr data

theorem backed_removePages (backed : Backed mem) (pages : List Word) : Backed (mem.removePages pages) := by
  refine backed_iff.mpr fun p => ?_
  rw [slotAt_removePages,pageAt_removePages]
  by_cases removed : p ∈ pages
  · rw [if_pos removed,if_pos removed]
    simp
  · rw [if_neg removed,if_neg removed]
    exact backed_iff.mp backed p

theorem backed_clearPages (backed : Backed mem) : Backed mem.clearPages := by
  refine ⟨?_,backed.aligned⟩
  intro p mapped
  change p ∈ (∅ : Std.ExtTreeMap Word Word) at mapped
  simp at mapped

/-! ## What a task's own calls keep -/

/-- The task is still the same one: its numbers and its thread, an exit, its 65 signal actions, and pages that are
    backed. -/
structure Keeps (task task' : Sel4Task) : Prop where
  pid : task'.pid = task.pid
  tid : task'.tid = task.tid
  tcb : task'.tcb = task.tcb
  exit : task.exit.isSome = true → task'.exit.isSome = true
  actions : task'.signal.actions.length = task.signal.actions.length
  backed : Backed task.mem → Backed task'.mem

theorem keeps_refl (task : Sel4Task) : Keeps task task := ⟨rfl,rfl,rfl,fun ended => ended,rfl,fun backed => backed⟩

theorem keeps_trans {first middle last : Sel4Task} (earlier : Keeps first middle) (later : Keeps middle last) : Keeps first last :=
  ⟨later.pid.trans earlier.pid,later.tid.trans earlier.tid,later.tcb.trans earlier.tcb,
    fun ended => later.exit (earlier.exit ended),later.actions.trans earlier.actions,
      fun backed => later.backed (earlier.backed backed)⟩

theorem keeps_mem (task : Sel4Task) {mem : TaskMemInfo} (backed : Backed task.mem → Backed mem) :
    Keeps task { task with mem := mem } := ⟨rfl,rfl,rfl,fun ended => ended,rfl,backed⟩

theorem keeps_write (task : Sel4Task) (addr : Word) (data : List Byte) : Keeps task (task.write addr data) :=
  keeps_mem task fun backed => backed_writeBytes backed addr data

variable {task : Sel4Task}

theorem keeps_sysBrk (newBrk : Word) : Keeps task (sysBrk task newBrk).2 := by
  unfold sysBrk
  split
  · exact keeps_refl task
  · dsimp only
    split
    · exact ⟨rfl,rfl,rfl,fun ended => ended,rfl,fun backed => backed_mapBlankPages backed _⟩
    · exact ⟨rfl,rfl,rfl,fun ended => ended,rfl,fun backed => backed⟩

theorem keeps_sysMmap (addr length prot : Word) : Keeps task (sysMmap task addr length prot).2 :=
  keeps_mem task fun backed => backed_mapBlankPages backed _

theorem keeps_sysMunmap (addr length : Word) : Keeps task (sysMunmap task addr length).2 :=
  keeps_mem task fun backed => backed_removePages backed _

theorem keeps_sysExit (code : BitVec 32) : Keeps task (sysExit task code).2 := by
  have exited : Keeps task { task with exit := some (code <<< 8) } := ⟨rfl,rfl,rfl,fun _ => rfl,rfl,fun backed => backed⟩
  unfold sysExit Sel4Task.exitWith
  dsimp only
  split
  · exact exited
  · exact keeps_trans exited (keeps_write _ _ _)

theorem keeps_sysSetTidAddress (addr : Word) : Keeps task (sysSetTidAddress task addr).2 :=
  ⟨rfl,rfl,rfl,fun ended => ended,rfl,fun backed => backed⟩

theorem keeps_sysZeroTime (addr : Word) : Keeps task (sysZeroTime task addr).2 :=
  keeps_trans (keeps_write task addr _) (keeps_write _ (addr + 8) _)

theorem keeps_signal {signal : TaskSignal} (actions : signal.actions.length = task.signal.actions.length) :
    Keeps task { task with signal := signal } := ⟨rfl,rfl,rfl,fun ended => ended,actions,fun backed => backed⟩

theorem keeps_sysSigprocmask (how : BitVec 32) (setAddr oldAddr : Word) :
    Keeps task (sysSigprocmask task how setAddr oldAddr).2 := by
  have saved : Keeps task (if oldAddr = 0 then task else task.write oldAddr (leBytes task.signal.mask)) := by
    split
    · exact keeps_refl task
    · exact keeps_write task oldAddr _
  unfold sysSigprocmask
  dsimp only
  split
  · exact saved
  · split
    · exact keeps_trans saved (keeps_signal rfl)
    · exact keeps_trans saved (keeps_signal rfl)
    · exact keeps_trans saved (keeps_signal rfl)
    · exact saved

theorem keeps_sysRtSigaction (raw : List SignalAction → Nat → List Byte) (sig actAddr oldactAddr : Word) :
    Keeps task (sysRtSigaction task raw sig actAddr oldactAddr).2 := by
  unfold sysRtSigaction
  split
  · exact keeps_refl task
  · have saved : Keeps task (if oldactAddr = 0 then task else task.write oldactAddr (raw task.signal.actions (sig - 1).toNat)) := by
      split
      · exact keeps_refl task
      · exact keeps_write task oldactAddr _
    dsimp only
    split
    · exact saved
    · exact keeps_trans saved (keeps_signal (by simp))

/-! ## File syscalls and execve -/

/-- A file syscall leaves the task's memory as it is, or writes to it once. -/
def WritesOnce (mem mem' : TaskMemInfo) : Prop := mem' = mem ∨ ∃ addr data, mem' = (mem.writeBytes addr data).2

theorem backed_writesOnce {mem mem' : TaskMemInfo} (once : WritesOnce mem mem') (backed : Backed mem) : Backed mem' := by
  rcases once with rfl | ⟨addr,data,rfl⟩
  · exact backed
  · exact backed_writeBytes backed addr data

variable {ω : Type} {K : Kernel ω} {s : Lcl ω}

/-- Every answer to a file syscall. -/
def Once (mem : TaskMemInfo) (x : Except Fault (Answer ω)) : Prop := Ensures x fun out => WritesOnce mem out.1.2

private theorem once_same (r : SysResult) (s : Lcl ω) : Once mem (.ok ((r,mem),s)) := ensures_ok (Or.inl rfl)

private theorem once_write (r : SysResult) (s : Lcl ω) (addr : Word) (data : List Byte) :
    Once mem (.ok ((r,(mem.writeBytes addr data).2),s)) := ensures_ok (Or.inr ⟨addr,data,rfl⟩)

theorem sysRead_once (fd bufAddr count : Word) : Once mem (sysRead K s mem fd bufAddr count) := by
  unfold sysRead
  split
  · exact once_same _ s
  · split
    · exact once_same _ s
    · split
      · exact once_same _ s
      · split
        · exact ensures_then fun _ => once_write _ s _ _
        · refine ensures_then fun _ => ensures_then ?_
          rintro ⟨⟨r,buf⟩,s⟩
          cases r with
          | error e => exact once_same _ s
          | ok bytesRead =>
            dsimp only
            split
            · exact once_write _ s _ _
            · exact ensures_error

theorem sysWrite_once (fd bufAddr count : Word) : Once mem (sysWrite K s mem fd bufAddr count) := by
  unfold sysWrite
  split
  · exact once_same _ s
  · split
    · exact once_same _ _
    · split
      · exact once_same _ s
      · split
        · exact once_same _ s
        · refine ensures_then fun _ => ?_
          split
          · exact once_same _ s
          · refine ensures_then ?_
            rintro ⟨r,s⟩
            exact once_same _ s

theorem sysOpenat_once (dirfd : BitVec 32) (pathAddr : Word) (flags mode : BitVec 32) :
    Once mem (sysOpenat K s mem dirfd pathAddr flags mode) := by
  unfold sysOpenat
  dsimp only
  split
  · exact once_same _ s
  · split
    · exact once_same _ s
    · split
      · exact once_same _ s
      · refine ensures_then ?_
        rintro ⟨r,s⟩
        exact once_same _ s

theorem sysClose_once (fd : Word) : Once mem (sysClose K s mem fd) := by
  unfold sysClose
  split
  · exact once_same _ s
  · split
    · exact once_same _ s
    · refine ensures_then ?_
      rintro ⟨r,s⟩
      cases r with
      | ok v => exact once_same _ s
      | error e => exact once_same _ s

theorem sysLseek_once (fd offset : Word) (whence : BitVec 32) : Once mem (sysLseek K s mem fd offset whence) := by
  unfold sysLseek
  split
  · exact once_same _ s
  · refine ensures_then ?_
    rintro ⟨r,s⟩
    exact once_same _ s

theorem sysFstat_once (fd statAddr : Word) : Once mem (sysFstat K s mem fd statAddr) := by
  unfold sysFstat
  split
  · exact once_same _ s
  · refine ensures_then ?_
    rintro ⟨r,s⟩
    exact once_same _ s

theorem sysFstatat_once (dirfd : BitVec 32) (pathAddr statAddr : Word) (flags : BitVec 32) :
    Once mem (sysFstatat K s mem dirfd pathAddr statAddr flags) := by
  refine ensures_then ?_
  rintro ⟨r,s⟩
  cases r with
  | error e => exact once_same _ s
  | ok status => exact once_write _ s _ _

theorem sysMkdirat_once (dirfd : BitVec 32) (pathAddr : Word) (mode : BitVec 32) :
    Once mem (sysMkdirat K s mem dirfd pathAddr mode) := ensures_then fun answer => once_same _ answer.2

theorem sysUnlinkat_once (dirfd : BitVec 32) (pathAddr : Word) (flags : BitVec 32) :
    Once mem (sysUnlinkat K s mem dirfd pathAddr flags) := ensures_then fun answer => once_same _ answer.2

theorem sysFaccessat_once (dirfd : BitVec 32) (pathAddr : Word) (mode flags : BitVec 32) :
    Once mem (sysFaccessat K s mem dirfd pathAddr mode flags) := ensures_then fun answer => once_same _ answer.2

theorem sysGetdents64_once (fd bufAddr count : Word) : Once mem (sysGetdents64 K s mem fd bufAddr count) := by
  refine ensures_then fun _ => ensures_then ?_
  rintro ⟨⟨r,buf⟩,s⟩
  cases r with
  | error e => exact once_same _ s
  | ok bytesRead =>
    dsimp only
    split
    · split
      · exact once_write _ s _ _
      · exact ensures_error
    · exact once_same _ s

theorem keeps_sysExecve (path argv envp : Word) : Ensures (sysExecve K s task path argv envp) fun out => Keeps task out.1.2 := by
  unfold sysExecve
  dsimp only
  split
  · exact ensures_ok (keeps_refl task)
  · refine ensures_then ?_
    rintro ⟨file,s⟩
    cases file with
    | error e => exact ensures_ok (keeps_refl task)
    | ok data =>
      dsimp only
      split
      · exact ensures_ok (keeps_refl task)
      · refine ensures_then fun image => ?_
        split
        · exact ensures_ok (keeps_refl task)
        · next entry ops =>
          refine ensures_ok ⟨rfl,rfl,rfl,fun ended => ended,rfl,fun backed => ?_⟩
          exact backed_runOps (backed_clearPages backed) ops

/-! ## What a syscall does to the tasks -/

/-- Signals are pending for the task that were not before. -/
def raised (task : Sel4Task) (bits : Word) : Sel4Task :=
  { task with signal := { task.signal with pending := task.signal.pending ||| bits } }

theorem keeps_raised (task : Sel4Task) (bits : Word) : Keeps task (raised task bits) :=
  ⟨rfl,rfl,rfl,fun ended => ended,rfl,fun backed => backed⟩

/-- What a call of the task `tid` does to the tasks: nothing, something to the task itself, or a signal to any task. -/
inductive Change (tid : Word) (task : Sel4Task) (tasks : TaskMap) : TaskMap → Prop where
  | nothing : Change tid task tasks tasks
  | own (task' : Sel4Task) (keeps : Keeps task task') : Change tid task tasks (tasks.insert tid task')
  | signal (pid : Word) (target : Sel4Task) (bits : Word) (known : tasks pid = some target) :
    Change tid task tasks (tasks.insert pid (raised target bits))

variable {L : Layer ω} {tid : Word}

private theorem taskCall_change {answer : SysResult × Sel4Task} (keeps : Keeps task answer.2) :
    Ensures (L.taskCall tid answer) fun out => Change tid task L.tasks out.2.tasks := ensures_ok (.own answer.2 keeps)

private theorem fileCall_change {answer : Except Fault (Answer ω)} (once : Once task.mem answer) :
    Ensures (L.fileCall tid task answer) fun out => Change tid task L.tasks out.2.tasks := by
  refine ensures_bind once ?_
  rintro ⟨⟨r,mem⟩,lcl⟩ written
  exact ensures_ok (.own _ (keeps_mem task (backed_writesOnce written)))

theorem sysKill_change (pid sig : Word) : Change tid task L.tasks (sysKill L.tasks pid sig).2 := by
  unfold sysKill
  split
  · exact .nothing
  · next target known =>
    split
    · exact .nothing
    · by_cases valid : sig ≤ 64
      · simp only [if_pos valid]
        exact .signal pid target (1 <<< (sig - 1).toNat) known
      · simp only [if_neg valid]
        have same : raised target 0 = { target with signal := { target.signal with pending := target.signal.pending } } := by
          simp [raised]
        rw [← same]
        exact .signal pid target 0 known

theorem dispatch_change (raw : List SignalAction → Nat → List Byte) (args : SyscallArgs) :
    Ensures (dispatch K raw L tid task args) fun out => Change tid task L.tasks out.2.tasks := by
  have nothing (r : SysResult) : Ensures (.ok (r,L) : Except Fault (SysResult × Layer ω)) fun out =>
    Change tid task L.tasks out.2.tasks := ensures_ok .nothing
  obtain ⟨syscallNo,a0,a1,a2,a3,a4,a5⟩ := args
  unfold dispatch
  dsimp only
  cases Sysno.tryFrom syscallNo with
  | none => exact nothing _
  | some sysno =>
    cases sysno with
    | exit => exact taskCall_change (keeps_sysExit _)
    | exitGroup => exact taskCall_change (keeps_sysExit _)
    | getpid => exact taskCall_change (keeps_refl task)
    | execve =>
      refine ensures_bind (keeps_sysExecve a0 a1 a2) ?_
      rintro ⟨⟨r,task'⟩,lcl⟩ keeps
      exact ensures_ok (.own task' keeps)
    | setTidAddress => exact taskCall_change (keeps_sysSetTidAddress a0)
    | uname => exact taskCall_change (keeps_write task a0 _)
    | brk => exact taskCall_change (keeps_sysBrk a0)
    | mmap => exact taskCall_change (keeps_sysMmap a0 a1 a2)
    | munmap => exact taskCall_change (keeps_sysMunmap a0 a1)
    | read => exact fileCall_change (sysRead_once a0 a1 a2)
    | write => exact fileCall_change (sysWrite_once a0 a1 a2)
    | openat => exact fileCall_change (sysOpenat_once _ a1 _ _)
    | close => exact fileCall_change (sysClose_once a0)
    | fstat => exact fileCall_change (sysFstat_once a0 a1)
    | fstatat => exact fileCall_change (sysFstatat_once _ a1 a2 _)
    | lseek => exact fileCall_change (sysLseek_once a0 a1 _)
    | mkdirat => exact fileCall_change (sysMkdirat_once _ a1 _)
    | unlinkat => exact fileCall_change (sysUnlinkat_once _ a1 _)
    | getdents64 => exact fileCall_change (sysGetdents64_once a0 a1 a2)
    | faccessat => exact fileCall_change (sysFaccessat_once _ a1 _ _)
    | clockGettime => exact taskCall_change (keeps_sysZeroTime a1)
    | gettimeofday => exact taskCall_change (keeps_sysZeroTime a0)
    | rtSigaction => exact taskCall_change (keeps_sysRtSigaction raw a0 a1 a2)
    | sigprocmask => exact taskCall_change (keeps_sysSigprocmask _ a1 a2)
    | rtSigreturn => exact taskCall_change (keeps_refl task)
    | kill => exact ensures_ok (sysKill_change a0 a1)
    | _ => exact nothing _

/-- Of the task nothing is other than before but the signals that are pending, and none of these has gone. -/
def Signalled (task task' : Sel4Task) : Prop := ∃ bits, task' = raised task bits

theorem signalled_refl (task : Sel4Task) : Signalled task task := ⟨0,by simp [raised]⟩

theorem signalled_trans {first middle last : Sel4Task} (earlier : Signalled first middle) (later : Signalled middle last) :
    Signalled first last := by
  obtain ⟨bits,rfl⟩ := earlier
  obtain ⟨more,rfl⟩ := later
  exact ⟨bits ||| more,by simp [raised,BitVec.or_assoc]⟩

theorem signalled_keeps {task task' : Sel4Task} (signalled : Signalled task task') : Keeps task task' := by
  obtain ⟨bits,rfl⟩ := signalled
  exact keeps_raised task bits

/-- The same tasks, each in a relation to what it was. -/
def Each (rel : Sel4Task → Sel4Task → Prop) (tasks tasks' : TaskMap) : Prop := ∀ b, Option.Rel rel (tasks b) (tasks' b)

private theorem rel_refl {rel : Sel4Task → Sel4Task → Prop} (refl : ∀ task, rel task task) (entry : Option Sel4Task) :
    Option.Rel rel entry entry := by
  cases entry with
  | none => exact .none
  | some task => exact .some (refl task)

private theorem rel_trans (rel : Sel4Task → Sel4Task → Prop)
    (trans : ∀ {first middle last}, rel first middle → rel middle last → rel first last) {first middle last : Option Sel4Task}
    (earlier : Option.Rel rel first middle) (later : Option.Rel rel middle last) : Option.Rel rel first last := by
  cases earlier with
  | none => exact later
  | some before =>
    cases later with
    | some after => exact .some (trans before after)

private theorem rel_signalled {before after : Option Sel4Task} (signalled : Option.Rel Signalled before after) :
    Option.Rel Keeps before after := by
  cases signalled with
  | none => exact .none
  | some same => exact .some (signalled_keeps same)

private theorem rel_insert {rel : Sel4Task → Sel4Task → Prop} (refl : ∀ task, rel task task) {tasks : TaskMap} {pid : Word}
    {target target' : Sel4Task} (known : tasks pid = some target) (b : Word) (changed : b = pid → rel target target') :
    Option.Rel rel (tasks b) (tasks.insert pid target' b) := by
  unfold TaskMap.insert
  by_cases here : b = pid
  · rw [if_pos here,here,known]
    exact .some (changed here)
  · rw [if_neg here]
    exact rel_refl refl (tasks b)

theorem change_keeps {tasks tasks' : TaskMap} (known : tasks tid = some task) (change : Change tid task tasks tasks') :
    Each Keeps tasks tasks' := by
  intro b
  cases change with
  | nothing => exact rel_refl keeps_refl (tasks b)
  | own task' keeps => exact rel_insert keeps_refl known b fun _ => keeps
  | signal pid target bits knownTarget => exact rel_insert keeps_refl knownTarget b fun _ => keeps_raised target bits

/-- Another task's call only sends signals. -/
theorem change_signalled {tasks tasks' : TaskMap} (known : tasks tid = some task) (change : Change tid task tasks tasks') {b : Word}
    (other : b ≠ tid) : Option.Rel Signalled (tasks b) (tasks' b) := by
  cases change with
  | nothing => exact rel_refl signalled_refl (tasks b)
  | own task' keeps => exact rel_insert signalled_refl known b fun here => absurd here other
  | signal pid target bits knownTarget => exact rel_insert signalled_refl knownTarget b fun _ => ⟨bits,rfl⟩

/-! ## Faults and timers -/

/-- A fault of the task `tid` changes the tasks as one of its calls does, and resumes no thread but its own. -/
def FaultOf (tid : Word) (L : Layer ω) (out : Handled × Layer ω) : Prop :=
  out.2.tasks = L.tasks ∧ out.1.resumed = none ∨
    ∃ task, L.tasks tid = some task ∧ Change tid task L.tasks out.2.tasks ∧ ∀ inv, out.1.resumed = some inv → inv.dest = task.tcb

private theorem resumed_dest {tcb dest : Word} {resume : Bool} {flags count : BitVec 8} {regs : List Word} {inv : Invocation}
    (isWrite : some (tcbWriteRegisters tcb resume flags count regs) = some inv) (same : tcb = dest) : inv.dest = dest := by
  cases isWrite
  exact same

private theorem handleVmfault_of (addr : Word) : FaultOf tid L (handleVmfault L tid addr) := by
  unfold handleVmfault
  split
  · exact Or.inl ⟨rfl,rfl⟩
  · next task known =>
    refine Or.inr ⟨task,known,.own _ (keeps_mem task fun backed => backed_mapBlankPageSimple backed _),?_⟩
    exact fun inv resumed => resumed_dest resumed rfl

private theorem handleUserException_of (raw : List SignalAction → Nat → List Byte) (faultIp reason : Word) :
    Ensures (handleUserException (dispatch K raw) L tid faultIp reason) (FaultOf tid L) := by
  unfold handleUserException
  split
  · exact ensures_ok (Or.inl ⟨rfl,rfl⟩)
  · next task known =>
    split
    · refine ensures_bind (dispatch_change raw _) ?_
      rintro ⟨result,after⟩ change
      dsimp only
      split
      · exact ensures_ok (Or.inr ⟨task,known,change,fun inv no => by cases no⟩)
      · exact ensures_ok (Or.inr ⟨task,known,change,fun inv resumed => resumed_dest resumed rfl⟩)
    · exact ensures_ok (Or.inl ⟨rfl,rfl⟩)

private theorem handleUnknownSyscall_of (raw : List SignalAction → Nat → List Byte) (syscallNo : Word) :
    Ensures (handleUnknownSyscall (dispatch K raw) L tid syscallNo) (FaultOf tid L) := by
  unfold handleUnknownSyscall
  split
  · exact ensures_ok (Or.inl ⟨rfl,rfl⟩)
  · next task known =>
    refine ensures_bind (dispatch_change raw _) ?_
    rintro ⟨result,after⟩ change
    exact ensures_ok (Or.inr ⟨task,known,change,fun inv resumed => resumed_dest resumed rfl⟩)

theorem handleFault_of (raw : List SignalAction → Nat → List Byte) (message : Word) :
    Ensures (handleFault (dispatch K raw) L tid message) (FaultOf tid L) := by
  unfold handleFault
  dsimp only
  split
  · exact ensures_ok (handleVmfault_of _)
  · split
    · exact handleUserException_of raw _ _
    · split
      · exact handleUnknownSyscall_of raw _
      · exact ensures_ok (Or.inl ⟨rfl,rfl⟩)

theorem fire_signalled (tasks : TaskMap) (timer : TimerType) : Each Signalled tasks (fire tasks timer) := by
  intro b
  cases timer with
  | waitTime tid target => exact rel_refl signalled_refl (tasks b)
  | iTimer pid =>
    dsimp only [fire]
    cases known : tasks pid with
    | none => exact rel_refl signalled_refl (tasks b)
    | some target => exact rel_insert signalled_refl known b fun _ => ⟨1 <<< 13,rfl⟩

theorem retain_signalled (now : Word) (queue : List (Word × TimerType)) (tasks : TaskMap) :
    Each Signalled tasks (retain now queue tasks).2 := by
  induction queue generalizing tasks with
  | nil => exact fun b => rel_refl signalled_refl (tasks b)
  | cons timer rest ih =>
    intro b
    rw [retain]
    split
    · exact rel_trans Signalled signalled_trans (fire_signalled tasks timer.2 b) (ih _ b)
    · exact ih tasks b

/-! ## Runs -/

/-- The layer with its timers, which signal its tasks. -/
structure Whole (ω : Type) where
  timers : TimerState
  lcl : Lcl ω

/-- What happens to the layer: a fault message from the thread with badge `tid`, or something about the timers. -/
inductive LayerEvent where
  | fault (tid message : Word) (ib : IpcBuffer)
  | timer (op : TimerOp)

def LayerEvent.faulting : LayerEvent → Option Word
  | .fault tid _ _ => some tid
  | .timer _ => none

/-- The clock, the queue and the tasks after an operation on the timers. -/
def timerAfter (timers : TimerState) : TimerOp → TimerState
  | .set pid target => setProcessTimer timers pid target
  | .advance ms => advanceTime timers ms
  | .handle => handleTimer timers

/-- One event, with the register write that resumes a task. -/
def layerStep (K : Kernel ω) (raw : List SignalAction → Nat → List Byte) (S : Whole ω) :
    LayerEvent → Except Fault (Option Invocation × Whole ω)
  | .fault tid message ib => do
    let (h,after) ← handleFault (dispatch K raw) { tasks := S.timers.tasks, lcl := { S.lcl with ib := ib } } tid message
    .ok (h.resumed,{ timers := { S.timers with tasks := after.tasks }, lcl := after.lcl })
  | .timer op => .ok (none,{ S with timers := timerAfter S.timers op })

variable {raw : List SignalAction → Nat → List Byte} {S : Whole ω}

private theorem timerAfter_signalled (timers : TimerState) (op : TimerOp) :
    Each Signalled timers.tasks (timerAfter timers op).tasks := by
  intro b
  cases op with
  | set pid target => exact rel_refl signalled_refl _
  | advance ms => exact rel_refl signalled_refl _
  | handle => exact retain_signalled timers.now timers.queue timers.tasks b

/-- What one event does to the tasks. -/
structure Stepped (S : Whole ω) (e : LayerEvent) (out : Option Invocation × Whole ω) : Prop where
  keeps : Each Keeps S.timers.tasks out.2.timers.tasks
  others : ∀ b, e.faulting ≠ some b → Option.Rel Signalled (S.timers.tasks b) (out.2.timers.tasks b)
  resumes : ∀ inv, out.1 = some inv → ∃ tid task, e.faulting = some tid ∧ S.timers.tasks tid = some task ∧ inv.dest = task.tcb

theorem layerStep_stepped (e : LayerEvent) : Ensures (layerStep K raw S e) (Stepped S e) := by
  cases e with
  | timer op =>
    have signalled := timerAfter_signalled S.timers op
    exact ensures_ok ⟨fun b => rel_signalled (signalled b),fun b _ => signalled b,fun inv no => by cases no⟩
  | fault tid message ib =>
    refine ensures_bind (handleFault_of raw message) ?_
    rintro ⟨h,after⟩ faultOf
    refine ensures_ok ?_
    rcases faultOf with ⟨same,noResume⟩ | ⟨task,known,change,resumes⟩
    · dsimp only at same noResume
      rw [same,noResume]
      exact ⟨fun b => rel_refl keeps_refl _,fun b _ => rel_refl signalled_refl _,fun inv no => by cases no⟩
    · refine ⟨change_keeps known change,?_,?_⟩
      · intro b other
        exact change_signalled known change fun same => other (congrArg some same.symm)
      · intro inv resumed
        exact ⟨tid,task,rfl,known,resumes inv resumed⟩

theorem run_keeps {S' : Whole ω} {events : List LayerEvent} {outs : List (Option Invocation)}
    (ran : run (layerStep K raw) S events = .ok (outs,S')) : Each Keeps S.timers.tasks S'.timers.tasks := by
  refine run_invariant (I := fun T => Each Keeps S.timers.tasks T.timers.tasks) ?_ (fun b => rel_refl keeps_refl _) ran
  intro T e out T' before step b
  exact rel_trans Keeps keeps_trans (before b) ((layerStep_stepped e _ step).keeps b)

/-- A task has its own number, its 65 signal actions, and pages that are backed. -/
structure WellFormed (tid : Word) (task : Sel4Task) : Prop where
  tid : task.tid = tid
  actions : task.signal.actions.length = 65
  backed : Backed task.mem

/-- For every order of faults, with whatever syscalls, and of timer operations, and for all that the file service
    answers: the tasks stay well-formed, none comes or goes, and each keeps its numbers and its thread; one that has
    exited has exited for good. -/
theorem tasks_kept (K : Kernel ω) (raw : List SignalAction → Nat → List Byte) {S S' : Whole ω} {events : List LayerEvent}
    {outs : List (Option Invocation)} (wellFormed : ∀ tid task, S.timers.tasks tid = some task → WellFormed tid task)
    (ran : run (layerStep K raw) S events = .ok (outs,S')) :
    (∀ tid task, S'.timers.tasks tid = some task → WellFormed tid task) ∧
      ∀ tid, Option.Rel Keeps (S.timers.tasks tid) (S'.timers.tasks tid) := by
  have keeps := run_keeps ran
  refine ⟨?_,keeps⟩
  intro tid task' there
  have related := keeps tid
  rw [there] at related
  cases before : S.timers.tasks tid with
  | none =>
    rw [before] at related
    cases related
  | some task =>
    rw [before] at related
    cases related with
    | some kept =>
      obtain ⟨number,actions,backed⟩ := wellFormed tid task before
      exact ⟨kept.tid.trans number,kept.actions.trans actions,kept.backed backed⟩

/-! Two tasks: the first one misses a page and asks for its number, and a timer is set for the second one. -/

def twoTasks : Whole Unit :=
  { timers := { queue := [], now := 0, tasks := (TaskMap.insert (fun _ => none) 1 (Sel4Task.new 1 5)).insert 2 (Sel4Task.new 2 6) },
    lcl := freshLayer }

def someEvents : List LayerEvent :=
  [.fault 1 0x1000 (IpcBuffer.new.writeMr 0 0x5123),.timer (.set 2 10),.fault 1 0x3000 (IpcBuffer.new.writeMr 0 39),
    .timer (.advance 10),.timer .handle]

theorem tasks_kept_two : ∃ outs S', run (layerStep (serving []) fun _ _ => []) twoTasks someEvents = .ok (outs,S') ∧
    ∀ tid task, S'.timers.tasks tid = some task → WellFormed tid task := by
  obtain ⟨outs,S',ran⟩ : ∃ outs S', run (layerStep (serving []) fun _ _ => []) twoTasks someEvents = .ok (outs,S') := ⟨_,_,rfl⟩
  refine ⟨outs,S',ran,(tasks_kept (serving []) _ ?_ ran).1⟩
  intro tid task there
  change (if tid = 2 then some (Sel4Task.new 2 6) else if tid = 1 then some (Sel4Task.new 1 5) else none) = some task at there
  split at there
  · next second =>
    cases there
    exact ⟨second.symm,rfl,backed_default⟩
  · split at there
    · next first =>
      cases there
      exact ⟨first.symm,rfl,backed_default⟩
    · cases there

/-- A task that takes no fault in a run is the same afterwards but for pending signals, of which none has gone; and every
    thread that the run resumes is that of a task that has taken a fault. -/
theorem tasks_isolated (K : Kernel ω) (raw : List SignalAction → Nat → List Byte) {S S' : Whole ω} {events : List LayerEvent}
    {outs : List (Option Invocation)} (ran : run (layerStep K raw) S events = .ok (outs,S')) :
    (∀ b, (∀ e ∈ events, e.faulting ≠ some b) → Option.Rel Signalled (S.timers.tasks b) (S'.timers.tasks b)) ∧
      ∀ inv, some inv ∈ outs → ∃ e ∈ events, ∃ tid task, e.faulting = some tid ∧ S.timers.tasks tid = some task ∧
        inv.dest = task.tcb := by
  constructor
  · intro b silent
    refine run_invariant_on (I := fun T => Option.Rel Signalled (S.timers.tasks b) (T.timers.tasks b)) ?_ (rel_refl signalled_refl _)
      silent ran
    intro T e out T' before other step
    exact rel_trans Signalled signalled_trans before ((layerStep_stepped e _ step).others b other)
  · intro inv member
    induction events generalizing S outs with
    | nil =>
      cases ran
      cases member
    | cons e rest ih =>
      obtain ⟨out,T,later,first,ranLater,rfl⟩ := run_cons_iff.mp ran
      have stepped := layerStep_stepped e _ first
      rcases List.mem_cons.mp member with here | there
      · obtain ⟨tid,task,isTid,known,dest⟩ := stepped.resumes inv here.symm
        exact ⟨e,List.mem_cons_self,tid,task,isTid,known,dest⟩
      · obtain ⟨e',inRest,tid,task',isTid,known,dest⟩ := ih ranLater there
        have related := stepped.keeps tid
        rw [known] at related
        cases before : S.timers.tasks tid with
        | none =>
          rw [before] at related
          cases related
        | some task =>
          rw [before] at related
          cases related with
          | some kept => exact ⟨e',List.mem_cons_of_mem e inRest,tid,task,isTid,before,dest.trans kept.tcb⟩

theorem tasks_isolated_two : ∃ outs S', run (layerStep (serving []) fun _ _ => []) twoTasks someEvents = .ok (outs,S') ∧
    Option.Rel Signalled (some (Sel4Task.new 2 6)) (S'.timers.tasks 2) := by
  obtain ⟨outs,S',ran⟩ : ∃ outs S', run (layerStep (serving []) fun _ _ => []) twoTasks someEvents = .ok (outs,S') := ⟨_,_,rfl⟩
  refine ⟨outs,S',ran,(tasks_isolated (serving []) _ ran).1 2 ?_⟩
  simp [someEvents,LayerEvent.faulting]

end Sel4Linux.TaskIsolation
