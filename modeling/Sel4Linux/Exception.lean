import Sel4Linux.Syscalls

/-!
Faults of the tasks of the Linux layer (`lcl/src/exception.rs`). A fault message
becomes a register frame for `seL4_TCB_WriteRegisters`, with the indices of
another order than the one that the kernel takes the frame in: RAX and RIP are
written to words 0 and 15, which are RIP and R13. Whether a task goes on with its
own registers all the same depends on what the message holds
(`resume_promise_iff`).
-/
namespace Sel4Linux.Exception
open Sel4Linux.Bytes Sel4Linux.Ipc Sel4Linux.TaskMem Sel4Linux.Tcb Sel4Linux.Client Sel4Linux.Task Sel4Linux.Syscalls
open Sel4Linux.Runs
set_option linter.unusedSimpArgs false

def TRAP_INST : BitVec 32 := 0xDEADBEEF

def REG_RAX : Nat := 0
def REG_RIP : Nat := 15

variable {ω : Type}

/-- What a syscall does once its number and arguments are read. -/
abbrev Handler (ω : Type) := Layer ω → Word → Sel4Task → SyscallArgs → Except Fault (SysResult × Layer ω)

/-- A syscall as its handler saw it, with its result and the value for RAX. -/
structure Served where
  args : SyscallArgs
  result : SysResult
  rax : Word

/-- What the layer does about a fault: the syscall, if it is one, and the register write that resumes the task. -/
structure Handled where
  served : Option Served
  resumed : Option Invocation

/-- `match result { Ok(v) => v, Err(e) => -(e as isize) as usize }`. -/
def retV : SysResult → Word
  | .ok v => v
  | .error e => -(e.signExtend 64)

/-- `regs[i] = ib.read_mr(i)` for all 20 registers. -/
def faultRegs (ib : IpcBuffer) : Regs := Vector.ofFn fun i => ib.readMr i.val

def zeroRegs : Regs := Vector.replicate 20 0

variable (H : Handler ω) (L : Layer ω) (tid : Word)

def taskAfter (after : Layer ω) (tid : Word) (task : Sel4Task) : Sel4Task := (after.tasks tid).getD task

def handleUserException (faultIp _reason : Word) : Except Fault (Handled × Layer ω) :=
  match L.tasks tid with
  | none => .ok (⟨none,none⟩,L)
  | some task =>
    if task.mem.readBytesU32 faultIp = some TRAP_INST then do
      let regs := faultRegs L.lcl.ib
      let args := SyscallArgs.ofRegs regs
      let (result,after) ← H L tid task args
      let served : Served := { args := args, result := result, rax := retV result }
      let regs := setWord regs REG_RAX served.rax
      let regs := setWord regs REG_RIP (word regs REG_RIP + 4)
      if (taskAfter after tid task).exit.isSome then .ok (⟨some served,none⟩,after)
      else .ok (⟨some served,some (tcbWriteRegisters task.tcb true 0 20 regs.toList)⟩,after)
    else .ok (⟨none,none⟩,L)

def handleVmfault (addr : Word) : Handled × Layer ω :=
  match L.tasks tid with
  | none => (⟨none,none⟩,L)
  | some task =>
    let mapped := { task with mem := task.mem.mapBlankPageSimple (pageVaddr addr) }
    (⟨none,some (tcbWriteRegisters task.tcb true 0 20 zeroRegs.toList)⟩,{ L with tasks := L.tasks.insert tid mapped })

def handleUnknownSyscall (syscallNo : Word) : Except Fault (Handled × Layer ω) :=
  match L.tasks tid with
  | none => .ok (⟨none,none⟩,L)
  | some task => do
    let regs := setWord zeroRegs 0 syscallNo
    let args := SyscallArgs.ofRegs regs
    let (result,after) ← H L tid task args
    let served : Served := { args := args, result := result, rax := retV result }
    let regs := setWord regs REG_RAX served.rax
    .ok (⟨some served,some (tcbWriteRegisters task.tcb true 0 20 regs.toList)⟩,after)

def faultLabel (message : Word) : BitVec 32 := (message >>> 12).setWidth 32

def handleFault (message : Word) : Except Fault (Handled × Layer ω) :=
  let ib := L.lcl.ib
  if faultLabel message = 1 then .ok (handleVmfault L tid (ib.readMr 0))
  else if faultLabel message = 2 then handleUserException H L tid (ib.readMr 0) (ib.readMr 1)
  else if faultLabel message = 3 then handleUnknownSyscall H L tid (ib.readMr 0)
  else .ok (⟨none,none⟩,L)

/-! ## Which registers a task goes on with -/

def syscallOf (R : Frame) : SyscallArgs :=
  { syscallNo := R.rax, a0 := R.rdi, a1 := R.rsi, a2 := R.rdx, a3 := R.r10, a4 := R.r8, a5 := R.r9 }

/-- A fault that the layer handles: a page fault on an address, a trap instruction or an unknown syscall with
    the syscall's result and the layer after it. -/
inductive Event (ω : Type) where
  | vmFault (addr : Word)
  | trapped (result : SysResult) (after : Layer ω)
  | unknown (result : SysResult) (after : Layer ω)

/-- The layer gets this fault of the task with this message. -/
def Event.Arrives (message : Word) (task : Sel4Task) : Event ω → Prop
  | .vmFault _ => faultLabel message = 1
  | .trapped result after =>
    faultLabel message = 2 ∧ task.mem.readBytesU32 (L.lcl.ib.readMr 0) = some TRAP_INST ∧
      H L tid task (SyscallArgs.ofRegs (faultRegs L.lcl.ib)) = .ok (result,after)
  | .unknown result after =>
    faultLabel message = 3 ∧
      H L tid task (SyscallArgs.ofRegs (setWord zeroRegs 0 (L.lcl.ib.readMr 0))) = .ok (result,after)

/-- If the task is resumed, it is with these registers. -/
def Handled.ResumesWith (h : Handled) (R : Frame) : Prop := ∀ inv, h.resumed = some inv → inv.frame.take 18 = R.words

def Handled.Sees (h : Handled) (R : Frame) : Prop := ∀ served, h.served = some served → served.args = syscallOf R

/-- What the task with registers `R` is promised about a fault. -/
def Event.Promise (R : Frame) (tid : Word) (out : Handled × Layer ω) : Event ω → Prop
  | .vmFault addr => out.1.ResumesWith R ∧ ∃ task, out.2.tasks tid = some task ∧ task.mem.isMapped addr = true
  | .trapped result _ => out.1.Sees R ∧ out.1.ResumesWith { R with rip := R.rip + 4, rax := retV result }
  | .unknown result _ => out.1.Sees R ∧ out.1.ResumesWith { R with rip := R.rip + 2, rax := retV result }

/-- The message has the syscall where `handle_syscall` looks for it. -/
structure SeenIn (ib : IpcBuffer) (R : Frame) : Prop where
  syscallNo : ib.readMr 0 = R.rax
  a0 : ib.readMr 5 = R.rdi
  a1 : ib.readMr 4 = R.rsi
  a2 : ib.readMr 3 = R.rdx
  a3 : ib.readMr 10 = R.r10
  a4 : ib.readMr 8 = R.r8
  a5 : ib.readMr 9 = R.r9

/-- The message has the registers in the kernel's order, but for four bytes in R13, and the result of the syscall
    happens to be both RAX and the address after the instruction. -/
structure CarriedBy (ib : IpcBuffer) (R : Frame) (v : Word) : Prop where
  rip : v = R.rip + 4
  rsp : ib.readMr 1 = R.rsp
  rflags : ib.readMr 2 = R.rflags
  rax : ib.readMr 3 = v
  rbx : ib.readMr 4 = R.rbx
  rcx : ib.readMr 5 = R.rcx
  rdx : ib.readMr 6 = R.rdx
  rsi : ib.readMr 7 = R.rsi
  rdi : ib.readMr 8 = R.rdi
  rbp : ib.readMr 9 = R.rbp
  r8 : ib.readMr 10 = R.r8
  r9 : ib.readMr 11 = R.r9
  r10 : ib.readMr 12 = R.r10
  r11 : ib.readMr 13 = R.r11
  r12 : ib.readMr 14 = R.r12
  r13 : ib.readMr 15 + 4 = R.r13
  r14 : ib.readMr 16 = R.r14
  r15 : ib.readMr 17 = R.r15

/-- Where the promise is kept. -/
def Event.Kept (ib : IpcBuffer) (R : Frame) (tid : Word) (task : Sel4Task) : Event ω → Prop
  | .vmFault addr => R = Frame.blank ∧ (pageVaddr (ib.readMr 0) = pageVaddr addr ∨ task.mem.isMapped addr = true)
  | .trapped result after =>
    SeenIn ib R ∧ ((taskAfter after tid task).exit = none → CarriedBy ib R (retV result))
  | .unknown result _ => R = { Frame.blank with rip := -2, rax := ib.readMr 0 } ∧ retV result = 0

variable {H L tid}

private theorem resumesWith_iff (served : Option Served) (tcb : Word) (regs : Regs) (R : Frame) :
    (⟨served,some (tcbWriteRegisters tcb true 0 20 regs.toList)⟩ : Handled).ResumesWith R ↔ generalRegisters regs = R := by
  have frame : (tcbWriteRegisters tcb true 0 20 regs.toList).frame.take 18 = (generalRegisters regs).words := by
    rw [frame_writeRegisters,words_generalRegisters,List.take_take]
    rfl
  rw [Handled.ResumesWith]
  constructor
  · intro resumes
    exact words_injective (frame.symm.trans (resumes _ rfl))
  · intro same inv isInv
    cases isInv
    rw [frame,same]

private theorem sees_iff (served : Served) (resumed : Option Invocation) (R : Frame) :
    (⟨some served,resumed⟩ : Handled).Sees R ↔ served.args = syscallOf R := by
  rw [Handled.Sees]
  constructor
  · intro sees
    exact sees served rfl
  · intro same other isServed
    cases isServed
    exact same

private theorem word_faultRegs (ib : IpcBuffer) {i : Nat} (inside : i < 20) : word (faultRegs ib) i = ib.readMr i := by
  simp [word,faultRegs,inside]

private theorem seenIn_iff (ib : IpcBuffer) (R : Frame) : SyscallArgs.ofRegs (faultRegs ib) = syscallOf R ↔ SeenIn ib R := by
  have args : SyscallArgs.ofRegs (faultRegs ib) =
      ⟨ib.readMr 0,ib.readMr 5,ib.readMr 4,ib.readMr 3,ib.readMr 10,ib.readMr 8,ib.readMr 9⟩ := by
    simp (disch := decide) only [SyscallArgs.ofRegs,word_faultRegs]
  rw [args]
  rw [syscallOf]
  constructor
  · intro same
    injection same with syscallNo a0 a1 a2 a3 a4 a5
    exact ⟨syscallNo,a0,a1,a2,a3,a4,a5⟩
  · rintro ⟨syscallNo,a0,a1,a2,a3,a4,a5⟩
    rw [syscallNo,a0,a1,a2,a3,a4,a5]

private theorem carriedBy_iff (ib : IpcBuffer) (R : Frame) (v : Word) :
    generalRegisters (setWord (setWord (faultRegs ib) REG_RAX v) REG_RIP (word (setWord (faultRegs ib) REG_RAX v) REG_RIP + 4)) =
      { R with rip := R.rip + 4, rax := v } ↔ CarriedBy ib R v := by
  have r13 : word (setWord (faultRegs ib) REG_RAX v) REG_RIP = ib.readMr 15 := by
    rw [word_setWord_ne _ (by decide),word_faultRegs ib (by decide),REG_RIP]
  have message : generalRegisters (faultRegs ib) =
      ⟨ib.readMr 0,ib.readMr 1,ib.readMr 2,ib.readMr 3,ib.readMr 4,ib.readMr 5,ib.readMr 6,ib.readMr 7,ib.readMr 8,
        ib.readMr 9,ib.readMr 10,ib.readMr 11,ib.readMr 12,ib.readMr 13,ib.readMr 14,ib.readMr 15,ib.readMr 16,
        ib.readMr 17⟩ := by
    simp [generalRegisters,faultRegs]
  rw [r13,REG_RAX,REG_RIP,generalRegisters_setWord,message]
  constructor
  · intro same
    injection same with rip rsp rflags rax rbx rcx rdx rsi rdi rbp r8 r9 r10 r11 r12 r13 r14 r15
    exact ⟨rip,rsp,rflags,rax,rbx,rcx,rdx,rsi,rdi,rbp,r8,r9,r10,r11,r12,r13,r14,r15⟩
  · rintro ⟨rip,rsp,rflags,rax,rbx,rcx,rdx,rsi,rdi,rbp,r8,r9,r10,r11,r12,r13,r14,r15⟩
    rw [← rip,rsp,rflags,rax,rbx,rcx,rdx,rsi,rdi,rbp,r8,r9,r10,r11,r12,r13,r14,r15]

private theorem blank_iff (mr0 : Word) (R : Frame) (v : Word) :
    SyscallArgs.ofRegs (setWord zeroRegs 0 mr0) = syscallOf R ∧
        generalRegisters (setWord (setWord zeroRegs 0 mr0) REG_RAX v) = { R with rip := R.rip + 2, rax := v } ↔
      R = { Frame.blank with rip := -2, rax := mr0 } ∧ v = 0 := by
  have args : SyscallArgs.ofRegs (setWord zeroRegs 0 mr0) = ⟨mr0,0,0,0,0,0,0⟩ := by
    have zero (i : Nat) (apart : 0 ≠ i) : word (setWord zeroRegs 0 mr0) i = 0 := by
      rw [word_setWord_ne _ apart]
      by_cases inside : i < 20
      · simp [word,zeroRegs,inside]
      · simp [word,zeroRegs,inside]
    have first : word (setWord zeroRegs 0 mr0) 0 = mr0 := by simp [word,setWord]
    rw [SyscallArgs.ofRegs]
    rw [first,zero 5 (by decide),zero 4 (by decide),zero 3 (by decide),zero 10 (by decide),zero 8 (by decide),
      zero 9 (by decide)]
  have frame : generalRegisters (setWord (setWord zeroRegs 0 mr0) REG_RAX v) = { Frame.blank with rip := v } := by
    simp [generalRegisters,setWord,zeroRegs,REG_RAX,Frame.blank,Vector.getElem_setIfInBounds]
  have zeros : Frame.blank = ⟨0,0,0,0,0,0,0,0,0,0,0,0,0,0,0,0,0,0⟩ := by simp [Frame.blank,generalRegisters]
  rw [args,frame,zeros]
  cases R with
  | mk rip rsp rflags rax rbx rcx rdx rsi rdi rbp r8 r9 r10 r11 r12 r13 r14 r15 =>
    simp only [syscallOf,SyscallArgs.mk.injEq,Frame.mk.injEq]
    constructor
    · rintro ⟨⟨isNo,_⟩,isRip,isRsp,isRflags,isRax,isRbx,isRcx,isRdx,isRsi,isRdi,isRbp,isR8,isR9,isR10,isR11,isR12,isR13,
        isR14,isR15⟩
      have past : rip = -2 := by
        rw [← isRax] at isRip
        bv_omega
      exact ⟨⟨past,isRsp.symm,isRflags.symm,isNo.symm,isRbx.symm,isRcx.symm,isRdx.symm,isRsi.symm,isRdi.symm,isRbp.symm,
        isR8.symm,isR9.symm,isR10.symm,isR11.symm,isR12.symm,isR13.symm,isR14.symm,isR15.symm⟩,isRax.symm⟩
    · rintro ⟨⟨rfl,rfl,rfl,rfl,rfl,rfl,rfl,rfl,rfl,rfl,rfl,rfl,rfl,rfl,rfl,rfl,rfl,rfl⟩,rfl⟩
      simp

private theorem vmfault_mapped {task : Sel4Task} (known : L.tasks tid = some task) (mr0 addr : Word) :
    (∃ task', (handleVmfault L tid mr0).2.tasks tid = some task' ∧ task'.mem.isMapped addr = true) ↔
      pageVaddr mr0 = pageVaddr addr ∨ task.mem.isMapped addr = true := by
  rw [handleVmfault]
  rw [known]
  dsimp only [TaskMap.insert]
  rw [if_pos rfl]
  have mapped : (task.mem.mapBlankPageSimple (pageVaddr mr0)).isMapped addr = true ↔
      pageVaddr mr0 = pageVaddr addr ∨ task.mem.isMapped addr = true := by
    rw [isMapped_mapBlankPageSimple,Bool.or_eq_true,decide_eq_true_iff,pageVaddr_pageVaddr]
  constructor
  · rintro ⟨task',isTask,there⟩
    cases isTask
    exact mapped.mp there
  · intro there
    exact ⟨_,rfl,mapped.mpr there⟩

/-- A task goes on with its registers after a fault exactly when they are what the message carries in the layer's order;
    after a page fault, and after an unknown syscall but for RAX, only when they are zeros. -/
theorem resume_promise_iff (R : Frame) {message : Word} {task : Sel4Task} (known : L.tasks tid = some task)
    {event : Event ω} (arrives : event.Arrives H L tid message task) :
    ∃ out, handleFault H L tid message = .ok out ∧ (event.Promise R tid out ↔ event.Kept L.lcl.ib R tid task) := by
  unfold handleFault
  dsimp only
  cases event with
  | vmFault addr =>
    have isLabel : faultLabel message = 1 := arrives
    rw [if_pos isLabel]
    refine ⟨_,rfl,and_congr ?_ (vmfault_mapped known _ addr)⟩
    rw [handleVmfault]
    rw [known]
    exact (resumesWith_iff none task.tcb zeroRegs R).trans eq_comm
  | trapped result after =>
    obtain ⟨isLabel,trap,call⟩ := arrives
    have notVm : ¬ faultLabel message = 1 := by
      rw [isLabel]
      decide
    rw [if_neg notVm,if_pos isLabel]
    rw [handleUserException]
    rw [known]
    dsimp only
    rw [if_pos trap,call]
    simp only [ok_bind]
    by_cases ended : (taskAfter after tid task).exit.isSome
    · rw [if_pos ended]
      refine ⟨_,rfl,and_congr ((sees_iff _ none R).trans (seenIn_iff L.lcl.ib R)) ?_⟩
      constructor
      · intro _ running
        rw [running] at ended
        cases ended
      · intro _ inv isInv
        cases isInv
    · rw [if_neg ended]
      refine ⟨_,rfl,and_congr ((sees_iff _ _ R).trans (seenIn_iff L.lcl.ib R)) ?_⟩
      have running : (taskAfter after tid task).exit = none := Option.not_isSome_iff_eq_none.mp ended
      rw [imp_iff_right running]
      exact (resumesWith_iff _ task.tcb _ _).trans (carriedBy_iff L.lcl.ib R (retV result))
  | unknown result after =>
    obtain ⟨isLabel,call⟩ := arrives
    have notVm : ¬ faultLabel message = 1 := by
      rw [isLabel]
      decide
    have notTrap : ¬ faultLabel message = 2 := by
      rw [isLabel]
      decide
    rw [if_neg notVm,if_neg notTrap,if_pos isLabel]
    rw [handleUnknownSyscall]
    rw [known]
    dsimp only
    rw [call]
    simp only [ok_bind]
    exact ⟨_,rfl,(and_congr (sees_iff _ _ R) (resumesWith_iff _ task.tcb _ _)).trans (blank_iff _ R (retV result))⟩

/-! A task with number 1 that runs at 0x401000 and has no page at 0x5000. -/

def running : Frame := { Frame.blank with rip := 0x401000, rsp := 0x7FFFF000 }

/-- The message of its page fault: the instruction and the address. -/
def paging : Layer Unit :=
  { tasks := fun tid => if tid = 1 then some (Sel4Task.new 1 5) else none,
    lcl := { Execve.freshLayer with ib := (IpcBuffer.new.writeMr 0 0x401000).writeMr 1 0x5000 } }

/-- Handlers of the layer with a file service. -/
def handlers : Handler Unit := dispatch (Execve.serving Execve.zeros16) fun _ _ => []

theorem resume_promise_iff_paging : ∃ task, paging.tasks 1 = some task ∧
    ∃ out, handleFault handlers paging 1 (1 <<< 12) = .ok out ∧
      ((Event.vmFault 0x5000 : Event Unit).Promise running 1 out ↔
        (Event.vmFault 0x5000 : Event Unit).Kept paging.lcl.ib running 1 task) :=
  ⟨Sel4Task.new 1 5,rfl,resume_promise_iff running rfl (by decide : faultLabel (1 <<< 12) = 1)⟩

/-- After its page fault the task goes on at address 0. -/
theorem resume_loses_registers : ∃ out, handleFault handlers paging 1 (1 <<< 12) = .ok out ∧ out.1.resumed.isSome ∧
    ¬ (Event.vmFault 0x5000 : Event Unit).Promise running 1 out := by
  refine ⟨handleVmfault paging 1 (paging.lcl.ib.readMr 0),rfl,rfl,?_⟩
  rintro ⟨resumes,_⟩
  have same : generalRegisters zeroRegs = running := (resumesWith_iff none 5 zeroRegs running).mp resumes
  have ip := congrArg Frame.rip same
  revert ip
  decide

end Sel4Linux.Exception
