import Sel4Linux.Rounds

/-!
Forks and their ends, over whole runs of the fault loop. A history keeps the
forks whose child has not ended, the last one first; the loop itself keeps one
parent. When a child ends, the thread that made the fork goes on as it was then
(`parent_restored`), in every run in which no child forks; the parent that a
child's own fork overwrites never comes back (`nested_fork`). In all runs the
three variables on the fork agree, so the end of a child always finds a parent
(`fork_variables_agree`).
-/
namespace Sel4Linux.Forks
open Sel4Linux.Bytes Sel4Linux.Client Sel4Linux.Slots Sel4Linux.Tcb Sel4Linux.Emulation Sel4Linux.FaultLoop Sel4Linux.Runs
set_option linter.unusedSimpArgs false

/-- A fork: the thread that made it, with its registers and the cursors at that time. -/
structure Fork where
  tcb : Word
  regs : Regs
  brkCur : Word
  mmapCur : Word
  deriving DecidableEq

variable {ω : Type} (cfg : Setup) (K : Kernel ω)

/-- The forks whose child has not ended, after a served syscall. -/
def pendingAfter (p : Process) (pending : List Fork) (regs : Regs) : List Fork :=
  match request regs with
  | .fork => if 2 ≤ cfg.utFound then ⟨p.activeTcb,regs,p.brkCur,p.mmapCur⟩ :: pending else pending
  | .execve | .exit _ => if p.isChild then pending.tail else pending
  | _ => pending

def noteForks (s : State ω) (r : Round) (_ : Output) (_ : State ω) (pending : List Fork) : List Fork :=
  (served s r).elim pending (pendingAfter cfg s.process pending)

def forkRound : State ω × List Fork → Round → Except Stop (Output × (State ω × List Fork)) :=
  recorded (faultRound cfg K) (noteForks cfg)

/-- A child ends: it exits, or its execve is run. -/
def ChildEnds (s : State ω) (r : Round) : Prop :=
  s.process.isChild = true ∧ (asked s r = some .execve ∨ ∃ code, asked s r = some (.exit code))

/-- After the end of its child, the thread of a fork is the one that goes on, with the registers of
    the fork but for RAX and RIP, and with its cursors. -/
structure Restored (f : Fork) (ended : Word) (out : Output) (p : Process) : Prop where
  active : p.activeTcb = f.tcb
  brkCur : p.brkCur = f.brkCur
  mmapCur : p.mmapCur = f.mmapCur
  resumed : ∃ written e₀ e₁ e₂, out.actions =
    [.invoke (tcbSuspend ended) e₀,.invoke (tcbWriteRegisters f.tcb false 0 18 written) e₁,.invoke (tcbResume f.tcb) e₂] ∧
    (tcbWriteRegisters f.tcb false 0 18 written).frame = (pastSyscall (generalRegisters f.regs) CHILD_PID).words

/-- When a child ends, the round goes through and restores the fork that made it. -/
def ParentRestored : State ω × List Fork → Round → Prop := fun (s,pending) r =>
  ChildEnds s r → ∃ out t, faultRound cfg K s r = .ok (out,t) ∧
    ∃ f rest, pending = f :: rest ∧ Restored f s.process.activeTcb out t.process

/-- A fork is made by the first thread, never by a child. -/
def OutermostFork : State ω × List Fork → Round → Prop := fun (s,_) r =>
  asked s r = some .fork → 2 ≤ cfg.utFound → s.process.isChild = false

/-- What the loop remembers is the one fork whose child has not ended. -/
structure Remembered (p : Process) (pending : List Fork) : Prop where
  parent : p.isChild = false → pending = [] ∧ p.activeTcb = cfg.busyboxTcb
  child : p.isChild = true → ∃ f, pending = [f] ∧ f.tcb = cfg.busyboxTcb ∧ p.parentRegs = some f.regs ∧
    p.parentBrk = f.brkCur ∧ p.parentMmap = f.mmapCur

variable {cfg K}

private theorem remembered_restore {p : Process} {pending : List Fork} (one : Remembered cfg p pending)
    (child : p.isChild = true) : Remembered cfg (p.restore cfg) pending.tail := by
  obtain ⟨f,isOne,_⟩ := one.child child
  refine ⟨fun _ => ⟨?_,rfl⟩,fun still => ?_⟩
  · rw [isOne]
    rfl
  · cases still

private theorem remembered_after {p : Process} {pending : List Fork} {regs : Regs} (one : Remembered cfg p pending)
    (outermost : request regs = .fork → 2 ≤ cfg.utFound → p.isChild = false) :
    Remembered cfg (p.after cfg regs) (pendingAfter cfg p pending regs) := by
  unfold Process.after pendingAfter
  cases asks : request regs with
  | mmap length => exact ⟨one.parent,one.child⟩
  | brk addr =>
    dsimp only [Process.brk]
    split
    · exact one
    · exact ⟨one.parent,one.child⟩
  | fork =>
    dsimp only
    split
    · next able =>
      obtain ⟨none,first⟩ := one.parent (outermost asks able)
      refine ⟨fun parent => ?_,fun _ => ⟨_,by rw [none],first,rfl,rfl,rfl⟩⟩
      cases parent
    · exact one
  | execve =>
    dsimp only
    split
    · next child => exact remembered_restore one child
    · exact one
  | exit code =>
    dsimp only
    split
    · next child => exact remembered_restore one child
    · exact one
  | wait4 status => exact one
  | archPrctl code addr => exact one
  | other => exact one

private theorem remembered_step {s t : State ω} {pending pending' : List Fork} {r : Round} {out : Output}
    (one : Remembered cfg s.process pending) (outermost : OutermostFork cfg (s,pending) r)
    (step : forkRound cfg K (s,pending) r = .ok (out,(t,pending'))) : Remembered cfg t.process pending' := by
  obtain ⟨round,rfl⟩ := recorded_ok_iff.mp step
  rw [faultRound_process round]
  rw [noteForks]
  cases isServed : served s r with
  | none => exact one
  | some regs =>
    refine remembered_after one fun asks able => outermost ?_ able
    rw [asked]
    rw [isServed]
    exact congrArg some asks

private theorem endChild_restored {s : State ω} {r : Round} {f : Fork} (first : f.tcb = cfg.busyboxTcb)
    (regs : s.process.parentRegs = some f.regs) (brk : s.process.parentBrk = f.brkCur)
    (mmap : s.process.parentMmap = f.mmapCur) :
    ∃ v, endChild cfg s r = .ok v ∧ v.resumed = true ∧ Restored f s.process.activeTcb ⟨v.actions,v.mem⟩ v.state.process := by
  refine ⟨_,by unfold endChild; rw [regs],rfl,?_⟩
  refine ⟨first.symm,brk,mmap,(afterSyscall f.regs CHILD_PID).toList,r.answers 0,r.answers 1,r.answers 2,?_,?_⟩
  · rw [first]
  · exact frame_afterSyscall f.tcb f.regs CHILD_PID

private theorem restored_step {s : State ω} {pending : List Fork} {r : Round} (one : Remembered cfg s.process pending) :
    ParentRestored cfg K (s,pending) r := by
  rintro ⟨child,asks⟩
  obtain ⟨f,isOne,first,regs,brk,mmap⟩ := one.child child
  obtain ⟨v,ended,resumed,restored⟩ : ∃ v, endChild cfg s.counted r = .ok v ∧ v.resumed = true ∧
      Restored f s.process.activeTcb ⟨v.actions,v.mem⟩ v.state.process := endChild_restored first regs brk mmap
  unfold asked at asks
  cases isServed : served s r with
  | none =>
    rw [isServed] at asks
    rcases asks with no | ⟨code,no⟩
    · cases no
    · cases no
  | some caller =>
    rw [isServed] at asks
    have serves : serve cfg K s.counted r caller = .ok v := by
      rw [← ended]
      rw [serve]
      rcases asks with execve | ⟨code,exit⟩
      · rw [Option.some.inj execve]
        exact if_pos child
      · rw [Option.some.inj exit]
        exact if_pos child
    refine ⟨_,_,by rw [faultRound_served isServed,serves]; rfl,f,[],isOne,?_⟩
    have nothing : answer r caller v = [] := if_pos resumed
    rw [nothing,List.append_nil,settled_process]
    exact restored

/-- Whenever a child ends, the thread that made the fork goes on with the registers and the cursors that
    it had then, in every run in which no child forks. -/
theorem parent_restored (cfg : Setup) (K : Kernel ω) (allocator : ObjectAllocator) (lcl : Lcl ω) (rounds : List Round)
    (outermost : Meets (forkRound cfg K) (OutermostFork cfg) (start cfg allocator lcl,[]) rounds) :
    Meets (forkRound cfg K) (ParentRestored cfg K) (start cfg allocator lcl,[]) rounds := by
  refine meets_of_meets (I := fun (s,pending) => Remembered cfg s.process pending) ?_ ?_ outermost
  · rintro ⟨s,pending⟩ r one condition
    refine ⟨restored_step one,?_⟩
    rintro out ⟨t,pending'⟩ step
    exact remembered_step one condition step
  · exact ⟨fun _ => ⟨rfl,rfl⟩,fun child => by cases child⟩

/-- The first thread forks and its child exits. -/
theorem parent_restored_fork_exit :
    Meets (forkRound twoThreads noService) (ParentRestored twoThreads noService) (beginning,[])
      [calling 0x401000 57 0 0,calling 0x402000 60 3 0] :=
  parent_restored twoThreads noService _ _ _ ⟨fun _ _ => rfl,fun o t first => by
    cases first
    exact ⟨fun asks => (by cases asks),fun _ _ _ => trivial⟩⟩

/-- The first thread forks, its child forks, and the second child exits: the thread of the first fork goes
    on with the registers of the second one. -/
theorem nested_fork :
    ¬ Meets (forkRound twoThreads noService) (ParentRestored twoThreads noService) (beginning,[])
      [calling 0x401000 57 0 0,calling 0x402000 57 0 0,calling 0x403000 60 3 0] := by
  intro meets
  have restores := ((meets.2 _ _ rfl).2 _ _ rfl).1
  obtain ⟨out,t,round,f,rest,isPending,restored⟩ := restores ⟨rfl,Or.inr ⟨3,rfl⟩⟩
  cases round
  obtain ⟨isFork,_⟩ := List.cons.inj isPending
  have active : (100 : Word) = 200 := restored.active.trans (congrArg Fork.tcb isFork).symm
  exact absurd active (by decide)

/-! ## The variables on the fork -/

/-- A child is active exactly when the active thread is the child thread, and exactly when a parent is saved. -/
structure Bookkept (cfg : Setup) (p : Process) : Prop where
  active : p.isChild = true ↔ p.activeTcb = cfg.childTcbSlot
  parent : p.isChild = true ↔ p.parentRegs.isSome = true

private theorem bookkept_first (distinct : cfg.busyboxTcb ≠ cfg.childTcbSlot) {p : Process} (first : p.isChild = false)
    (active : p.activeTcb = cfg.busyboxTcb) (parent : p.parentRegs = none) : Bookkept cfg p := by
  constructor
  · rw [first,active]
    exact iff_of_false Bool.false_ne_true distinct
  · rw [first,parent]
    exact iff_of_false Bool.false_ne_true Bool.false_ne_true

private theorem bookkept_after (distinct : cfg.busyboxTcb ≠ cfg.childTcbSlot) {p : Process} (kept : Bookkept cfg p) (regs : Regs) :
    Bookkept cfg (p.after cfg regs) := by
  unfold Process.after
  cases request regs with
  | mmap length => exact ⟨kept.active,kept.parent⟩
  | brk addr =>
    dsimp only [Process.brk]
    split
    · exact kept
    · exact ⟨kept.active,kept.parent⟩
  | fork =>
    dsimp only
    split
    · exact ⟨iff_of_true rfl rfl,iff_of_true rfl rfl⟩
    · exact kept
  | execve =>
    dsimp only
    split
    · exact bookkept_first distinct rfl rfl rfl
    · exact kept
  | exit code =>
    dsimp only
    split
    · exact bookkept_first distinct rfl rfl rfl
    · exact kept
  | wait4 status => exact kept
  | archPrctl code addr => exact kept
  | other => exact kept

private theorem endChild_finishes {s : State ω} (r : Round) (saved : s.process.parentRegs.isSome = true) :
    ∃ v, endChild cfg s r = .ok v := by
  obtain ⟨regs,isSaved⟩ := Option.isSome_iff_exists.mp saved
  unfold endChild
  rw [isSaved]
  exact ⟨_,rfl⟩

/-- After every run of the loop, with forks by the child among its syscalls or not: whether a child is active,
    which thread is active and whether a parent is saved say the same, and neither execve nor exit panics. -/
theorem fork_variables_agree (cfg : Setup) (K : Kernel ω) (distinct : cfg.busyboxTcb ≠ cfg.childTcbSlot)
    (allocator : ObjectAllocator) (lcl : Lcl ω) {rounds : List Round} {outs : List Output} {t : State ω}
    (ran : run (faultRound cfg K) (start cfg allocator lcl) rounds = .ok (outs,t)) :
    Bookkept cfg t.process ∧ ∀ r, (∃ v, execveCall cfg t.counted r = .ok v) ∧ ∃ v, exitCall cfg t.counted r = .ok v := by
  have kept : Bookkept cfg t.process := by
    refine run_invariant (I := fun s : State ω => Bookkept cfg s.process) ?_ ?_ ran
    · intro s r out u before round
      rw [faultRound_process round]
      cases served s r with
      | none => exact before
      | some regs => exact bookkept_after distinct before regs
    · exact bookkept_first distinct rfl rfl rfl
  refine ⟨kept,?_⟩
  intro r
  unfold execveCall exitCall
  rw [counted_process]
  by_cases child : t.process.isChild = true
  · simp only [if_pos child]
    have ends : ∃ v, endChild cfg t.counted r = .ok v := endChild_finishes r (kept.parent.mp child)
    exact ⟨ends,ends⟩
  · simp only [if_neg child]
    exact ⟨⟨_,rfl⟩,⟨_,rfl⟩⟩

/-- The first thread forks, its child forks, and the second child exits. -/
theorem fork_variables_agree_nested : ∃ outs t,
    run (faultRound twoThreads noService) beginning
      [calling 0x401000 57 0 0,calling 0x402000 57 0 0,calling 0x403000 60 3 0] = .ok (outs,t) ∧
      Bookkept twoThreads t.process := by
  obtain ⟨outs,t,ran⟩ : ∃ outs t, run (faultRound twoThreads noService) beginning
      [calling 0x401000 57 0 0,calling 0x402000 57 0 0,calling 0x403000 60 3 0] = .ok (outs,t) := ⟨_,_,rfl⟩
  exact ⟨outs,t,ran,(fork_variables_agree twoThreads noService (by decide) _ _ ran).1⟩

end Sel4Linux.Forks
