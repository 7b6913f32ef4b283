import Sel4Linux.Rounds

/-!
The registers of a thread around its syscall. Unless a child is made or ended or
the first thread ends, the caller gets its own registers back with the result in
RAX and RIP past the instruction, by one write and one reply, and stays the
active thread; a fork gives them to the child instead (`registers_kept`).
-/
namespace Sel4Linux.SyscallFrames
open Sel4Linux.Bytes Sel4Linux.Client Sel4Linux.Tcb Sel4Linux.Emulation Sel4Linux.FaultLoop Sel4Linux.Runs
set_option linter.unusedSimpArgs false

variable {ω : Type} (cfg : Setup) (K : Kernel ω)

/-- The handling of the syscall neither makes nor ends a child, and does not end the first thread. -/
def Ordinary (p : Process) (regs : Regs) : Prop :=
  match request regs with
  | .fork => cfg.utFound < 2
  | .execve => p.isChild = false
  | .exit _ => False
  | _ => True

/-- The caller gets its registers back but for RAX and RIP, and one empty reply; before that, at most its
    segment base is set. -/
structure Answered (p : Process) (regs : Regs) (retVal : Word) (out : Output) (q : Process) : Prop where
  written : ∃ before frame err,
    out.actions = before ++ [.invoke (tcbWriteRegisters p.activeTcb false 0 18 frame) err,.reply 0] ∧
      (tcbWriteRegisters p.activeTcb false 0 18 frame).frame = (pastSyscall (generalRegisters regs) retVal).words ∧
      ∀ a ∈ before, ∃ base err, a = .invoke (tcbSetTLSBase p.activeTcb base) err
  active : q.activeTcb = p.activeTcb
  child : q.isChild = p.isChild
  parent : q.parentRegs = p.parentRegs

/-- The child thread gets the caller's registers but for RAX and RIP and goes on; the caller gets no reply. -/
structure Forked (regs : Regs) (out : Output) : Prop where
  written : ∃ frame e₀ e₁,
    out.actions = [.invoke (tcbWriteRegisters cfg.childTcbSlot false 0 20 frame) e₀,.invoke (tcbResume cfg.childTcbSlot) e₁] ∧
      (tcbWriteRegisters cfg.childTcbSlot false 0 20 frame).frame =
        (pastSyscall (generalRegisters regs) 0).words ++ regs.toList.drop 18
  noReply : ∀ info, .reply info ∉ out.actions

variable {cfg K} {s : State ω} {r : Round} {regs : Regs}

/-- What an ordinary syscall does to the loop before its answer. -/
structure Unmoved (p : Process) (v : Served ω) : Prop where
  awake : v.resumed = false
  bases : ∀ a ∈ v.actions, ∃ base err, a = .invoke (tcbSetTLSBase p.activeTcb base) err
  active : v.state.process.activeTcb = p.activeTcb
  child : v.state.process.isChild = p.isChild
  parent : v.state.process.parentRegs = p.parentRegs

private theorem unmoved_silent {v : Served ω} (awake : v.resumed = false) (silent : v.actions = [])
    (process : v.state.process = s.process) : Unmoved s.process v := by
  refine ⟨awake,?_,by rw [process],by rw [process],by rw [process]⟩
  rw [silent]
  intro a member
  cases member

private theorem serve_unmoved {v : Served ω} (ordinary : Ordinary cfg s.process regs) (serves : serve cfg K s r regs = .ok v) :
    Unmoved s.process v := by
  unfold serve at serves
  unfold Ordinary at ordinary
  cases asks : request regs with
  | mmap length =>
    rw [asks] at serves
    cases serves
    exact ⟨rfl,fun a member => (by cases member),rfl,rfl,rfl⟩
  | brk addr =>
    rw [asks] at serves
    cases serves
    refine ⟨rfl,fun a member => (by cases member),?_,?_,?_⟩
    all_goals
      dsimp only [brkCall,Process.brk]
      split
      · rfl
      · rfl
  | fork =>
    rw [asks] at serves ordinary
    dsimp only [forkCall] at serves ordinary
    rw [if_neg (by omega)] at serves
    cases serves
    exact unmoved_silent rfl rfl rfl
  | execve =>
    rw [asks] at serves ordinary
    dsimp only [execveCall] at serves ordinary
    rw [ordinary,if_neg Bool.false_ne_true] at serves
    cases serves
    exact unmoved_silent rfl rfl rfl
  | exit code =>
    rw [asks] at ordinary
    exact ordinary.elim
  | wait4 status =>
    rw [asks] at serves
    cases serves
    dsimp only [wait4Call]
    split
    · exact unmoved_silent rfl rfl rfl
    · exact unmoved_silent rfl rfl rfl
  | archPrctl code addr =>
    rw [asks] at serves
    cases serves
    dsimp only [archPrctlCall]
    split
    · refine ⟨rfl,?_,rfl,rfl,rfl⟩
      intro a member
      exact ⟨addr,r.answers 0,List.mem_singleton.mp member⟩
    · split
      · exact unmoved_silent rfl rfl rfl
      · exact unmoved_silent rfl rfl rfl
  | other =>
    rw [asks] at serves
    obtain ⟨⟨retVal,w⟩,_,serves⟩ := bind_ok_iff.mp serves
    cases serves
    exact unmoved_silent rfl rfl rfl

/-- The kernel gets all 20 words of a forked frame. -/
private theorem frame_forked (tcb : Word) (regs : Regs) :
    (tcbWriteRegisters tcb false 0 20 (afterSyscall regs 0).toList).frame =
      (pastSyscall (generalRegisters regs) 0).words ++ regs.toList.drop 18 := by
  have general : (afterSyscall regs 0).toList.take 18 = (pastSyscall (generalRegisters regs) 0).words := by
    rw [← words_generalRegisters,afterSyscall,generalRegisters_setResult,pastSyscall]
  have bases : (afterSyscall regs 0).toList.drop 18 = regs.toList.drop 18 := by
    refine List.ext_getElem (by simp) ?_
    intro i inDrop inBases
    have later : 3 ≠ 18 + i ∧ 0 ≠ 18 + i := by omega
    simp only [List.getElem_drop,Vector.getElem_toList]
    simp [afterSyscall,setResult,Vector.getElem_set,later]
  rw [frame_writeRegisters,← general,← bases,List.take_append_drop]
  exact List.take_of_length_le (by simp)

/-- A syscall with its registers read: unless a child is made or ended or the first thread ends, the caller
    gets exactly its registers back with the handler's result in RAX and RIP past the instruction; a fork
    gives them to the child with 0 in RAX, and nothing to the caller. -/
theorem registers_kept (cfg : Setup) (K : Kernel ω) (s : State ω) (r : Round) (regs : Regs) (isServed : served s r = some regs) :
    (Ordinary cfg s.process regs → ∀ v, serve cfg K s.counted r regs = .ok v →
      ∃ out t, faultRound cfg K s r = .ok (out,t) ∧ Answered s.process regs v.retVal out t.process) ∧
    (request regs = .fork → 2 ≤ cfg.utFound →
      ∃ out t, faultRound cfg K s r = .ok (out,t) ∧ Forked cfg regs out) := by
  constructor
  · intro ordinary v serves
    have unmoved : Unmoved s.counted.process v := serve_unmoved ordinary serves
    refine ⟨_,_,by rw [faultRound_served isServed,serves]; rfl,?_⟩
    have answered : answer r regs v = [.invoke (tcbWriteRegisters v.state.process.activeTcb false 0 18
        (afterSyscall regs v.retVal).toList) (r.answers v.actions.length),.reply 0] := by
      rw [answer,if_neg (by rw [unmoved.awake]; exact Bool.false_ne_true)]
    refine ⟨⟨v.actions,(afterSyscall regs v.retVal).toList,r.answers v.actions.length,?_,frame_afterSyscall _ regs v.retVal,
      unmoved.bases⟩,?_,?_,?_⟩
    · rw [answered,unmoved.active]
      rfl
    · rw [settled_process]
      exact unmoved.active
    · rw [settled_process]
      exact unmoved.child
    · rw [settled_process]
      exact unmoved.parent
  · intro asks able
    have serves : serve cfg K s.counted r regs = .ok (forkCall cfg s.counted r regs) := by rw [serve,asks]
    refine ⟨_,_,by rw [faultRound_served isServed,serves]; rfl,?_⟩
    have forks : forkCall cfg s.counted r regs = _ := if_pos able
    have silent : answer r regs (forkCall cfg s.counted r regs) = [] := by
      rw [answer,forks,if_pos rfl]
    rw [silent,List.append_nil,forks]
    refine ⟨⟨_,_,_,rfl,frame_forked _ regs⟩,?_⟩
    intro info member
    simp at member

/-- The registers of a syscall with two arguments. -/
def callerOf (rip rax rdi rsi : Word) : Regs := { Frame.blank with rip := rip, rax := rax, rsi := rsi, rdi := rdi : Frame }.regs

/-- The first thread asks for its number, and forks. -/
theorem registers_kept_getpid_fork :
    (∃ out t, faultRound twoThreads noService beginning (calling 0x401000 39 0 0) = .ok (out,t) ∧
      Answered beginning.process (callerOf 0x401000 39 0 0) 1 out t.process) ∧
    ∃ out t, faultRound twoThreads noService beginning (calling 0x401000 57 0 0) = .ok (out,t) ∧
      Forked twoThreads (callerOf 0x401000 57 0 0) out :=
  ⟨(registers_kept twoThreads noService beginning (calling 0x401000 39 0 0) (callerOf 0x401000 39 0 0) rfl).1 trivial _ rfl,
    (registers_kept twoThreads noService beginning (calling 0x401000 57 0 0) (callerOf 0x401000 57 0 0) rfl).2 rfl (by decide)⟩

end Sel4Linux.SyscallFrames
