import Sel4Linux.Rounds

/-!
The guest's threads over whole runs of the fault loop. The kernel keeps which
threads run and whose fault message waits for its reply; a round takes the
message of a running thread, and its actions set threads going and stop them.
Parent and child share their memory, so that at most one of them may run, and
the loop reads and writes the registers of the thread that it takes to be active.
Exactly this thread runs between two rounds, and none after the loop, if and only
if no round leaves its fault unanswered or sets the first thread going in the
place of a child (`one_runs_iff`).
-/
namespace Sel4Linux.Threads
open Sel4Linux.Bytes Sel4Linux.Ipc Sel4Linux.TaskMem Sel4Linux.Client Sel4Linux.Slots Sel4Linux.Tcb Sel4Linux.Emulation
open Sel4Linux.FaultLoop Sel4Linux.Runs
set_option linter.unusedSimpArgs false

/-! ## Threads in the kernel -/

/-- Which threads run, and which one has sent the fault message that the reply capability stands for. -/
structure ThreadStates where
  runs : Word → Bool
  caller : Option Word

namespace ThreadStates

/-- Only one thread runs. -/
def only (tcb : Word) : ThreadStates := { runs := fun t => t == tcb, caller := none }

/-- A thread runs on. The reply capability for its fault is gone. -/
def go (k : ThreadStates) (tcb : Word) : ThreadStates :=
  { runs := fun t => t == tcb || k.runs t, caller := if k.caller = some tcb then none else k.caller }

/-- A thread runs no more, and cannot be replied to. -/
def stop (k : ThreadStates) (tcb : Word) : ThreadStates :=
  { runs := fun t => t != tcb && k.runs t, caller := if k.caller = some tcb then none else k.caller }

/-- A thread faults, and its message is received: an earlier reply capability is dropped. -/
def fault (k : ThreadStates) (tcb : Word) : ThreadStates := { runs := fun t => t != tcb && k.runs t, caller := some tcb }

/-- The empty reply to a fault message lets the thread run on. -/
def reply (k : ThreadStates) : ThreadStates :=
  match k.caller with
  | none => k
  | some tcb => k.go tcb

/-- The invocations of a thread that set it going or stop it: a resume, a suspend, and a write of registers
    with the flag that resumes. -/
def invoke (k : ThreadStates) (inv : Invocation) : ThreadStates :=
  if inv.label = 12 then k.go inv.dest
  else if inv.label = 11 then k.stop inv.dest
  else if inv.label = 3 ∧ (inv.mrs.headD 0).getLsbD 0 = true then k.go inv.dest
  else k

def perform (k : ThreadStates) : Action → ThreadStates
  | .invoke inv err => if err = 0 then k.invoke inv else k
  | .reply info => if info = 0 then k.reply else k
  | .zero _ => k

/-- The threads after the actions of a round, in order. -/
def performAll (k : ThreadStates) (actions : List Action) : ThreadStates := actions.foldl perform k

@[simp] theorem performAll_nil (k : ThreadStates) : k.performAll [] = k := rfl

@[simp] theorem performAll_cons (k : ThreadStates) (a : Action) (rest : List Action) :
    k.performAll (a :: rest) = (k.perform a).performAll rest := rfl

@[simp] theorem performAll_append (k : ThreadStates) (first second : List Action) :
    k.performAll (first ++ second) = (k.performAll first).performAll second := List.foldl_append

@[simp] theorem perform_reply (k : ThreadStates) : k.perform (.reply 0) = k.reply := by simp [perform]

@[simp] theorem perform_zero (k : ThreadStates) (page : Word) : k.perform (.zero page) = k := rfl

@[simp] theorem perform_suspend (k : ThreadStates) (tcb : Word) : k.perform (.invoke (tcbSuspend tcb) 0) = k.stop tcb := rfl

@[simp] theorem perform_resume (k : ThreadStates) (tcb : Word) : k.perform (.invoke (tcbResume tcb) 0) = k.go tcb := rfl

@[simp] theorem perform_write (k : ThreadStates) (tcb : Word) (count : BitVec 8) (regs : List Word) (err : Word) :
    k.perform (.invoke (tcbWriteRegisters tcb false 0 count regs) err) = k := by
  simp [perform,invoke,tcbWriteRegisters]

@[simp] theorem perform_writeResume (k : ThreadStates) (tcb : Word) (count : BitVec 8) (regs : List Word) :
    k.perform (.invoke (tcbWriteRegisters tcb true 0 count regs) 0) = k.go tcb := by
  simp [perform,invoke,tcbWriteRegisters]

/-- Invocations that make and map objects leave the threads alone. -/
theorem perform_other (k : ThreadStates) {inv : Invocation} (err : Word) (other : inv.label ≠ 3 ∧ inv.label ≠ 11 ∧ inv.label ≠ 12) :
    k.perform (.invoke inv err) = k := by
  have same : k.invoke inv = k := by
    rw [invoke,if_neg other.2.2,if_neg other.2.1]
    exact if_neg fun writes => other.1 writes.1
  rw [perform,same]
  exact ite_self k

/-- Exactly one thread runs. -/
def Alone (k : ThreadStates) (tcb : Word) : Prop := ∀ t, k.runs t = true ↔ t = tcb

def Idle (k : ThreadStates) : Prop := ∀ t, k.runs t = false

theorem alone_only (tcb : Word) : (only tcb).Alone tcb := by
  intro t
  simp [only]

theorem alone_inj {k : ThreadStates} {a b : Word} (first : k.Alone a) (second : k.Alone b) : a = b :=
  (second a).mp ((first a).mpr rfl)

theorem not_idle {k : ThreadStates} {a : Word} (alone : k.Alone a) : ¬ k.Idle := by
  intro idle
  have runs := (alone a).mpr rfl
  rw [idle a] at runs
  cases runs

theorem alone_go {k : ThreadStates} (idle : k.Idle) (tcb : Word) : (k.go tcb).Alone tcb := by
  intro t
  simp [go,idle t]

theorem idle_stop {k : ThreadStates} (idle : k.Idle) (tcb : Word) : (k.stop tcb).Idle := by
  intro t
  simp [stop,idle t]

theorem idle_stop_alone {k : ThreadStates} {tcb : Word} (alone : k.Alone tcb) : (k.stop tcb).Idle := by
  intro t
  by_cases same : t = tcb
  · simp [stop,same]
  · simp [stop,same,Bool.eq_false_iff.mpr (mt (alone t).mp same)]

theorem alone_stop {k : ThreadStates} {a tcb : Word} (alone : k.Alone a) (apart : a ≠ tcb) : (k.stop tcb).Alone a := by
  intro t
  by_cases same : t = tcb
  · simp [stop,same,apart.symm]
  · simp [stop,same,alone t]

theorem idle_fault {k : ThreadStates} {tcb : Word} (alone : k.Alone tcb) : (k.fault tcb).Idle := idle_stop_alone alone

theorem alone_reply {k : ThreadStates} {tcb : Word} (idle : k.Idle) (waits : k.caller = some tcb) : k.reply.Alone tcb := by
  rw [reply,waits]
  exact alone_go idle tcb

end ThreadStates

/-- What the loop relies on about the threads of the kernel: which run and which one waits for a reply can be told from
    the kernel's state, and the calls of the loop change that as seL4 documents them. -/
structure Sel4Threads (Θ : Type) where
  states : Θ → ThreadStates
  receive : Θ → Word → Θ
  perform : Θ → Action → Θ
  /-- A fault stops its thread. Receiving its message drops the reply capability of an earlier one. -/
  receives : ∀ k f, states (receive k f) = (states k).fault f
  suspends : ∀ k inv, inv.label = 11 → states (perform k (.invoke inv 0)) = (states k).stop inv.dest
  resumes : ∀ k inv, inv.label = 12 → states (perform k (.invoke inv 0)) = (states k).go inv.dest
  writes : ∀ k inv, inv.label = 3 → (inv.mrs.headD 0).getLsbD 0 = true →
    states (perform k (.invoke inv 0)) = (states k).go inv.dest
  replies : ∀ k, states (perform k (.reply 0)) = (states k).reply
  /-- Nothing else sets a thread going or stops it. -/
  leaves : ∀ k a, (∀ k : ThreadStates, k.perform a = k) → states (perform k a) = states k

/-- The kernel that does nothing but keep this. -/
def Sel4Threads.plain : Sel4Threads ThreadStates where
  states := id
  receive := ThreadStates.fault
  perform := ThreadStates.perform
  receives _ _ := rfl
  suspends k inv isSuspend := by simp [ThreadStates.perform,ThreadStates.invoke,isSuspend]
  resumes k inv isResume := by simp [ThreadStates.perform,ThreadStates.invoke,isResume]
  writes k inv isWrite runsOn := by
    simp only [id,ThreadStates.perform,ThreadStates.invoke,if_true]
    rw [if_neg (by rw [isWrite]; decide),if_neg (by rw [isWrite]; decide),if_pos ⟨isWrite,runsOn⟩]
  replies k := ThreadStates.perform_reply k
  leaves k a same := same k

section
variable {Θ : Type} (T : Sel4Threads Θ)

/-- An action changes the threads as these readings say. -/
theorem Sel4Threads.performs (k : Θ) (a : Action) : T.states (T.perform k a) = (T.states k).perform a := by
  by_cases quiet : ∀ k : ThreadStates, k.perform a = k
  · rw [T.leaves k a quiet,quiet]
  · cases a with
    | zero page => exact absurd (fun _ => rfl) quiet
    | reply info =>
      by_cases empty : info = 0
      · subst empty
        rw [T.replies,ThreadStates.perform_reply]
      · exact absurd (fun k => if_neg empty) quiet
    | invoke inv err =>
      by_cases done : err = 0
      · subst done
        simp only [ThreadStates.perform,ThreadStates.invoke,if_true]
        by_cases isResume : inv.label = 12
        · rw [T.resumes k inv isResume,if_pos isResume]
        · rw [if_neg isResume]
          by_cases isSuspend : inv.label = 11
          · rw [T.suspends k inv isSuspend,if_pos isSuspend]
          · rw [if_neg isSuspend]
            by_cases isWrite : inv.label = 3 ∧ (inv.mrs.headD 0).getLsbD 0 = true
            · rw [T.writes k inv isWrite.1 isWrite.2,if_pos isWrite]
            · refine absurd (fun k => ?_) quiet
              simp only [ThreadStates.perform,ThreadStates.invoke,if_true,if_neg isResume,if_neg isSuspend,if_neg isWrite]
      · exact absurd (fun k => if_neg done) quiet

/-- The kernel after the actions of a round, in order. -/
def Sel4Threads.performAll (k : Θ) (actions : List Action) : Θ := actions.foldl T.perform k

theorem Sel4Threads.performsAll (k : Θ) (actions : List Action) :
    T.states (T.performAll k actions) = (T.states k).performAll actions := by
  induction actions generalizing k with
  | nil => rfl
  | cons a rest ih =>
    rw [ThreadStates.performAll_cons,← T.performs]
    exact ih (T.perform k a)

end

variable {ω Θ : Type} (T : Sel4Threads Θ) (cfg : Setup) (K : Kernel ω)

/-! ## Rounds and threads -/

/-- A round takes the message of the thread `f` and does its actions. -/
def noteThreads (_ : State ω) : Word × Round → Output → State ω → Θ → Θ :=
  fun (f,_) out _ k => T.performAll (T.receive k f) out.actions

/-- A round of the loop, with the threads in the kernel. -/
def threadRound : State ω × Θ → Word × Round → Except Stop (Output × (State ω × Θ)) :=
  recorded (fun s (_,r) => faultRound cfg K s r) (noteThreads T)

/-- An invocation that sets a thread going or stops it is not refused. -/
def granted : Action → Bool
  | .invoke inv err => decide (inv.label = 3 ∨ inv.label = 11 ∨ inv.label = 12 → err = 0)
  | _ => true

def Granted (actions : List Action) : Prop := actions.all granted = true

theorem Granted.error {actions : List Action} (all : Granted actions) {inv : Invocation} {err : Word}
    (member : .invoke inv err ∈ actions) (drives : inv.label = 3 ∨ inv.label = 11 ∨ inv.label = 12) : err = 0 :=
  of_decide_eq_true (List.all_eq_true.mp all _ member) drives

theorem granted_left {first second : List Action} (all : Granted (first ++ second)) : Granted first := by
  rw [Granted,List.all_append,Bool.and_eq_true] at all
  exact all.1

/-- The kernel's part in a round: only a thread that runs can fault, and the loop has the capabilities of the
    threads. -/
def Fair : State ω × Θ → Word × Round → Output → State ω × Θ → Prop :=
  fun (_,k) (f,_) out _ => (T.states k).runs f = true ∧ Granted out.actions

/-- Exactly the active thread runs, or none once the loop is left. -/
def Kept (t : State ω) (k : ThreadStates) : Prop :=
  (t.left = false → k.Alone t.process.activeTcb) ∧ (t.left = true → k.Idle)

/-- The fault is that of the thread whose registers the round reads and writes, and the threads are kept. -/
def OneRuns : State ω × Θ → Word × Round → Output → State ω × Θ → Prop :=
  fun (s,_) (f,_) _ (t,k) => f = s.process.activeTcb ∧ Kept t (T.states k)

/-- A `syscall` instruction is where a capability fault happened. -/
def AtSyscall (r : Round) : Prop :=
  r.ib.readMr 0 ≠ 0 ∧ r.ib.readMr 0 ≠ BitVec.allOnes 64 ∧ r.mem (r.ib.readMr 0) = 0x0F ∧ r.mem (r.ib.readMr 0 + 1) = 0x05

/-- The missing page is the first one, or a frame is made for it that cannot be mapped. -/
def Unmappable (r : Round) : Prop :=
  pageVaddr (r.ib.readMr 1) < 0x1000 ∨
    (cfg.bi.findFreeUntyped 12).isSome = true ∧ r.answers 0 = 0 ∧ r.answers 1 ≠ 0 ∧ ¬ (r.answers 2 = 0 ∧ r.answers 4 = 0)

/-- If the thread `a` makes a syscall, its registers can be read, and only the first thread has a capability fault at a
    `syscall` instruction or misses a page that cannot be mapped. -/
def Turn (r : Round) (a : Word) : Prop :=
  (faultType r.tag = 2 → (r.readRegisters a).1 = 0) ∧ (faultType r.tag = 1 → AtSyscall r → a = cfg.busyboxTcb) ∧
    (faultType r.tag = 4 ∨ faultType r.tag = 5 → Unmappable cfg r → a = cfg.busyboxTcb)

def InTurn : State ω × Θ → Word × Round → Output → State ω × Θ → Prop :=
  fun (s,_) (_,r) _ _ => s.faultCount < MAX_FAULTS → Turn cfg r s.process.activeTcb

/-- While the loop goes on, the first thread has not ended and exactly the active thread runs. -/
def Scheduled : State ω × ThreadStates → Prop :=
  fun (s,k) => s.left = false → s.childExited = false ∧ k.Alone s.process.activeTcb

variable {cfg K} {s : State ω} {r : Round} {k : ThreadStates}

/-! ## Page faults -/

/-- Actions that set no thread going and stop none. -/
def Quiet (actions : List Action) : Prop := ∀ k : ThreadStates, k.performAll actions = k

theorem quiet_append {first second : List Action} (left : Quiet first) (right : Quiet second) : Quiet (first ++ second) := by
  intro k
  rw [ThreadStates.performAll_append,left k,right k]

theorem quiet_invoke {inv : Invocation} (err : Word) (other : inv.label ≠ 3 ∧ inv.label ≠ 11 ∧ inv.label ≠ 12) :
    Quiet [.invoke inv err] := by
  intro k
  simp [ThreadStates.perform_other k err other]

private theorem quiet_retype (ut kind size slot err : Word) :
    Quiet [.invoke (untypedRetype ut kind size CNODE CNODE 64 slot 1) err] :=
  quiet_invoke err (by simp [untypedRetype])

private theorem quiet_frameMap (slot page err : Word) : Quiet [.invoke (frameMap slot VSPACE page ALL_RIGHTS 0) err] :=
  quiet_invoke err (by simp [frameMap])

private theorem quiet_tableMap (slot page err : Word) : Quiet [.invoke (pageTableMap slot VSPACE page 0) err] :=
  quiet_invoke err (by simp [pageTableMap])

/-- How the handling of a page fault ends for the threads: the faulting thread gets its reply, or it is killed
    because its page cannot be mapped. -/
def FaultThreads (cfg : Setup) (s : State ω) (r : Round) (h : Handled ω) : Prop :=
  ∃ t done, t.process = s.process ∧ t.left = s.left ∧ t.childExited = s.childExited ∧ Quiet done ∧
    (¬ Unmappable cfg r ∧ h.flow = .next false ∧ h.state = t ∧ h.actions = done ∨
      Unmappable cfg r ∧ h = killChild cfg t r done)

theorem takeSlot_same {slot : Word} {t : State ω} (took : takeSlot s = .ok (slot,t)) :
    t.process = s.process ∧ t.left = s.left ∧ t.childExited = s.childExited := by
  rw [(takeSlot_ok took).2]
  exact ⟨rfl,rfl,rfl⟩

private theorem mapWithTable_threads {done : List Action} {page frameSlot : Word} {h : Handled ω} (quiet : Quiet done)
    (found : (cfg.bi.findFreeUntyped 12).isSome = true) (retyped : r.answers 0 = 0) (refused : r.answers 1 ≠ 0)
    (notNull : ¬ pageVaddr (r.ib.readMr 1) < 0x1000)
    (ran : mapWithTable cfg s r done page (frameMap frameSlot VSPACE page ALL_RIGHTS 0) = .ok h) :
    FaultThreads cfg s r h := by
  unfold mapWithTable at ran
  split at ran
  · next noUntyped =>
    rw [noUntyped] at found
    cases found
  · obtain ⟨⟨ptSlot,t⟩,took,ran⟩ := bind_ok_iff.mp ran
    obtain ⟨process,left,exited⟩ := takeSlot_same took
    dsimp only at ran
    split at ran
    · next tableMade =>
      split at ran
      · next mapped =>
        cases ran
        refine ⟨t,_,process,left,exited,?_,Or.inl ⟨?_,rfl,rfl,rfl⟩⟩
        · refine quiet_append (quiet_append (quiet_append quiet (quiet_retype _ _ _ _ _)) ?_) fun k => rfl
          exact quiet_append (quiet_tableMap _ _ _) (quiet_frameMap _ _ _)
        · rintro (isNull | ⟨_,_,_,fails⟩)
          · exact notNull isNull
          · exact fails ⟨tableMade,mapped⟩
      · next unmapped =>
        cases ran
        refine ⟨t,_,process,left,exited,?_,Or.inr ⟨Or.inr ⟨found,retyped,refused,fun both => unmapped both.2⟩,rfl⟩⟩
        refine quiet_append (quiet_append quiet (quiet_retype _ _ _ _ _)) ?_
        exact quiet_append (quiet_tableMap _ _ _) (quiet_frameMap _ _ _)
    · next noTable =>
      cases ran
      refine ⟨t,_,process,left,exited,?_,Or.inr ⟨Or.inr ⟨found,retyped,refused,fun both => noTable both.1⟩,rfl⟩⟩
      exact quiet_append quiet (quiet_retype _ _ _ _ _)

theorem vmFault_threads {h : Handled ω} (ran : vmFault cfg s r = .ok h) : FaultThreads cfg s r h := by
  unfold vmFault at ran
  dsimp only at ran
  split at ran
  · next isNull =>
    cases ran
    exact ⟨s,[],rfl,rfl,rfl,fun k => rfl,Or.inr ⟨Or.inl isNull,rfl⟩⟩
  · next notNull =>
    split at ran
    · next noUntyped =>
      cases ran
      refine ⟨s,[],rfl,rfl,rfl,fun k => rfl,Or.inl ⟨?_,rfl,rfl,rfl⟩⟩
      rintro (isNull | ⟨found,_⟩)
      · exact notNull isNull
      · rw [noUntyped] at found
        cases found
    · next ut _ found =>
      have someUntyped : (cfg.bi.findFreeUntyped 12).isSome = true := by rw [found]; rfl
      obtain ⟨⟨frameSlot,t⟩,took,ran⟩ := bind_ok_iff.mp ran
      obtain ⟨process,left,exited⟩ := takeSlot_same took
      dsimp only at ran
      split at ran
      · next retyped =>
        split at ran
        · next mapped =>
          cases ran
          refine ⟨t,_,process,left,exited,?_,Or.inl ⟨?_,rfl,rfl,rfl⟩⟩
          · exact quiet_append (quiet_append (quiet_retype _ _ _ _ _) (quiet_frameMap _ _ _)) fun k => rfl
          · rintro (isNull | ⟨_,_,refused,_⟩)
            · exact notNull isNull
            · exact refused mapped
        · next refused =>
          have quiet := quiet_append (quiet_retype ut FRAME_4K 12 frameSlot (r.answers 0)) (quiet_frameMap frameSlot
            (pageVaddr (r.ib.readMr 1)) (r.answers 1))
          obtain ⟨t',done,process',left',exited',ends⟩ := mapWithTable_threads quiet someUntyped retyped refused notNull ran
          exact ⟨t',done,process'.trans process,left'.trans left,exited'.trans exited,ends⟩
      · next failed =>
        cases ran
        refine ⟨t,_,process,left,exited,quiet_retype _ _ _ _ _,Or.inl ⟨?_,rfl,rfl,rfl⟩⟩
        rintro (isNull | ⟨_,retyped,_⟩)
        · exact notNull isNull
        · exact failed retyped

/-! ## Syscalls -/

/-- What a served syscall does to the threads: its caller is to be answered, another thread runs in the caller's
    place, or the first thread has ended. -/
inductive Serving (s : State ω) (k : ThreadStates) (v : Served ω) : Prop where
  | answered (waits : v.resumed = false) (quiet : k.performAll v.actions = k)
      (active : v.state.process.activeTcb = s.process.activeTcb) (alive : v.state.childExited = s.childExited)
  | switched (resumed : v.resumed = true) (alone : (k.performAll v.actions).Alone v.state.process.activeTcb)
      (alive : v.state.childExited = s.childExited)
  | ended (resumed : v.resumed = true) (idle : (k.performAll v.actions).Idle) (exited : v.state.childExited = true)

private theorem endChild_threads {v : Served ω} (idle : k.Idle) (granted : Granted v.actions)
    (ended : endChild cfg s r = .ok v) : v.state.left = s.left ∧ Serving s k v := by
  unfold endChild at ended
  split at ended
  · cases ended
  · cases ended
    have stopped : r.answers 0 = 0 := granted.error List.mem_cons_self (Or.inr (Or.inl rfl))
    have resumed : r.answers 2 = 0 := @Granted.error _ granted (tcbResume cfg.busyboxTcb) _ (by simp) (Or.inr (Or.inr rfl))
    refine ⟨rfl,.switched rfl ?_ rfl⟩
    simp only [ThreadStates.performAll_cons,ThreadStates.performAll_nil,stopped,resumed,ThreadStates.perform_suspend,
      ThreadStates.perform_write,ThreadStates.perform_resume]
    exact ThreadStates.alone_go (ThreadStates.idle_stop idle _) cfg.busyboxTcb

private theorem forkCall_threads {regs : Regs} (idle : k.Idle) (granted : Granted (forkCall cfg s r regs).actions) :
    (forkCall cfg s r regs).state.left = s.left ∧ Serving s k (forkCall cfg s r regs) := by
  unfold forkCall at granted ⊢
  split
  · next enough =>
    rw [if_pos enough] at granted
    have resumed : r.answers 1 = 0 := @Granted.error _ granted (tcbResume cfg.childTcbSlot) _ (by simp) (Or.inr (Or.inr rfl))
    refine ⟨rfl,.switched rfl ?_ rfl⟩
    simp only [ThreadStates.performAll_cons,ThreadStates.performAll_nil,resumed,ThreadStates.perform_write,
      ThreadStates.perform_resume]
    exact ThreadStates.alone_go idle cfg.childTcbSlot
  · exact ⟨rfl,.answered rfl rfl rfl rfl⟩

private theorem exitCall_threads {v : Served ω} (idle : k.Idle) (granted : Granted v.actions)
    (exits : exitCall cfg s r = .ok v) : v.state.left = s.left ∧ Serving s k v := by
  unfold exitCall at exits
  split at exits
  · exact endChild_threads idle granted exits
  · cases exits
    have stopped : r.answers 0 = 0 := granted.error List.mem_cons_self (Or.inr (Or.inl rfl))
    refine ⟨rfl,.ended rfl ?_ rfl⟩
    simp only [ThreadStates.performAll_cons,ThreadStates.performAll_nil,stopped,ThreadStates.perform_suspend]
    exact ThreadStates.idle_stop idle _

private theorem archPrctlCall_threads (regs : Regs) (rdi rsi : Word) :
    (archPrctlCall s r regs rdi rsi).state.left = s.left ∧ Serving s k (archPrctlCall s r regs rdi rsi) := by
  unfold archPrctlCall
  split
  · refine ⟨rfl,.answered rfl ?_ rfl rfl⟩
    exact quiet_invoke _ (by simp [tcbSetTLSBase]) k
  · split
    · exact ⟨rfl,.answered rfl rfl rfl rfl⟩
    · exact ⟨rfl,.answered rfl rfl rfl rfl⟩

theorem serve_threads {regs : Regs} {v : Served ω} (idle : k.Idle) (granted : Granted v.actions)
    (serves : serve cfg K s r regs = .ok v) : v.state.left = s.left ∧ Serving s k v := by
  unfold serve at serves
  cases asked : request regs with
  | mmap length =>
    rw [asked] at serves
    cases serves
    exact ⟨rfl,.answered rfl rfl rfl rfl⟩
  | brk addr =>
    rw [asked] at serves
    cases serves
    have active : (s.process.brk addr).activeTcb = s.process.activeTcb := by
      rw [Process.brk]
      split
      · rfl
      · rfl
    exact ⟨rfl,.answered rfl rfl active rfl⟩
  | fork =>
    rw [asked] at serves
    cases serves
    exact forkCall_threads idle granted
  | execve =>
    rw [asked] at serves
    dsimp only [execveCall] at serves
    split at serves
    · exact endChild_threads idle granted serves
    · cases serves
      exact ⟨rfl,.answered rfl rfl rfl rfl⟩
  | exit code =>
    rw [asked] at serves
    exact exitCall_threads idle granted serves
  | wait4 status =>
    rw [asked] at serves
    cases serves
    unfold wait4Call
    split
    · exact ⟨rfl,.answered rfl rfl rfl rfl⟩
    · exact ⟨rfl,.answered rfl rfl rfl rfl⟩
  | archPrctl code addr =>
    rw [asked] at serves
    cases serves
    exact archPrctlCall_threads regs code addr
  | other =>
    rw [asked] at serves
    obtain ⟨⟨retVal,w⟩,_,serves⟩ := bind_ok_iff.mp serves
    cases serves
    exact ⟨rfl,.answered rfl rfl rfl rfl⟩

/-! ## Rounds -/

theorem kept_running {t : State ω} (running : t.left = false) : Kept t k ↔ k.Alone t.process.activeTcb := by
  simp [Kept,running]

theorem kept_left {t : State ω} (left : t.left = true) : Kept t k ↔ k.Idle := by
  simp [Kept,left]

private theorem finish_replied {h : Handled ω} (flow : h.flow = .next false) (alive : h.state.childExited = false) :
    h.finish = (⟨h.actions ++ [.reply 0],h.mem⟩,h.state) := by
  simp [Handled.finish,flow,alive]

private theorem finish_resumed {h : Handled ω} (flow : h.flow = .next true) (alive : h.state.childExited = false) :
    h.finish = (⟨h.actions,h.mem⟩,h.state) := by
  simp [Handled.finish,flow,alive]

/-- The threads while a round handles the fault of the thread `a`. -/
structure Handling (s : State ω) (k : ThreadStates) (a : Word) : Prop where
  idle : k.Idle
  waits : k.caller = some a
  active : s.process.activeTcb = a
  alive : s.childExited = false
  running : s.left = false

variable {a : Word}

private theorem handling_reply (handling : Handling s k a) : k.reply.Alone a :=
  ThreadStates.alone_reply handling.idle handling.waits

private theorem replied_kept {h : Handled ω} {out : Output} {t : State ω} (handling : Handling s k a)
    (flow : h.flow = .next false) (quiet : Quiet h.actions) (process : h.state.process = s.process)
    (alive : h.state.childExited = s.childExited) (left : h.state.left = s.left) (finished : (out,t) = h.finish) :
    Kept t (k.performAll out.actions) ∧ t.childExited = false := by
  rw [finish_replied flow (alive.trans handling.alive)] at finished
  cases finished
  refine ⟨?_,alive.trans handling.alive⟩
  rw [kept_running (left.trans handling.running),process,handling.active,ThreadStates.performAll_append,quiet k]
  simp only [ThreadStates.performAll_cons,ThreadStates.performAll_nil,ThreadStates.perform_reply]
  exact handling_reply handling

private theorem vmFault_kept {h : Handled ω} {out : Output} {t : State ω} (handling : Handling s k a)
    (granted : Granted out.actions) (ran : vmFault cfg s r = .ok h) (finished : (out,t) = h.finish) :
    (Kept t (k.performAll out.actions) ↔ (Unmappable cfg r → a = cfg.busyboxTcb)) ∧ (t.left = false → t.childExited = false) := by
  obtain ⟨u,done,process,left,exited,quiet,⟨mappable,flow,rfl,rfl⟩ | ⟨unmappable,rfl⟩⟩ := vmFault_threads ran
  · obtain ⟨kept,alive⟩ := replied_kept handling flow quiet process exited left finished
    exact ⟨iff_of_true kept fun no => absurd no mappable,fun _ => alive⟩
  · cases finished
    have stopped : r.answers done.length = 0 :=
      @Granted.error _ granted (tcbSuspend cfg.busyboxTcb) _ (by simp [killChild]) (Or.inr (Or.inl rfl))
    refine ⟨?_,fun no => by cases no⟩
    rw [kept_left rfl]
    simp only [killChild,ThreadStates.performAll_append,quiet k,ThreadStates.performAll_cons,ThreadStates.performAll_nil,
      ThreadStates.perform_reply,stopped,ThreadStates.perform_suspend]
    constructor
    · intro idle _
      by_contra apart
      exact ThreadStates.not_idle (ThreadStates.alone_stop (handling_reply handling) apart) idle
    · intro isFirst
      have alone := handling_reply handling
      rw [isFirst unmappable] at alone
      exact ThreadStates.idle_stop_alone alone

private theorem capFault_kept {out : Output} {t : State ω} (handling : Handling s k a)
    (granted : Granted out.actions) (finished : (out,t) = (capFault cfg s r).finish) :
    (Kept t (k.performAll out.actions) ↔ (AtSyscall r → a = cfg.busyboxTcb)) ∧ (t.left = false → t.childExited = false) := by
  by_cases atSyscall : AtSyscall r
  · have isWrite : capFault cfg s r =
        { actions := [.invoke (tcbWriteRegisters cfg.busyboxTcb true 0 20 (r.readRegisters cfg.busyboxTcb).2.toList) (r.answers 0)],
          mem := storeBytes r.mem (r.ib.readMr 0) [0xCC,0x90], state := s, flow := .next true } := if_pos atSyscall
    rw [isWrite,finish_resumed rfl handling.alive] at finished
    cases finished
    have resumed : r.answers 0 = 0 := granted.error List.mem_cons_self (Or.inl rfl)
    refine ⟨?_,fun _ => handling.alive⟩
    have alone : (k.go cfg.busyboxTcb).Alone cfg.busyboxTcb := ThreadStates.alone_go handling.idle _
    rw [kept_running handling.running,handling.active,resumed]
    simp only [ThreadStates.performAll_cons,ThreadStates.performAll_nil,ThreadStates.perform_writeResume]
    constructor
    · intro isAlone _
      exact ThreadStates.alone_inj isAlone alone
    · intro isFirst
      rw [isFirst atSyscall]
      exact alone
  · have isNothing : capFault cfg s r = { actions := [], mem := r.mem, state := s, flow := .next false } := if_neg atSyscall
    rw [isNothing] at finished
    obtain ⟨kept,alive⟩ := replied_kept handling rfl (fun k => rfl) rfl rfl rfl finished
    exact ⟨iff_of_true kept fun no => absurd no atSyscall,fun _ => alive⟩

private theorem userException_kept {out : Output} {t : State ω} (handling : Handling s k a)
    (granted : Granted out.actions) (finished : (out,t) = (userException cfg s r).finish) :
    Kept t (k.performAll out.actions) ∧ t.left = true := by
  cases finished
  have stopped : r.answers 0 = 0 := granted.error List.mem_cons_self (Or.inr (Or.inl rfl))
  refine ⟨?_,rfl⟩
  rw [kept_left rfl]
  simp only [Handled.finish,userException,if_true,ThreadStates.performAll_cons,ThreadStates.performAll_nil,stopped,
    ThreadStates.perform_suspend]
  exact ThreadStates.idle_stop handling.idle _

private theorem served_kept {regs : Regs} {v : Served ω} {out : Output} {t : State ω} (handling : Handling s k a)
    (granted : Granted out.actions) (serves : serve cfg K s r regs = .ok v)
    (finished : (out,t) = (⟨v.actions ++ answer r regs v,v.mem⟩,v.state.settled)) :
    Kept t (k.performAll out.actions) ∧ (t.left = false → t.childExited = false) := by
  cases finished
  obtain ⟨left,serving⟩ := serve_threads handling.idle (granted_left granted) serves
  cases serving with
  | answered waits quiet active alive =>
    have alive : v.state.childExited = false := alive.trans handling.alive
    have going : v.state.settled = v.state := if_neg (by rw [alive]; exact Bool.false_ne_true)
    have notResumed : ¬ v.resumed = true := by rw [waits]; exact Bool.false_ne_true
    refine ⟨?_,fun _ => by rw [going]; exact alive⟩
    rw [going,kept_running (left.trans handling.running),active,handling.active,answer,if_neg notResumed]
    simp only [ThreadStates.performAll_append,quiet,ThreadStates.performAll_cons,ThreadStates.performAll_nil,
      ThreadStates.perform_write,ThreadStates.perform_reply]
    exact handling_reply handling
  | switched resumed alone alive =>
    have alive : v.state.childExited = false := alive.trans handling.alive
    have going : v.state.settled = v.state := if_neg (by rw [alive]; exact Bool.false_ne_true)
    refine ⟨?_,fun _ => by rw [going]; exact alive⟩
    rw [going,kept_running (left.trans handling.running),answer,if_pos resumed,List.append_nil]
    exact alone
  | ended resumed idle exited =>
    have leaves : v.state.settled = { v.state with left := true } := if_pos exited
    refine ⟨?_,fun no => by rw [leaves] at no; cases no⟩
    rw [leaves,kept_left rfl,answer,if_pos resumed,List.append_nil]
    exact idle

private theorem handle_kept {h : Handled ω} {out : Output} {t : State ω} (handling : Handling s k a)
    (granted : Granted out.actions) (unread : faultType r.tag = 2 → (r.readRegisters a).1 ≠ 0) (ran : handle cfg K s r = .ok h)
    (finished : (out,t) = h.finish) :
    (Kept t (k.performAll out.actions) ↔ Turn cfg r a) ∧ (t.left = false → t.childExited = false) := by
  unfold handle at ran
  unfold Turn
  split at ran
  · next isFault =>
    obtain ⟨kept,alive⟩ := vmFault_kept handling granted ran finished
    exact ⟨by simpa [isFault] using kept,alive⟩
  · next isFault =>
    obtain ⟨kept,alive⟩ := vmFault_kept handling granted ran finished
    exact ⟨by simpa [isFault] using kept,alive⟩
  · next isFault =>
    cases ran
    obtain ⟨kept,alive⟩ := capFault_kept handling granted finished
    exact ⟨by simpa [isFault] using kept,alive⟩
  · next isFault =>
    unfold unknownSyscall at ran
    dsimp only at ran
    rw [handling.active,if_pos (unread isFault)] at ran
    cases ran
    cases finished
    refine ⟨iff_of_false ?_ fun turn => unread isFault (turn.1 isFault),fun _ => handling.alive⟩
    change ¬ Kept s k
    rw [kept_running handling.running]
    exact fun alone => ThreadStates.not_idle alone handling.idle
  · next isFault =>
    cases ran
    obtain ⟨kept,left⟩ := userException_kept handling granted finished
    refine ⟨by simp [isFault,kept],fun no => ?_⟩
    rw [left] at no
    cases no
  · next notPage notPage' notCap notSyscall notException =>
    cases ran
    obtain ⟨kept,alive⟩ := replied_kept handling rfl (fun k => rfl) rfl rfl rfl finished
    refine ⟨iff_of_true kept ⟨fun no => absurd no notSyscall,fun no => absurd no notCap,?_⟩,fun _ => alive⟩
    rintro (no | no)
    · exact absurd no notPage
    · exact absurd no notPage'

/-- A round on the fault of the active thread keeps the threads exactly in turn. -/
theorem faultRound_kept {out : Output} {t : State ω} (handling : Handling s k s.process.activeTcb) (granted : Granted out.actions)
    (round : faultRound cfg K s r = .ok (out,t)) :
    (Kept t (k.performAll out.actions) ↔ (s.faultCount < MAX_FAULTS → Turn cfg r s.process.activeTcb)) ∧
      (t.left = false → t.childExited = false) := by
  by_cases within : s.faultCount < MAX_FAULTS
  · simp only [within,true_implies]
    by_cases read : faultType r.tag = 2 ∧ (r.readRegisters s.process.activeTcb).1 = 0
    · rw [faultRound_served (served_of_read handling.running within read.1 read.2)] at round
      obtain ⟨v,serves,round⟩ := bind_ok_iff.mp round
      have handling' : Handling s.counted k s.process.activeTcb :=
        ⟨handling.idle,handling.waits,rfl,handling.alive,handling.running⟩
      obtain ⟨kept,alive⟩ := served_kept handling' granted serves (Except.ok.inj round).symm
      refine ⟨iff_of_true kept ⟨fun _ => read.2,fun no => ?_,fun no => ?_⟩,alive⟩
      · rw [read.1] at no
        cases no
      · rw [read.1] at no
        rcases no with no | no
        · cases no
        · cases no
    · rw [faultRound_eq handling.running within] at round
      obtain ⟨h,ran,finished⟩ := bind_ok_iff.mp round
      have handling' : Handling s.counted k s.process.activeTcb :=
        ⟨handling.idle,handling.waits,rfl,handling.alive,handling.running⟩
      have unread : faultType r.tag = 2 → (r.readRegisters s.process.activeTcb).1 ≠ 0 :=
        fun isFault noError => read ⟨isFault,noError⟩
      exact handle_kept handling' granted unread ran (Except.ok.inj finished).symm
  · unfold faultRound at round
    rw [if_neg (by rw [handling.running]; exact Bool.false_ne_true)] at round
    dsimp only at round
    rw [if_pos (by omega)] at round
    cases round
    refine ⟨iff_of_true ?_ fun no => absurd no within,fun no => by cases no⟩
    rw [kept_left rfl]
    exact handling.idle

/-- With the kernel that does nothing but keep which threads run. -/
private theorem plain_runs_iff (cfg : Setup) (K : Kernel ω) (allocator : ObjectAllocator) (lcl : Lcl ω)
    (rounds : List (Word × Round))
    (fair : Always (threadRound .plain cfg K) (Fair .plain) (start cfg allocator lcl,.only cfg.busyboxTcb) rounds) :
    Always (threadRound .plain cfg K) (OneRuns .plain) (start cfg allocator lcl,.only cfg.busyboxTcb) rounds ↔
      Always (threadRound .plain cfg K) (InTurn cfg) (start cfg allocator lcl,.only cfg.busyboxTcb) rounds := by
  have step {s t : State ω} {k k' : ThreadStates} {f : Word} {r : Round} {out : Output} (scheduled : Scheduled (s,k))
      (fair : Fair .plain (s,k) (f,r) out (t,k')) (first : threadRound .plain cfg K (s,k) (f,r) = .ok (out,(t,k'))) :
      (OneRuns .plain (s,k) (f,r) out (t,k') ↔ InTurn cfg (s,k) (f,r) out (t,k')) ∧ (t.left = false → t.childExited = false) := by
    obtain ⟨round,rfl⟩ := recorded_ok_iff.mp first
    change faultRound cfg K s r = .ok (out,t) at round
    have running : s.left = false := by
      cases left : s.left with
      | false => rfl
      | true =>
        unfold faultRound at round
        rw [if_pos left] at round
        cases round
    obtain ⟨alive,alone⟩ := scheduled running
    have isActive : f = s.process.activeTcb := (alone f).mp fair.1
    have idle : (k.fault f).Idle := ThreadStates.idle_fault (by rw [isActive]; exact alone)
    have handling : Handling s (k.fault f) s.process.activeTcb := ⟨idle,congrArg some isActive,rfl,alive,running⟩
    obtain ⟨kept,alive'⟩ := faultRound_kept handling fair.2 round
    refine ⟨?_,alive'⟩
    rw [OneRuns,InTurn,noteThreads]
    exact (and_iff_right isActive).trans kept
  refine always_iff_of (I := Scheduled) ?_ ?_ ?_ fair
  · rintro ⟨s,k⟩ ⟨f,r⟩ out ⟨t,k'⟩ scheduled turn fair first
    obtain ⟨exact',alive⟩ := step scheduled fair first
    exact fun going => ⟨alive going,(exact'.mpr turn).2.1 going⟩
  · rintro ⟨s,k⟩ ⟨f,r⟩ out ⟨t,k'⟩ scheduled fair first
    exact (step scheduled fair first).1
  · exact fun _ => ⟨rfl,ThreadStates.alone_only cfg.busyboxTcb⟩

/-- In every run in which the kernel keeps to its part, each round serves the fault of the thread that it takes to be
    active, and exactly the active thread runs after it, or none once the loop is left, if and only if every round is
    in turn. -/
theorem one_runs_iff (T : Sel4Threads Θ) (cfg : Setup) (K : Kernel ω) (allocator : ObjectAllocator) (lcl : Lcl ω)
    (rounds : List (Word × Round)) {k : Θ} (alone : T.states k = .only cfg.busyboxTcb)
    (fair : Always (threadRound T cfg K) (Fair T) (start cfg allocator lcl,k) rounds) :
    Always (threadRound T cfg K) (OneRuns T) (start cfg allocator lcl,k) rounds ↔
      Always (threadRound T cfg K) (InTurn cfg) (start cfg allocator lcl,k) rounds := by
  have along (s : State ω) (i : Word × Round) (out : Output) (t : State ω) (k : Θ) :
      T.states (noteThreads T s i out t k) = noteThreads .plain s i out t (T.states k) := by
    rw [noteThreads,noteThreads,T.performsAll,T.receives]
    rfl
  have seen {P : State ω × ThreadStates → Word × Round → Output → State ω × ThreadStates → Prop} :
      Always (threadRound T cfg K) (fun p i o q => P (p.1,T.states p.2) i o (q.1,T.states q.2)) (start cfg allocator lcl,k) rounds ↔
        Always (threadRound .plain cfg K) P (start cfg allocator lcl,.only cfg.busyboxTcb) rounds := by
    rw [← alone]
    exact always_recorded_map T.states along
  have same := plain_runs_iff cfg K allocator lcl rounds (seen.mp fair)
  rw [← seen,← seen] at same
  exact same

private theorem calling_turn (rip rax rdi rsi tcb : Word) : Turn twoThreads (calling rip rax rdi rsi) tcb := by
  have isSyscall : faultType (calling rip rax rdi rsi).tag = 2 := by
    change faultType 0x2000 = 2
    decide
  rw [Turn,isSyscall]
  simp [calling]

/-- The first thread forks, its child exits, and the first thread goes on. -/
theorem one_runs_iff_fork :
    Always (threadRound .plain twoThreads noService) (OneRuns .plain) (beginning,.only 100)
      [(100,calling 0x401000 57 0 0),(200,calling 0x402000 60 3 0),(100,calling 0x403000 39 0 0)] := by
  refine (one_runs_iff .plain twoThreads noService _ _ _ rfl ?_).mpr ?_
  · intro o t first
    cases first
    refine ⟨⟨rfl,rfl⟩,?_⟩
    intro o t second
    cases second
    refine ⟨⟨rfl,rfl⟩,?_⟩
    intro o t third
    cases third
    exact ⟨⟨rfl,rfl⟩,trivial⟩
  · intro o t first
    cases first
    refine ⟨fun _ => calling_turn _ _ _ _ _,?_⟩
    intro o t second
    cases second
    refine ⟨fun _ => calling_turn _ _ _ _ _,?_⟩
    intro o t third
    cases third
    exact ⟨fun _ => calling_turn _ _ _ _ _,trivial⟩

end Sel4Linux.Threads
