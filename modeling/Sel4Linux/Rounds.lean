import Sel4Linux.FaultLoop

/-!
What a round of the fault loop does. The loop's variables change only where a
syscall is served, by its number (`faultRound_process`); a page is mapped only
where it is missing, and filled with zeros (`faultRound_mapped`).
-/
namespace Sel4Linux.FaultLoop
open Sel4Linux.Bytes Sel4Linux.Ipc Sel4Linux.TaskMem Sel4Linux.Client Sel4Linux.Slots Sel4Linux.Tcb Sel4Linux.Emulation
open Sel4Linux.Runs
set_option linter.unusedSimpArgs false

variable {ω : Type} {cfg : Setup} {K : Kernel ω} {s : State ω} {r : Round}

/-! ## Page faults -/

theorem takeSlot_ok {slot : Word} {t : State ω} (took : takeSlot s = .ok (slot,t)) :
    s.allocator.recycled = slot :: t.allocator.recycled ∧ t = { s with allocator := t.allocator } := by
  unfold takeSlot ObjectAllocator.alloc at took
  split at took
  · next slot' allocator isSome =>
    split at isSome
    · cases isSome
    · next slot'' rest isCons =>
      cases isSome
      cases took
      exact ⟨isCons,rfl⟩
  · cases took

def Action.mappedPage : Action → Option Word
  | .invoke inv err => if inv.label = 41 ∧ err = 0 then inv.mrs.head? else none
  | _ => none

def mappedPages (actions : List Action) : List Word := actions.filterMap Action.mappedPage

private theorem mappedPages_append (first second : List Action) :
    mappedPages (first ++ second) = mappedPages first ++ mappedPages second := List.filterMap_append

private theorem frameMap_refused {inv : Invocation} {err : Word} (refused : err ≠ 0) : mappedPages [.invoke inv err] = [] := by
  have unmapped : Action.mappedPage (.invoke inv err) = none := if_neg fun succeeds => refused succeeds.2
  rw [mappedPages]
  rw [List.filterMap_cons_none unmapped]
  rfl

/-- The missing page can be mapped: it is not the first one, a frame is made for it and mapped by the
    first attempt, or by the second one with a page table for it. -/
def Mappable (cfg : Setup) (s : State ω) (r : Round) : Prop :=
  ¬ pageVaddr (r.ib.readMr 1) < 0x1000 ∧ (cfg.bi.findFreeUntyped 12).isSome = true ∧ r.answers 0 = 0 ∧
    (r.answers 1 = 0 ∧ 1 ≤ s.allocator.recycled.length ∨
      r.answers 1 ≠ 0 ∧ 2 ≤ s.allocator.recycled.length ∧ r.answers 2 = 0 ∧ r.answers 4 = 0)

/-- How the handling of a page fault ends. -/
inductive FaultEnd (cfg : Setup) (s : State ω) (r : Round) (page : Word) : Handled ω → Prop where
  /-- The page is mapped and filled with zeros. -/
  | filled (t : State ω) (done : List Action) (process : t.process = s.process) (only : mappedPages done = [page])
      (noReply : ∀ info, .reply info ∉ done) (mappable : Mappable cfg s r) : FaultEnd cfg s r page (fillPage t r done page)
  /-- The first thread is stopped. -/
  | killed (t : State ω) (done : List Action) (process : t.process = s.process) (nothing : mappedPages done = [])
      (not : ¬ Mappable cfg s r) : FaultEnd cfg s r page (killChild cfg t r done)
  /-- The thread goes on without its page. -/
  | dropped (t : State ω) (done : List Action) (process : t.process = s.process) (nothing : mappedPages done = [])
      (noSuspend : ∀ tcb err, .invoke (tcbSuspend tcb) err ∉ done) (not : ¬ Mappable cfg s r) :
      FaultEnd cfg s r page { actions := done, mem := r.mem, state := t, flow := .next false }

private theorem mapWithTable_end {done : List Action} {page frameSlot : Word} {h : Handled ω}
    (ran : mapWithTable cfg s r done page (frameMap frameSlot VSPACE page ALL_RIGHTS 0) = .ok h) :
    ∃ t later, t.process = s.process ∧
      (h = fillPage t r (done ++ later) page ∧ mappedPages later = [page] ∧ (∀ info, .reply info ∉ later) ∧
          1 ≤ s.allocator.recycled.length ∧ r.answers 2 = 0 ∧ r.answers 4 = 0 ∨
        h = killChild cfg t r (done ++ later) ∧ mappedPages later = [] ∧
          ((cfg.bi.findFreeUntyped 12).isSome = true → ¬ (r.answers 2 = 0 ∧ r.answers 4 = 0))) := by
  unfold mapWithTable at ran
  split at ran
  · next noUntyped =>
    cases ran
    refine ⟨s,[],rfl,Or.inr ⟨by rw [List.append_nil],rfl,?_⟩⟩
    rw [noUntyped]
    intro no
    cases no
  · obtain ⟨⟨ptSlot,t⟩,took,ran⟩ := bind_ok_iff.mp ran
    obtain ⟨isCons,isT⟩ := takeSlot_ok took
    have process : t.process = s.process := by rw [isT]
    have room : 1 ≤ s.allocator.recycled.length := by
      rw [isCons]
      exact Nat.succ_le_succ (Nat.zero_le _)
    dsimp only at ran
    split at ran
    · next retyped =>
      split at ran
      · next again =>
        cases ran
        refine ⟨t,_,process,Or.inl ⟨by rw [List.append_assoc],?_,?_,room,retyped,again⟩⟩
        · rw [again]
          rfl
        · intro info member
          simp at member
      · next refused =>
        cases ran
        refine ⟨t,_,process,Or.inr ⟨by rw [List.append_assoc],?_,fun _ both => refused both.2⟩⟩
        exact (mappedPages_append [_,_] [_]).trans (frameMap_refused refused)
    · next refused =>
      cases ran
      exact ⟨t,_,process,Or.inr ⟨rfl,rfl,fun _ both => refused both.1⟩⟩

/-- The handling of a page fault ends in one of three ways. -/
theorem vmFault_end {h : Handled ω} (ran : vmFault cfg s r = .ok h) :
    FaultEnd cfg s r (pageVaddr (r.ib.readMr 1)) h := by
  unfold vmFault at ran
  dsimp only at ran
  split at ran
  · next isNull =>
    cases ran
    exact .killed s [] rfl rfl fun mappable => mappable.1 isNull
  · next notNull =>
    split at ran
    · next noUntyped =>
      cases ran
      refine .dropped s [] rfl rfl (fun _ _ member => by cases member) fun mappable => ?_
      have found := mappable.2.1
      rw [noUntyped] at found
      cases found
    · next ut _ found =>
      have someUntyped : (cfg.bi.findFreeUntyped 12).isSome = true := by rw [found]; rfl
      obtain ⟨⟨frameSlot,t⟩,took,ran⟩ := bind_ok_iff.mp ran
      obtain ⟨isCons,isT⟩ := takeSlot_ok took
      have process : t.process = s.process := by rw [isT]
      dsimp only at ran
      split at ran
      · next retyped =>
        split at ran
        · next mapped =>
          cases ran
          refine .filled t _ process ?_ ?_ ⟨notNull,someUntyped,retyped,Or.inl ⟨mapped,?_⟩⟩
          · rw [mapped]
            rfl
          · intro info member
            simp at member
          · rw [isCons]
            exact Nat.succ_le_succ (Nat.zero_le _)
        · next refused =>
          obtain ⟨t',later,process',⟨rfl,only,noReply,room,again⟩ | ⟨rfl,nothing,failed⟩⟩ := mapWithTable_end ran
          · refine .filled t' _ (process'.trans process) ?_ ?_ ⟨notNull,someUntyped,retyped,Or.inr ⟨refused,?_,again⟩⟩
            · rw [mappedPages_append,mappedPages_append [_] [_],frameMap_refused refused,only]
              rfl
            · intro info member
              rcases List.mem_append.mp member with old | new
              · simp at old
              · exact noReply info new
            · rw [isCons]
              exact Nat.succ_le_succ room
          · refine .killed t' _ (process'.trans process) ?_ fun mappable => ?_
            · rw [mappedPages_append,mappedPages_append [_] [_],frameMap_refused refused,nothing]
              rfl
            · rcases mappable.2.2.2 with ⟨mapped,_⟩ | ⟨_,_,again⟩
              · exact refused mapped
              · exact failed someUntyped again
      · next refused =>
        cases ran
        refine .dropped t _ process rfl ?_ fun mappable => refused mappable.2.2.1
        intro tcb err member
        simp [untypedRetype,tcbSuspend] at member

/-- A handled page fault leaves the loop's variables alone, maps no page but the missing one, and fills
    it with zeros. -/
theorem vmFault_paged {h : Handled ω} (ran : vmFault cfg s r = .ok h) :
    h.state.process = s.process ∧ ∀ p ∈ mappedPages h.actions, p = pageVaddr (r.ib.readMr 1) ∧
      ∀ a, pageVaddr a = p → h.mem a = 0 := by
  cases vmFault_end ran with
  | filled t done process only noReply mappable =>
    refine ⟨process,?_⟩
    intro p member
    have isPage : p = pageVaddr (r.ib.readMr 1) := by
      rw [show mappedPages (fillPage t r done (pageVaddr (r.ib.readMr 1))).actions = _ from mappedPages_append done [_],only]
        at member
      simpa [mappedPages,Action.mappedPage] using member
    exact ⟨isPage,fun a here => if_pos (here.trans isPage)⟩
  | killed t done process nothing not =>
    refine ⟨process,?_⟩
    intro p member
    rw [show mappedPages (killChild cfg t r done).actions = _ from mappedPages_append done [_,_],nothing] at member
    cases member
  | dropped t done process nothing noSuspend not =>
    refine ⟨process,?_⟩
    intro p member
    rw [nothing] at member
    cases member

/-! ## The end of a round -/

/-- The state in which a round handles its fault. -/
def State.counted (s : State ω) : State ω := { s with faultCount := s.faultCount + 1 }

/-- What a round has done once its fault is handled: unless the loop is left or another reply has been
    made, the thread gets a reply. -/
def Handled.finish (h : Handled ω) : Output × State ω :=
  match h.flow with
  | .again => (⟨h.actions,h.mem⟩,h.state)
  | .leave => (⟨h.actions,h.mem⟩,{ h.state with left := true })
  | .next resumed =>
    if h.state.childExited then (⟨h.actions,h.mem⟩,{ h.state with left := true })
    else if resumed then (⟨h.actions,h.mem⟩,h.state)
    else (⟨h.actions ++ [.reply 0],h.mem⟩,h.state)

theorem faultRound_eq (running : s.left = false) (within : s.faultCount < MAX_FAULTS) :
    faultRound cfg K s r = (do
      let h ← handle cfg K s.counted r
      .ok h.finish) := by
  have notOver : ¬ MAX_FAULTS < s.faultCount + 1 := by omega
  rw [faultRound]
  rw [if_neg (by rw [running]; exact Bool.false_ne_true)]
  dsimp only
  rw [if_neg notOver]
  change handle cfg K s.counted r >>= _ = _
  cases handle cfg K s.counted r with
  | error stop => rfl
  | ok h =>
    simp only [ok_bind,Handled.finish]
    cases h.flow with
    | again => rfl
    | leave => rfl
    | next resumed =>
      dsimp only
      split
      · rfl
      · split
        · rfl
        · rfl

theorem finish_process (h : Handled ω) : h.finish.2.process = h.state.process := by
  rw [Handled.finish]
  split
  · rfl
  · rfl
  · split
    · rfl
    · split
      · rfl
      · rfl

theorem finish_mem (h : Handled ω) : h.finish.1.mem = h.mem := by
  rw [Handled.finish]
  split
  · rfl
  · rfl
  · split
    · rfl
    · split
      · rfl
      · rfl

theorem finish_mapped (h : Handled ω) : mappedPages h.finish.1.actions = mappedPages h.actions := by
  rw [Handled.finish]
  split
  · rfl
  · rfl
  · split
    · rfl
    · split
      · rfl
      · exact (mappedPages_append h.actions [_]).trans (List.append_nil _)

/-! ## Syscalls -/

/-- The loop is left when the first thread has ended. -/
def State.settled (s : State ω) : State ω := if s.childExited then { s with left := true } else s

@[simp] theorem counted_process : s.counted.process = s.process := rfl

@[simp] theorem settled_process : s.settled.process = s.process := by
  rw [State.settled]
  split
  · rfl
  · rfl

/-- The registers of the caller, when a round serves a syscall. -/
def served (s : State ω) (r : Round) : Option Regs :=
  if s.left = false ∧ s.faultCount < MAX_FAULTS ∧ faultType r.tag = 2 ∧ (r.readRegisters s.process.activeTcb).1 = 0 then
    some (r.readRegisters s.process.activeTcb).2
  else none

theorem served_of_read (running : s.left = false) (within : s.faultCount < MAX_FAULTS) (isSyscall : faultType r.tag = 2)
    (read : (r.readRegisters s.process.activeTcb).1 = 0) : served s r = some (r.readRegisters s.process.activeTcb).2 :=
  if_pos ⟨running,within,isSyscall,read⟩

def asked (s : State ω) (r : Round) : Option Request := (served s r).map request

theorem asked_iff {q : Request} : asked s r = some q ↔ ∃ regs, served s r = some regs ∧ request regs = q :=
  Option.map_eq_some_iff

/-- What follows a served syscall: unless another thread goes on, the caller's result and its reply. -/
def answer (r : Round) (regs : Regs) (v : Served ω) : List Action :=
  if v.resumed then []
  else
    [.invoke (tcbWriteRegisters v.state.process.activeTcb false 0 18 (afterSyscall regs v.retVal).toList)
        (r.answers v.actions.length),.reply 0]

theorem generalRegisters_regsAfter (regs : Regs) : generalRegisters (regsAfter regs) = generalRegisters regs := by
  rw [regsAfter]
  split
  · split
    · exact generalRegisters_setBase regs _
    · rfl
  · rfl

/-- Writing 18 registers leaves out the word that arch_prctl changes. -/
theorem written_regsAfter (tcb : Word) (regs : Regs) (retVal : Word) :
    tcbWriteRegisters tcb false 0 18 (afterSyscall (regsAfter regs) retVal).toList =
      tcbWriteRegisters tcb false 0 18 (afterSyscall regs retVal).toList := by
  have taken : (afterSyscall (regsAfter regs) retVal).toList.take 18 = (afterSyscall regs retVal).toList.take 18 := by
    rw [← words_generalRegisters,← words_generalRegisters,afterSyscall,afterSyscall,generalRegisters_setResult,
      generalRegisters_setResult,generalRegisters_regsAfter]
  have count : min 20 (18 : BitVec 8).toNat = 18 := rfl
  simp only [tcbWriteRegisters,Vector.length_toList,count,taken]

private theorem unknownSyscall_of_read {regs : Regs} (read : r.readRegisters s.process.activeTcb = (0,regs)) :
    unknownSyscall cfg K s r = (do
      let v ← serve cfg K s r regs
      .ok { actions := v.actions ++ answer r regs v, mem := v.mem, state := v.state, flow := .next true }) := by
  rw [unknownSyscall]
  simp only [read,ne_eq,not_true_eq_false,if_false]
  cases serve cfg K s r regs with
  | error stop => rfl
  | ok v =>
    simp only [ok_bind,answer]
    by_cases resumed : v.resumed = true
    · simp only [resumed,if_true,List.append_nil]
    · simp only [resumed,if_false,Bool.false_eq_true,written_regsAfter]

private theorem unknownSyscall_ok {h : Handled ω} (handled : unknownSyscall cfg K s r = .ok h) :
    ((r.readRegisters s.process.activeTcb).1 ≠ 0 ∧ h.state = s ∧ h.actions = []) ∨
      (r.readRegisters s.process.activeTcb).1 = 0 ∧ ∃ v, serve cfg K s r (r.readRegisters s.process.activeTcb).2 = .ok v ∧
        h.actions = v.actions ++ answer r (r.readRegisters s.process.activeTcb).2 v := by
  by_cases read : (r.readRegisters s.process.activeTcb).1 = 0
  · refine Or.inr ⟨read,?_⟩
    rw [unknownSyscall_of_read (Prod.ext read rfl)] at handled
    obtain ⟨v,serves,handled⟩ := bind_ok_iff.mp handled
    cases handled
    exact ⟨v,serves,rfl⟩
  · refine Or.inl ⟨read,?_⟩
    unfold unknownSyscall at handled
    dsimp only at handled
    rw [if_pos read] at handled
    cases handled
    exact ⟨rfl,rfl⟩

/-- A round that serves a syscall does nothing else. -/
theorem faultRound_served {regs : Regs} (isServed : served s r = some regs) :
    faultRound cfg K s r = (do
      let v ← serve cfg K s.counted r regs
      .ok (⟨v.actions ++ answer r regs v,v.mem⟩,v.state.settled)) := by
  unfold served at isServed
  split at isServed
  · next ready =>
    obtain ⟨running,within,isSyscall,noError⟩ := ready
    have read : r.readRegisters s.counted.process.activeTcb = (0,regs) := Prod.ext noError (Option.some.inj isServed)
    have handled : unknownSyscall cfg K s.counted r = _ := unknownSyscall_of_read read
    rw [faultRound_eq running within]
    rw [handle]
    rw [isSyscall]
    change unknownSyscall cfg K s.counted r >>= _ = _
    rw [handled]
    cases serve cfg K s.counted r regs with
    | error stop => rfl
    | ok v =>
      simp only [ok_bind,Handled.finish,State.settled,if_true]
      split
      · rfl
      · rfl
  · cases isServed

private theorem faultRound_handled {out : Output} {t : State ω} (round : faultRound cfg K s r = .ok (out,t)) :
    t.process = s.process ∧ out.actions = [] ∨
      ∃ h, (s.left = false ∧ s.faultCount < MAX_FAULTS) ∧ handle cfg K s.counted r = .ok h ∧ (out,t) = h.finish := by
  cases running : s.left with
  | true =>
    unfold faultRound at round
    rw [if_pos running] at round
    cases round
  | false =>
    by_cases within : s.faultCount < MAX_FAULTS
    · rw [faultRound_eq running within] at round
      obtain ⟨h,handled,finished⟩ := bind_ok_iff.mp round
      exact Or.inr ⟨h,⟨rfl,within⟩,handled,(Except.ok.inj finished).symm⟩
    · unfold faultRound at round
      rw [if_neg (by rw [running]; exact Bool.false_ne_true)] at round
      dsimp only at round
      rw [if_pos (by omega)] at round
      cases round
      exact Or.inl ⟨rfl,rfl⟩

/-- What a served syscall does to the loop's variables. -/
def Process.after (cfg : Setup) (p : Process) (regs : Regs) : Process :=
  match request regs with
  | .mmap length => p.mmap length
  | .brk addr => p.brk addr
  | .fork => if 2 ≤ cfg.utFound then p.fork cfg regs else p
  | .execve | .exit _ => if p.isChild then p.restore cfg else p
  | .wait4 _ | .archPrctl _ _ | .other => p

private theorem endChild_ok {v : Served ω} (ended : endChild cfg s r = .ok v) :
    v.state.process = s.process.restore cfg ∧ mappedPages v.actions = [] := by
  unfold endChild at ended
  split at ended
  · cases ended
  · cases ended
    exact ⟨rfl,rfl⟩

/-- A served syscall changes the loop's variables by its number, and maps no page. -/
theorem serve_ok {regs : Regs} {v : Served ω} (serves : serve cfg K s r regs = .ok v) :
    v.state.process = s.process.after cfg regs ∧ mappedPages v.actions = [] := by
  unfold serve at serves
  rw [Process.after]
  cases asked : request regs with
  | mmap length =>
    rw [asked] at serves
    cases serves
    exact ⟨rfl,rfl⟩
  | brk addr =>
    rw [asked] at serves
    cases serves
    exact ⟨rfl,rfl⟩
  | fork =>
    rw [asked] at serves
    cases serves
    dsimp only [forkCall]
    split
    · exact ⟨rfl,rfl⟩
    · exact ⟨rfl,rfl⟩
  | execve =>
    rw [asked] at serves
    dsimp only [execveCall] at serves ⊢
    split at serves
    · next child =>
      rw [if_pos child]
      exact endChild_ok serves
    · next parent =>
      cases serves
      exact ⟨(if_neg parent).symm,rfl⟩
  | exit code =>
    rw [asked] at serves
    dsimp only [exitCall] at serves ⊢
    split at serves
    · next child =>
      rw [if_pos child]
      exact endChild_ok serves
    · next parent =>
      cases serves
      exact ⟨(if_neg parent).symm,rfl⟩
  | wait4 status =>
    rw [asked] at serves
    cases serves
    dsimp only [wait4Call]
    split
    · exact ⟨rfl,rfl⟩
    · exact ⟨rfl,rfl⟩
  | archPrctl code addr =>
    rw [asked] at serves
    cases serves
    dsimp only [archPrctlCall]
    split
    · exact ⟨rfl,rfl⟩
    · split
      · exact ⟨rfl,rfl⟩
      · exact ⟨rfl,rfl⟩
  | other =>
    rw [asked] at serves
    obtain ⟨⟨retVal,w⟩,_,serves⟩ := bind_ok_iff.mp serves
    cases serves
    exact ⟨rfl,rfl⟩

private theorem answer_mapped (regs : Regs) (v : Served ω) : mappedPages (answer r regs v) = [] := by
  rw [answer]
  split
  · rfl
  · rfl

private theorem capFault_process : (capFault cfg s r).state.process = s.process := by
  rw [capFault]
  dsimp only
  split
  · rfl
  · rfl

private theorem capFault_mapped : mappedPages (capFault cfg s r).actions = [] := by
  rw [capFault]
  dsimp only
  split
  · rfl
  · rfl

/-- The loop's variables change only where a syscall is served, and then as the syscall says. -/
theorem faultRound_process {out : Output} {t : State ω} (round : faultRound cfg K s r = .ok (out,t)) :
    t.process = (served s r).elim s.process (s.process.after cfg) := by
  cases isServed : served s r with
  | some regs =>
    rw [faultRound_served isServed] at round
    obtain ⟨v,serves,round⟩ := bind_ok_iff.mp round
    cases round
    rw [settled_process,(serve_ok serves).1]
    rfl
  | none =>
    rcases faultRound_handled round with ⟨same,_⟩ | ⟨h,⟨running,within⟩,handled,finished⟩
    · exact same
    · rw [show t = h.finish.2 from congrArg Prod.snd finished,finish_process]
      unfold handle at handled
      split at handled
      · exact (vmFault_paged handled).1
      · exact (vmFault_paged handled).1
      · cases handled
        exact capFault_process
      · next isSyscall =>
        rcases unknownSyscall_ok handled with ⟨_,keeps,_⟩ | ⟨read,_⟩
        · rw [keeps]
          rfl
        · rw [served_of_read running within isSyscall read] at isServed
          cases isServed
      · cases handled
        rfl
      · cases handled
        rfl

/-- A page is mapped only by the handling of a fault on it, which fills it with zeros. -/
theorem faultRound_mapped {out : Output} {t : State ω} (round : faultRound cfg K s r = .ok (out,t)) :
    ∀ p ∈ mappedPages out.actions, (faultType r.tag = 4 ∨ faultType r.tag = 5) ∧ p = pageVaddr (r.ib.readMr 1) ∧
      ∀ a, pageVaddr a = p → out.mem a = 0 := by
  rcases faultRound_handled round with ⟨_,nothing⟩ | ⟨h,_,handled,finished⟩
  · rw [nothing]
    intro p member
    cases member
  · rw [show out = h.finish.1 from congrArg Prod.fst finished,finish_mapped,finish_mem]
    unfold handle at handled
    split at handled
    · next isFault => exact fun p member => ⟨Or.inl isFault,(vmFault_paged handled).2 p member⟩
    · next isFault => exact fun p member => ⟨Or.inr isFault,(vmFault_paged handled).2 p member⟩
    · cases handled
      intro p member
      rw [capFault_mapped] at member
      cases member
    · rcases unknownSyscall_ok handled with ⟨_,_,nothing⟩ | ⟨_,v,serves,actions⟩
      · rw [nothing]
        intro p member
        cases member
      · have nothing : mappedPages h.actions = [] := by
          rw [actions]
          rw [mappedPages]
          rw [List.filterMap_append]
          exact congrArg₂ (· ++ ·) (serve_ok serves).2 (answer_mapped _ v)
        rw [nothing]
        intro p member
        cases member
    · cases handled
      intro p member
      simp [mappedPages,Action.mappedPage,userException,tcbSuspend] at member
    · cases handled
      intro p member
      cases member

def pastSyscall (f : Frame) (retVal : Word) : Frame := { f with rax := retVal, rip := f.rip + 2 }

/-- The kernel gets the registers of a thread after its syscall. -/
theorem frame_afterSyscall (tcb : Word) (regs : Regs) (retVal : Word) :
    (tcbWriteRegisters tcb false 0 18 (afterSyscall regs retVal).toList).frame =
      (pastSyscall (generalRegisters regs) retVal).words := by
  have registers : generalRegisters (afterSyscall regs retVal) = pastSyscall (generalRegisters regs) retVal := by
    rw [afterSyscall,generalRegisters_setResult,pastSyscall]
  rw [frame_writeRegisters,← registers,words_generalRegisters]
  rfl

/-- The value for RAX in the frame that an action writes to a thread. -/
def Action.result : Action → Option Word
  | .invoke inv _ => if inv.label = 3 then inv.frame[3]? else none
  | _ => none

def resultOf (actions : List Action) : Option Word := actions.findSome? Action.result

theorem resultOf_answer {regs : Regs} {v : Served ω} (notResumed : v.resumed = false) :
    resultOf (answer r regs v) = some v.retVal := by
  unfold answer resultOf
  rw [if_neg (by rw [notResumed]; exact Bool.false_ne_true)]
  simp only [List.findSome?_cons,Action.result,frame_afterSyscall]
  rfl

/-- A syscall that is answered without any other action. -/
theorem faultRound_answered {t : State ω} {out : Output} {regs : Regs} {v : Served ω} (isServed : served s r = some regs)
    (serves : serve cfg K s.counted r regs = .ok v) (alone : v.actions = []) (notResumed : v.resumed = false)
    (round : faultRound cfg K s r = .ok (out,t)) : resultOf out.actions = some v.retVal ∧ out.mem = v.mem := by
  rw [faultRound_served isServed,serves] at round
  cases round
  refine ⟨?_,rfl⟩
  rw [alone]
  exact resultOf_answer notResumed

/-- Two threads, in the slots 100 and 200, and memory of 4 KiB. -/
def twoThreads : Setup :=
  { bi := { empty := ⟨100,300⟩, untypedStart := 400, untypedList := [⟨12,0⟩,⟨12,0⟩] }, busyboxTcb := 100, childTcbSlot := 200,
    utFound := 2 }

/-- The round of a syscall with two arguments, made at `rip`. -/
def calling (rip rax rdi rsi : Word) : Round :=
  { tag := 0x2000, ib := IpcBuffer.new, answers := fun _ => 0, mem := fun _ => 0, port := [],
    readRegisters := fun _ => (0,{ Frame.blank with rip := rip, rax := rax, rsi := rsi, rdi := rdi : Frame }.regs) }

/-- The round of a page fault at `addr`, with the kernel's answers. -/
def missing (addr : Word) (answers : Nat → Word) : Round :=
  { tag := 0x5004, ib := IpcBuffer.new.writeMr 1 addr, answers := answers, mem := fun _ => 0, port := [],
    readRegisters := fun _ => (0,Frame.blank.regs) }

/-- A start without files and with three free slots. -/
def beginning : State Unit :=
  start twoThreads { recycled := [201,202,203] }
    { client := FsClient.new, ib := IpcBuffer.new, world := (), sent := [], console := [] }

def noService : Kernel Unit := fun _ _ => .error .noReply

end Sel4Linux.FaultLoop
