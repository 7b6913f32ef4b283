import Sel4Linux.Task
import Sel4Linux.Runs

/-!
The software timers (`lcl/src/timer.rs`): a queue by target time, a clock that is
advanced by hand, and a handler that removes what is due and signals the
processes. Over every run each timer fires at the first handling that finds the
clock at its target (`timers_fire`).
-/
namespace Sel4Linux.Timers
open Sel4Linux.Bytes Sel4Linux.Task Sel4Linux.Runs
set_option linter.unusedSimpArgs false

inductive TimerType where
  | waitTime (tid target : Word)
  | iTimer (pid : Word)
  deriving DecidableEq, Repr

/-- `TIME_QUEUE`, `CURRENT_TIME_MS` and `TASK_MAP`. -/
structure TimerState where
  queue : List (Word × TimerType)
  now : Word
  tasks : TaskMap

def advanceTime (s : TimerState) (ms : Word) : TimerState := { s with now := s.now + ms }

/-- What the handler does for a timer that is due; a waiting task is only looked up. -/
def fire (tasks : TaskMap) : TimerType → TaskMap
  | .waitTime _ _ => tasks
  | .iTimer pid =>
    match tasks pid with
    | none => tasks
    | some task => tasks.insert pid { task with signal := { task.signal with pending := task.signal.pending ||| ((1 : Word) <<< 13) } }

/-- `retain` of the handler, over the timers in order. -/
def retain (currTime : Word) : List (Word × TimerType) → TaskMap → List (Word × TimerType) × TaskMap
  | [], tasks => ([],tasks)
  | timer :: rest, tasks =>
    if timer.1 ≤ currTime then retain currTime rest (fire tasks timer.2)
    else
      let (kept,tasks) := retain currTime rest tasks
      (timer :: kept,tasks)

def handleTimer (s : TimerState) : TimerState :=
  let (queue,tasks) := retain s.now s.queue s.tasks
  { s with queue := queue, tasks := tasks }

/-- The comparison that the queue is sorted by. -/
def byTarget (a b : Word × TimerType) : Bool := a.1 ≤ b.1

/-- `set_process_timer`: the queue is sorted again after each timer. -/
def setProcessTimer (s : TimerState) (pid target : Word) : TimerState :=
  { s with queue := (s.queue ++ [(target,TimerType.iTimer pid)]).mergeSort byTarget }

/-! ## Runs -/

inductive TimerOp where
  | set (pid target : Word)
  | advance (ms : Word)
  | handle
  deriving DecidableEq, Repr

/-- What has happened; a handling has the time at which it did. -/
inductive TimerEvent where
  | set (pid target : Word)
  | advanced
  | handled (clock : Word)
  deriving DecidableEq, Repr

/-- One operation; none fails. -/
def timerStep (s : TimerState) : TimerOp → Except Empty (TimerEvent × TimerState)
  | .set pid target => .ok (.set pid target,setProcessTimer s pid target)
  | .advance ms => .ok (.advanced,advanceTime s ms)
  | .handle => .ok (.handled s.now,handleTimer s)

/-- A handling that finds the clock at a target or behind it. -/
def Reaches (target : Word) : TimerEvent → Bool
  | .handled clock => target ≤ clock
  | _ => false

/-- The timers that have been set, the earliest first, and that no later handling has reached. -/
def unfired : List TimerEvent → List (Word × Word)
  | [] => []
  | .set pid target :: later => if later.any (Reaches target) then unfired later else (target,pid) :: unfired later
  | _ :: later => unfired later

def entryOf (timer : Word × Word) : Word × TimerType := (timer.1,.iTimer timer.2)

/-- The queue is sorted by target and has exactly the timers that have not fired. -/
structure Keeps (s : TimerState) (events : List TimerEvent) : Prop where
  sorted : s.queue.Pairwise (fun a b => a.1 ≤ b.1)
  exact : s.queue.Perm ((unfired events).map entryOf)

/-- A timer of a process is due: it has not fired and its target is reached. -/
def DueFor (clock : Word) (events : List TimerEvent) (pid : Word) : Prop := ∃ target, (target,pid) ∈ unfired events ∧ target ≤ clock

/-- Of the task of a process, nothing has changed but bit 13 of what is pending, which is set if `due` holds. -/
def Alarmed (due : Prop) (before after : Option Sel4Task) : Prop :=
  (before = none → after = none) ∧ ∀ task, before = some task → ∃ pending,
    after = some { task with signal := { task.signal with pending := pending } } ∧
      ∀ k, pending.getLsbD k = true ↔ task.signal.pending.getLsbD k = true ∨ (k = 13 ∧ due)

/-- A handling sets the bit of the processes with a timer that is due, and nothing else; other operations change no task. The
    clock moves by what it is advanced. -/
def Fires (s : TimerState) (events : List TimerEvent) : TimerOp → TimerState → Prop
  | .handle, t => t.now = s.now ∧ ∀ pid, Alarmed (DueFor s.now events pid) (s.tasks pid) (t.tasks pid)
  | .advance ms, t => t.now = s.now + ms ∧ t.tasks = s.tasks
  | .set _ _, t => t.now = s.now ∧ t.tasks = s.tasks

/-! ## The queue -/

variable {s : TimerState} {events : List TimerEvent}

theorem setProcessTimer_perm (s : TimerState) (pid target : Word) :
    (setProcessTimer s pid target).queue.Perm (s.queue ++ [entryOf (target,pid)]) := List.mergeSort_perm _ _

theorem setProcessTimer_sorted (s : TimerState) (pid target : Word) :
    (setProcessTimer s pid target).queue.Pairwise (fun a b => a.1 ≤ b.1) := by
  have transitive : ∀ a b c, byTarget a b = true → byTarget b c = true → byTarget a c = true := by
    intro a b c first second
    exact decide_eq_true (BitVec.le_trans (of_decide_eq_true first) (of_decide_eq_true second))
  have total : ∀ a b, (byTarget a b || byTarget b a) = true := by
    intro a b
    rcases BitVec.le_total a.1 b.1 with first | second
    · simp [byTarget,first]
    · simp [byTarget,second]
  have sorted := List.pairwise_mergeSort transitive total (s.queue ++ [(target,.iTimer pid)])
  exact sorted.imp fun before => of_decide_eq_true before

theorem retain_fst (clock : Word) (queue : List (Word × TimerType)) (tasks : TaskMap) :
    (retain clock queue tasks).1 = queue.filter fun timer => ¬ timer.1 ≤ clock := by
  induction queue generalizing tasks with
  | nil => rfl
  | cons timer rest ih =>
    rw [retain]
    by_cases due : timer.1 ≤ clock
    · rw [if_pos due,ih,List.filter_cons_of_neg (by simpa using due)]
    · rw [if_neg due,List.filter_cons_of_pos (by simpa using due)]
      exact congrArg _ (ih tasks)

/-- One more event takes away what it reaches and adds what it sets. -/
theorem unfired_append (events : List TimerEvent) (event : TimerEvent) :
    unfired (events ++ [event]) = ((unfired events).filter fun timer => ! Reaches timer.1 event) ++ unfired [event] := by
  induction events with
  | nil => rfl
  | cons first later ih =>
    cases first with
    | set pid target =>
      rw [List.cons_append,unfired,unfired,List.any_append,List.any_cons,List.any_nil,Bool.or_false,ih]
      by_cases reached : later.any (Reaches target) = true
      · rw [if_pos (by rw [reached,Bool.true_or]),if_pos reached]
      · rw [if_neg reached]
        by_cases here : Reaches target event = true
        · rw [if_pos (by rw [here,Bool.or_true]),List.filter_cons_of_neg (by simp [here])]
        · rw [if_neg (by simp [reached,here]),List.filter_cons_of_pos (by simpa using here),List.cons_append]
    | advanced => exact ih
    | handled clock => exact ih

theorem keeps_set (keeps : Keeps s events) (pid target : Word) :
    Keeps (setProcessTimer s pid target) (events ++ [.set pid target]) := by
  refine ⟨setProcessTimer_sorted s pid target,(setProcessTimer_perm s pid target).trans ?_⟩
  have unreached : (unfired events).filter (fun timer => ! Reaches timer.1 (.set pid target)) = unfired events :=
    List.filter_eq_self.mpr fun _ _ => rfl
  rw [unfired_append,unreached,List.map_append]
  exact keeps.exact.append_right _

theorem keeps_advance (keeps : Keeps s events) (ms : Word) : Keeps (advanceTime s ms) (events ++ [.advanced]) := by
  have unreached : (unfired events).filter (fun timer => ! Reaches timer.1 .advanced) = unfired events :=
    List.filter_eq_self.mpr fun _ _ => rfl
  refine ⟨keeps.sorted,?_⟩
  rw [unfired_append,unreached]
  exact (List.append_nil (unfired events)).symm ▸ keeps.exact

theorem keeps_handle (keeps : Keeps s events) : Keeps (handleTimer s) (events ++ [.handled s.now]) := by
  have queue : (handleTimer s).queue = s.queue.filter fun timer => ¬ timer.1 ≤ s.now := retain_fst s.now s.queue s.tasks
  constructor
  · rw [queue]
    exact keeps.sorted.filter _
  · rw [queue,unfired_append]
    show List.Perm _ (List.map entryOf (List.filter _ _ ++ []))
    rw [List.append_nil]
    have kept := keeps.exact.filter fun timer => decide (¬ timer.1 ≤ s.now)
    rw [List.filter_map] at kept
    refine kept.trans (List.Perm.of_eq (congrArg _ (List.filter_congr fun timer _ => ?_)))
    show decide (¬ timer.1 ≤ s.now) = ! decide (timer.1 ≤ s.now)
    exact decide_not

/-! ## The signals -/

theorem alarmed_same (before : Option Sel4Task) : Alarmed False before before := by
  refine ⟨fun none => none,fun task there => ⟨task.signal.pending,there,fun k => ?_⟩⟩
  rw [and_false,or_false]

theorem alarmed_congr {due due' : Prop} {before after : Option Sel4Task} (same : due ↔ due') (alarmed : Alarmed due before after) :
    Alarmed due' before after := by
  rwa [propext same] at alarmed

/-- Two timers, one after the other. -/
theorem alarmed_trans {due due' : Prop} {before mid after : Option Sel4Task} (first : Alarmed due before mid)
    (second : Alarmed due' mid after) : Alarmed (due ∨ due') before after := by
  refine ⟨fun absent => second.1 (first.1 absent),fun task there => ?_⟩
  obtain ⟨pending,isMid,bits⟩ := first.2 task there
  obtain ⟨pending',isAfter,bits'⟩ := second.2 _ isMid
  refine ⟨pending',isAfter,fun k => ?_⟩
  rw [bits' k]
  show pending.getLsbD k = true ∨ _ ↔ _
  rw [bits k,or_assoc,← and_or_left]

theorem alarm_bit (k : Nat) : ((1 : Word) <<< 13).getLsbD k = true ↔ k = 13 := by
  have bit : ((1 : Word) <<< 13).getLsbD k = (decide (13 < 64) && decide (13 = k)) := BitVec.getLsbD_twoPow 13 k
  rw [bit,Bool.and_eq_true,decide_eq_true_eq,decide_eq_true_eq]
  omega

/-- One timer that is due. -/
theorem fire_alarmed (tasks : TaskMap) (type : TimerType) (pid : Word) :
    Alarmed (type = .iTimer pid) (tasks pid) (fire tasks type pid) := by
  cases type with
  | waitTime tid target => exact alarmed_congr (by simp) (alarmed_same _)
  | iTimer other =>
    rw [fire]
    cases there : tasks other with
    | none =>
      refine ⟨fun absent => absent,fun task isTask => ⟨task.signal.pending,isTask,fun k => ?_⟩⟩
      have apart : ¬ TimerType.iTimer other = .iTimer pid := by
        rintro same
        cases same
        rw [there] at isTask
        cases isTask
      simp [apart]
    | some task =>
      by_cases here : pid = other
      · subst here
        rw [there]
        constructor
        · intro absent
          cases absent
        · intro task' isTask
          cases isTask
          refine ⟨task.signal.pending ||| ((1 : Word) <<< 13),if_pos rfl,fun k => ?_⟩
          rw [BitVec.getLsbD_or,Bool.or_eq_true,alarm_bit]
          simp
      · have apart : ¬ TimerType.iTimer other = .iTimer pid := fun same => here (TimerType.iTimer.inj same).symm
        have kept : tasks.insert other { task with signal := { task.signal with
            pending := task.signal.pending ||| ((1 : Word) <<< 13) } } pid = tasks pid := if_neg here
        simp only [kept,apart]
        exact alarmed_same _

/-- The handler sets the bits of the processes whose timers are due. -/
theorem retain_alarmed (clock : Word) (queue : List (Word × TimerType)) (tasks : TaskMap) (pid : Word) :
    Alarmed (∃ target, (target,.iTimer pid) ∈ queue ∧ target ≤ clock) (tasks pid) ((retain clock queue tasks).2 pid) := by
  induction queue generalizing tasks with
  | nil => exact alarmed_congr (by simp) (alarmed_same _)
  | cons timer rest ih =>
    rw [retain]
    by_cases due : timer.1 ≤ clock
    · rw [if_pos due]
      refine alarmed_congr ?_ (alarmed_trans (fire_alarmed tasks timer.2 pid) (ih (fire tasks timer.2)))
      constructor
      · rintro (isType | ⟨target,member,reached⟩)
        · exact ⟨timer.1,by rw [← isType]; exact List.mem_cons_self,due⟩
        · exact ⟨target,List.mem_cons_of_mem _ member,reached⟩
      · rintro ⟨target,member,reached⟩
        rcases List.mem_cons.mp member with same | later
        · exact .inl (by rw [← same])
        · exact .inr ⟨target,later,reached⟩
    · rw [if_neg due]
      refine alarmed_congr ?_ (ih tasks)
      constructor
      · rintro ⟨target,member,reached⟩
        exact ⟨target,List.mem_cons_of_mem _ member,reached⟩
      · rintro ⟨target,member,reached⟩
        rcases List.mem_cons.mp member with same | later
        · rw [← same] at due
          exact absurd reached due
        · exact ⟨target,later,reached⟩

/-! ## Every run -/

def note (_ : TimerState) (_ : TimerOp) (event : TimerEvent) (_ : TimerState) (events : List TimerEvent) : List TimerEvent :=
  events ++ [event]

theorem dueFor_iff (keeps : Keeps s events) (pid : Word) :
    (∃ target, (target,.iTimer pid) ∈ s.queue ∧ target ≤ s.now) ↔ DueFor s.now events pid := by
  refine exists_congr fun target => and_congr_left fun _ => ?_
  rw [keeps.exact.mem_iff,List.mem_map]
  constructor
  · rintro ⟨timer,member,same⟩
    cases same
    exact member
  · intro member
    exact ⟨_,member,rfl⟩

theorem step_fires (keeps : Keeps s events) (op : TimerOp) : ∃ event t, timerStep s op = .ok (event,t) ∧
    Fires s events op t ∧ Keeps t (events ++ [event]) := by
  cases op with
  | set pid target => exact ⟨_,_,rfl,⟨rfl,rfl⟩,keeps_set keeps pid target⟩
  | advance ms => exact ⟨_,_,rfl,⟨rfl,rfl⟩,keeps_advance keeps ms⟩
  | handle =>
    refine ⟨_,_,rfl,⟨rfl,fun pid => ?_⟩,keeps_handle keeps⟩
    exact alarmed_congr (dueFor_iff keeps pid) (retain_alarmed s.now s.queue s.tasks pid)

/-- From an empty queue, over every run: the queue is sorted by target and has exactly the timers that have been set and that
    no later handling has found the clock at. A handling sets the bit of SIGALRM for the processes of the timers that are due,
    where there is such a process, and changes no other bit. -/
theorem timers_fire (now : Word) (tasks : TaskMap) (ops : List TimerOp) :
    Each (recorded timerStep note) (fun state op _ after => Keeps state.1 state.2 ∧ Fires state.1 state.2 op after.1 ∧
      Keeps after.1 after.2) ({ queue := [], now := now, tasks := tasks },[]) ops := by
  have start : Keeps { queue := [], now := now, tasks := tasks } [] := ⟨List.Pairwise.nil,List.Perm.refl _⟩
  refine each_of_step (I := fun state => Keeps state.1 state.2) (fun state op keeps => ?_) start
  obtain ⟨event,t,stepped,fires,next⟩ := step_fires keeps op
  refine ⟨event,(t,state.2 ++ [event]),?_,⟨keeps,fires,next⟩,next⟩
  exact recorded_ok_iff.mpr ⟨stepped,rfl⟩

end Sel4Linux.Timers
