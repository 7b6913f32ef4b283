import Sel4Linux.Rounds

/-!
wait4 over whole runs of the fault loop. A history keeps the children that have
ended and those that a wait4 has returned. The loop keeps neither: whenever no
child runs, wait4 returns the pid of a child with the status 0. This is right
exactly when some ended child has not been returned yet and its exit code is 0
(`reaps_iff`).
-/
namespace Sel4Linux.Reaping
open Sel4Linux.Bytes Sel4Linux.Client Sel4Linux.Slots Sel4Linux.Tcb Sel4Linux.Emulation Sel4Linux.FaultLoop Sel4Linux.Runs
set_option linter.unusedSimpArgs false

/-- How many children have ended and how many of these have been reaped, with the exit codes of the
    others, the oldest first. A child that ends with an execve has no code. -/
structure Children where
  ended : Nat
  reaped : Nat
  unreaped : List (Option Word)
  deriving DecidableEq

def Children.ends (c : Children) (code : Option Word) : Children :=
  { c with ended := c.ended + 1, unreaped := c.unreaped ++ [code] }

def Children.reap (c : Children) : Children := { c with reaped := c.reaped + 1, unreaped := c.unreaped.tail }

/-- The bytes of the status of a thread that has exited. -/
def exitStatus (code : Word) : List Byte := [0,code.setWidth 8,0,0]

variable {ω : Type} (cfg : Setup) (K : Kernel ω)

/-- The children after a round: a wait4 that returns their pid reaps one. -/
def noteChildren (s : State ω) (r : Round) (out : Output) (_ : State ω) (c : Children) : Children :=
  match asked s r with
  | some .execve => if s.process.isChild then c.ends none else c
  | some (.exit code) => if s.process.isChild then c.ends (some code) else c
  | some (.wait4 _) => if resultOf out.actions = some CHILD_PID then c.reap else c
  | _ => c

def waitRound : State ω × Children → Round → Except Stop (Output × (State ω × Children)) :=
  recorded (faultRound cfg K) noteChildren

/-- No child is reaped twice or before its end, a wait4 without an ended child fails with ECHILD, and the
    status that it writes is that of the child it returns. -/
def Reaps : State ω × Children → Round → Output → State ω × Children → Prop := fun (s,c) r out (_,c') =>
  c'.reaped ≤ c'.ended ∧ ∀ status, asked s r = some (.wait4 status) →
    (c.unreaped = [] → resultOf out.actions = some (negative 10)) ∧
    (resultOf out.actions = some CHILD_PID → status ≠ 0 → ∀ code rest, c.unreaped = some code :: rest →
      loadBytes out.mem status 4 = exitStatus code)

/-- When no child runs, a wait4 comes after the end of a child that has not been reaped, and this child
    has the exit code 0 if its status is asked for. -/
def WaitsInTurn : State ω × Children → Round → Output → State ω × Children → Prop := fun (s,c) r _ _ =>
  ∀ status, asked s r = some (.wait4 status) → s.process.isChild = false →
    ∃ code rest, c.unreaped = code :: rest ∧ (status ≠ 0 → ∀ exit, code = some exit → exit.setWidth 8 = (0 : Byte))

/-- The ended children are those that have been reaped and those that have not. -/
def Counted (c : Children) : Prop := c.reaped + c.unreaped.length = c.ended

variable {cfg K}

private theorem ends_counted {c : Children} (counted : Counted c) (code : Option Word) : Counted (c.ends code) := by
  unfold Counted at counted ⊢
  simp only [Children.ends,List.length_append,List.length_singleton]
  omega

private theorem reap_counted_iff {c : Children} (counted : Counted c) :
    (c.reap.reaped ≤ c.reap.ended ↔ c.unreaped ≠ []) ∧ (c.unreaped ≠ [] → Counted c.reap) := by
  unfold Counted at counted ⊢
  cases isUnreaped : c.unreaped with
  | nil =>
    rw [isUnreaped] at counted
    simp only [List.length_nil] at counted
    simp only [Children.reap,ne_eq,not_true_eq_false,iff_false,false_implies,and_true]
    omega
  | cons code rest =>
    rw [isUnreaped] at counted
    simp only [List.length_cons] at counted
    simp only [Children.reap,isUnreaped,List.tail_cons,ne_eq,reduceCtorEq,not_false_eq_true,iff_true,true_implies]
    omega

private theorem wait4_round {s t : State ω} {r : Round} {out : Output} {status : Word}
    (asks : asked s r = some (.wait4 status)) (round : faultRound cfg K s r = .ok (out,t)) :
    (s.process.isChild = true → resultOf out.actions = some (negative 10)) ∧
    (s.process.isChild = false → resultOf out.actions = some CHILD_PID ∧
      (status ≠ 0 → loadBytes out.mem status 4 = [0,0,0,0])) := by
  obtain ⟨regs,isServed,isWait⟩ := asked_iff.mp asks
  have serves : serve cfg K s.counted r regs = .ok (wait4Call s.counted r status) := by
    rw [serve]
    rw [isWait]
  constructor
  · intro child
    have isAnswer : wait4Call s.counted r status =
        { retVal := negative 10, resumed := false, actions := [], mem := r.mem, state := s.counted } := if_pos child
    rw [isAnswer] at serves
    exact (faultRound_answered isServed serves rfl rfl round).1
  · intro noChild
    have isAnswer : wait4Call s.counted r status =
        { retVal := CHILD_PID, resumed := false, actions := [], state := s.counted,
          mem := if status = 0 then r.mem else storeBytes r.mem status [0,0,0,0] } :=
      if_neg (Bool.eq_false_iff.mp noChild)
    rw [isAnswer] at serves
    obtain ⟨result,mem⟩ := faultRound_answered isServed serves rfl rfl round
    refine ⟨result,?_⟩
    intro wanted
    rw [mem]
    simp only [if_neg wanted]
    exact loadBytes_storeBytes r.mem status (by decide)

private theorem wait_kept {s t : State ω} {c c' : Children} {r : Round} {out : Output} (counted : Counted c)
    (inTurn : WaitsInTurn (s,c) r out (t,c')) (step : waitRound cfg K (s,c) r = .ok (out,(t,c'))) : Counted c' := by
  obtain ⟨round,rfl⟩ := recorded_ok_iff.mp step
  rw [noteChildren]
  split
  · split
    · exact ends_counted counted none
    · exact counted
  · next code _ =>
    split
    · exact ends_counted counted (some code)
    · exact counted
  · next status asks =>
    obtain ⟨inChild,noChild⟩ := wait4_round asks round
    cases child : s.process.isChild with
    | true =>
      rw [inChild child,if_neg (by decide)]
      exact counted
    | false =>
      obtain ⟨code,rest,isUnreaped,_⟩ := inTurn status asks child
      rw [(noChild child).1,if_pos rfl]
      exact (reap_counted_iff counted).2 (by rw [isUnreaped]; exact List.cons_ne_nil code rest)
  · exact counted

private theorem status_exact {c : Children} {status : Word} {result : Option Word} {bytes : List Byte}
    (counted : Counted c) (isPid : result = some CHILD_PID) (zeros : status ≠ 0 → bytes = [0,0,0,0]) :
    (c.reap.reaped ≤ c.reap.ended ∧ (c.unreaped = [] → result = some (negative 10)) ∧
      (result = some CHILD_PID → status ≠ 0 → ∀ code rest, c.unreaped = some code :: rest → bytes = exitStatus code)) ↔
    ∃ code rest, c.unreaped = code :: rest ∧ (status ≠ 0 → ∀ exit, code = some exit → exit.setWidth 8 = (0 : Byte)) := by
  rw [(reap_counted_iff counted).1]
  constructor
  · rintro ⟨notEmpty,_,promised⟩
    obtain ⟨code,rest,isUnreaped⟩ := List.exists_cons_of_ne_nil notEmpty
    refine ⟨code,rest,isUnreaped,?_⟩
    rintro wanted exit rfl
    have written := promised isPid wanted exit rest isUnreaped
    rw [zeros wanted] at written
    exact (List.cons.inj (List.cons.inj written).2).1.symm
  · rintro ⟨code,rest,isUnreaped,low⟩
    rw [isUnreaped]
    refine ⟨List.cons_ne_nil code rest,fun empty => absurd empty (List.cons_ne_nil code rest),?_⟩
    intro _ wanted exit rest' isExit
    rw [zeros wanted,exitStatus,low wanted exit (List.cons.inj isExit).1]

private theorem wait_exact {s t : State ω} {c c' : Children} {r : Round} {out : Output} (counted : Counted c)
    (step : waitRound cfg K (s,c) r = .ok (out,(t,c'))) :
    Reaps (s,c) r out (t,c') ↔ WaitsInTurn (s,c) r out (t,c') := by
  obtain ⟨round,rfl⟩ := recorded_ok_iff.mp step
  by_cases waits : ∃ status, asked s r = some (.wait4 status)
  · obtain ⟨status,asks⟩ := waits
    obtain ⟨inChild,noChild⟩ := wait4_round asks round
    simp only [Reaps,WaitsInTurn,noteChildren,asks,Option.some.injEq,Request.wait4.injEq,forall_eq']
    cases child : s.process.isChild with
    | true =>
      have isError := inChild child
      rw [isError,if_neg (by decide)]
      refine ⟨fun _ no => (by cases no),fun _ => ⟨?_,fun _ => rfl,fun no => absurd no (by decide)⟩⟩
      unfold Counted at counted
      omega
    | false =>
      obtain ⟨isPid,zeros⟩ := noChild child
      rw [if_pos isPid]
      simpa using status_exact counted isPid zeros
  · have noWait (status : Word) (asks : asked s r = some (.wait4 status)) : False := waits ⟨status,asks⟩
    refine ⟨fun _ status asks => (noWait status asks).elim,fun inTurn => ⟨?_,fun status asks => (noWait status asks).elim⟩⟩
    have kept := wait_kept counted inTurn step
    unfold Counted at kept
    omega

/-- In every run, wait4 returns each ended child once, with its status, and fails without one, exactly when
    every wait4 that is made while no child runs finds an ended child whose exit code is 0. -/
theorem reaps_iff (cfg : Setup) (K : Kernel ω) (allocator : ObjectAllocator) (lcl : Lcl ω) (rounds : List Round) :
    Always (waitRound cfg K) Reaps (start cfg allocator lcl,⟨0,0,[]⟩) rounds ↔
      Always (waitRound cfg K) WaitsInTurn (start cfg allocator lcl,⟨0,0,[]⟩) rounds := by
  refine always_iff (I := fun (_,c) => Counted c) ?_ ?_ rfl
  · rintro ⟨s,c⟩ r out ⟨t,c'⟩ counted inTurn step
    exact wait_kept counted inTurn step
  · rintro ⟨s,c⟩ r out ⟨t,c'⟩ counted step
    exact wait_exact counted step

/-- A wait4 before any fork returns a child. -/
theorem wait_without_child :
    ¬ Always (waitRound twoThreads noService) Reaps (beginning,⟨0,0,[]⟩) [calling 0x401000 61 (-1) 0] := by
  intro always
  have reaps := (always _ _ rfl).1
  have reaped : 1 ≤ 0 := reaps.1
  exact absurd reaped (by decide)

end Sel4Linux.Reaping
