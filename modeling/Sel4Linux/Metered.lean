import Sel4Linux.Runs

/-!
Machines that use something up. What a step of a machine takes is counted beside
the machine (`metered`): the step goes through when the machine's own step does
and what it takes is there. A metered run is a run of the machine, with the same
outputs (`metered_ran`), and a run goes through metered exactly when every step of
it finds what it takes (`metered_ran_iff`).
-/
namespace Sel4Linux.Metered
open Sel4Linux.Runs
universe u v w
variable {ε : Type u} {σ ο η : Type v} {ι : Type w}

/-- A step, and then what it takes: an error when there is too little. -/
def metered (step : σ → ι → Except ε (ο × σ)) (use : σ → ι → ο → σ → η → Except ε η) :
    σ × η → ι → Except ε (ο × (σ × η)) := fun (s,h) i => do
  let (o,t) ← step s i
  let h ← use s i o t h
  .ok (o,(t,h))

variable {step : σ → ι → Except ε (ο × σ)} {use : σ → ι → ο → σ → η → Except ε η} {s t : σ} {h k : η}

theorem metered_ok_iff {i : ι} {o : ο} :
    metered step use (s,h) i = .ok (o,(t,k)) ↔ step s i = .ok (o,t) ∧ use s i o t h = .ok k := by
  simp only [metered,bind_ok_iff,Prod.exists,Except.ok.injEq,Prod.mk.injEq]
  constructor
  · rintro ⟨o',t',first,k',used,rfl,rfl,rfl⟩
    exact ⟨first,used⟩
  · rintro ⟨first,used⟩
    exact ⟨o,t,first,k,used,rfl,rfl,rfl⟩

/-- What a step takes is there. -/
def Enough (step : σ → ι → Except ε (ο × σ)) (use : σ → ι → ο → σ → η → Except ε η) (p : σ × η) (i : ι) : Prop :=
  ∀ o t, step p.1 i = .ok (o,t) → ∃ k, use p.1 i o t p.2 = .ok k

/-- A step that goes through does so metered when there is enough. -/
theorem metered_go {i : ι} {o : ο} (first : step s i = .ok (o,t)) (enough : Enough step use (s,h) i) :
    ∃ k, metered step use (s,h) i = .ok (o,(t,k)) := by
  obtain ⟨k,used⟩ := enough o t first
  exact ⟨k,metered_ok_iff.mpr ⟨first,used⟩⟩

/-- A run beside which something is counted is a run. -/
theorem beside_ran {step' : σ × η → ι → Except ε (ο × (σ × η))}
    (beside : ∀ {s t h k i o}, step' (s,h) i = .ok (o,(t,k)) → step s i = .ok (o,t)) {is : List ι} {os : List ο}
    (ran : run step' (s,h) is = .ok (os,(t,k))) : run step s is = .ok (os,t) := by
  induction is generalizing s h os with
  | nil =>
    cases ran
    rfl
  | cons i rest ih =>
    obtain ⟨o,⟨u,m⟩,os',first,later,rfl⟩ := run_cons_iff.mp ran
    exact run_cons_iff.mpr ⟨o,u,os',beside first,ih later,rfl⟩

/-- A metered run is a run. -/
theorem metered_ran {is : List ι} {os : List ο} (ran : run (metered step use) (s,h) is = .ok (os,(t,k))) :
    run step s is = .ok (os,t) :=
  beside_ran (fun first => (metered_ok_iff.mp first).1) ran

/-- A run goes through metered exactly when each of its steps finds what it takes. -/
theorem metered_ran_iff {is : List ι} {os : List ο} (ran : run step s is = .ok (os,t)) :
    (∃ k, run (metered step use) (s,h) is = .ok (os,(t,k))) ↔ Meets (metered step use) (Enough step use) (s,h) is := by
  induction is generalizing s h os with
  | nil =>
    cases ran
    exact ⟨fun _ => trivial,fun _ => ⟨h,rfl⟩⟩
  | cons i rest ih =>
    obtain ⟨o,u,os',first,later,rfl⟩ := run_cons_iff.mp ran
    constructor
    · rintro ⟨k,metered'⟩
      obtain ⟨o',⟨u',m⟩,os'',first',later',same⟩ := run_cons_iff.mp metered'
      obtain ⟨first'',used⟩ := metered_ok_iff.mp first'
      cases first.symm.trans first''
      cases same
      refine ⟨fun o' t' again => ?_,fun o' q again => ?_⟩
      · cases first.symm.trans again
        exact ⟨m,used⟩
      · cases first'.symm.trans again
        exact (ih later).mp ⟨k,later'⟩
    · rintro ⟨enough,all⟩
      obtain ⟨m,first'⟩ := metered_go first enough
      obtain ⟨k,later'⟩ := (ih later).mpr (all o (u,m) first')
      exact ⟨k,run_cons_iff.mpr ⟨o,(u,m),os',first',later',rfl⟩⟩

end Sel4Linux.Metered
