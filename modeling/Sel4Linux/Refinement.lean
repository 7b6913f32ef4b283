import Sel4Linux.Runs

/-!
Runs of a deterministic machine as runs of a relation. An abstract machine that
leaves some of its results open is a relation between states, inputs, outputs and
states (`Path`). Where every step of the deterministic machine that meets a
condition is one of the abstract machine in related states, so is every run whose
steps all meet it (`run_refines`); the condition may be one on both states
(`run_refines_both`).
-/
namespace Sel4Linux.Refinement
open Sel4Linux.Runs
universe u v w
variable {ε : Type u} {σ τ ο : Type v} {ι : Type w} {R : τ → ι → ο → τ → Prop}

/-- A run of the relation from one state to another. -/
inductive Path (R : τ → ι → ο → τ → Prop) : τ → List ι → List ο → τ → Prop
  | nil (t : τ) : Path R t [] [] t
  | cons {t u v : τ} {i : ι} {o : ο} {is : List ι} {os : List ο} (first : R t i o u) (rest : Path R u is os v) :
      Path R t (i :: is) (o :: os) v

/-- What every step keeps, for the inputs of the run, is kept by the run. -/
theorem Path.keeps {I : τ → Prop} {t u : τ} {is : List ι} {os : List ο} (path : Path R t is os u)
    (keep : ∀ s i o s', i ∈ is → I s → R s i o s' → I s') (start : I t) : I u := by
  induction path with
  | nil t => exact start
  | cons first rest ih =>
    refine ih (fun s j o s' member => keep s j o s' (List.mem_cons_of_mem _ member)) ?_
    exact keep _ _ _ _ List.mem_cons_self start first

/-- Each input of a run meets a condition on the states that the machine and the relation have reached together. -/
def MeetsBoth (step : σ → ι → Except ε (ο × σ)) (R : τ → ι → ο → τ → Prop) (C : σ → τ → ι → Prop) : σ → τ → List ι → Prop
  | _,_,[] => True
  | s,t,i :: rest => C s t i ∧ ∀ o s' t', step s i = .ok (o,s') → R t i o t' → MeetsBoth step R C s' t' rest

/-- A condition on the machine alone. -/
theorem meetsBoth_of_meets {step : σ → ι → Except ε (ο × σ)} {C : σ → ι → Prop} {s : σ} {t : τ} {is : List ι}
    (meets : Meets step C s is) : MeetsBoth step R (fun s _ => C s) s t is := by
  induction is generalizing s t with
  | nil => trivial
  | cons i rest ih => exact ⟨meets.1,fun o s' t' first _ => ih (meets.2 o s' first)⟩

/-- Steps that go through, and that the relation allows in related states, make such runs. -/
theorem run_refines_both {step : σ → ι → Except ε (ο × σ)} {rel : σ → τ → Prop} {C : σ → τ → ι → Prop}
    (keep : ∀ s t i, rel s t → C s t i → ∃ o s' t', step s i = .ok (o,s') ∧ R t i o t' ∧ rel s' t') {s : σ} {t : τ} {is : List ι}
    (start : rel s t) (meets : MeetsBoth step R C s t is) :
    ∃ os s' t', run step s is = .ok (os,s') ∧ Path R t is os t' ∧ rel s' t' := by
  induction is generalizing s t with
  | nil => exact ⟨[],s,t,rfl,.nil t,start⟩
  | cons i rest ih =>
    obtain ⟨o,s₁,t₁,first,allowed,next⟩ := keep s t i start meets.1
    obtain ⟨os,s₂,t₂,later,path,last⟩ := ih next (meets.2 o s₁ t₁ first allowed)
    exact ⟨o :: os,s₂,t₂,run_cons_iff.mpr ⟨o,s₁,os,first,later,rfl⟩,.cons allowed path,last⟩

theorem run_refines {step : σ → ι → Except ε (ο × σ)} {rel : σ → τ → Prop} {C : σ → ι → Prop}
    (keep : ∀ s t i, rel s t → C s i → ∃ o s' t', step s i = .ok (o,s') ∧ R t i o t' ∧ rel s' t') {s : σ} {t : τ} {is : List ι}
    (start : rel s t) (meets : Meets step C s is) :
    ∃ os s' t', run step s is = .ok (os,s') ∧ Path R t is os t' ∧ rel s' t' :=
  run_refines_both keep start (meetsBoth_of_meets meets)

/-- A run over two sequences is a run over the second behind one over the first. -/
theorem run_append_iff {step : σ → ι → Except ε (ο × σ)} {s t : σ} {is js : List ι} {outs : List ο} :
    run step s (is ++ js) = .ok (outs,t) ↔
      ∃ os u os', run step s is = .ok (os,u) ∧ run step u js = .ok (os',t) ∧ outs = os ++ os' := by
  induction is generalizing s outs with
  | nil =>
    constructor
    · intro ran
      exact ⟨[],s,outs,rfl,ran,rfl⟩
    · rintro ⟨os,u,os',nothing,ran,rfl⟩
      cases nothing
      exact ran
  | cons i rest ih =>
    rw [List.cons_append,run_cons_iff]
    constructor
    · rintro ⟨o,v,all,first,later,rfl⟩
      obtain ⟨os,u,os',front,back,rfl⟩ := ih.mp later
      exact ⟨o :: os,u,os',run_cons_iff.mpr ⟨o,v,os,first,front,rfl⟩,back,rfl⟩
    · rintro ⟨all,u,os',front,back,rfl⟩
      obtain ⟨o,v,os,first,later,rfl⟩ := run_cons_iff.mp front
      exact ⟨o,v,os ++ os',first,ih.mpr ⟨os,u,os',later,back,rfl⟩,rfl⟩

end Sel4Linux.Refinement
