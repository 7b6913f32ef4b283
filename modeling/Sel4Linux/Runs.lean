import Mathlib.Tactic.Common

/-!
Runs of a deterministic machine that may stop. A step takes a state and an
input to an output and the next state, or to a reason why there is no next
state. A property that every step keeps holds after every run
(`run_invariant`); where a condition says exactly which steps go through as
promised, it says so of whole runs (`each_iff_meets`), and two machines that go
together step by step do so over whole runs (`run_simulates`). What a property of a run
says about the steps before is kept as a history beside the state (`recorded`).
For a single computation, what its results have in common is shown part by part
(`Ensures`, `ensures_bind`), and so is that another one comes to the same result
(`Carries`), that there is one (`Finishes`), or why there is none (`Blames`, `Fails`).
-/
namespace Sel4Linux.Runs
universe u v w
variable {ε : Type u} {σ ο : Type v} {ι : Type w}

/-- The only way for a sequence of two computations to succeed. -/
theorem bind_ok_iff {α β : Type v} {first : Except ε α} {next : α → Except ε β} {b : β} :
    first >>= next = .ok b ↔ ∃ a, first = .ok a ∧ next a = .ok b := by
  cases first with
  | error e => simp [bind,Except.bind]
  | ok a => simp [bind,Except.bind]

@[simp] theorem ok_bind {α β : Type v} (a : α) (next : α → Except ε β) :
    ((.ok a : Except ε α) >>= next) = next a := rfl

@[simp] theorem error_bind {α β : Type v} (e : ε) (next : α → Except ε β) :
    ((.error e : Except ε α) >>= next) = .error e := rfl

/-- Every result of a computation has a property. -/
def Ensures {α : Type v} (x : Except ε α) (Q : α → Prop) : Prop := ∀ a, x = .ok a → Q a

theorem ensures_ok {α : Type v} {a : α} {Q : α → Prop} (holds : Q a) : Ensures (.ok a : Except ε α) Q := by
  intro b isB
  cases isB
  exact holds

theorem ensures_error {α : Type v} {e : ε} {Q : α → Prop} : Ensures (.error e : Except ε α) Q := by
  intro b isB
  cases isB

/-- What a first computation ensures is there for the second. -/
theorem ensures_bind {α β : Type v} {first : Except ε α} {next : α → Except ε β} {P : α → Prop} {Q : β → Prop}
    (before : Ensures first P) (after : ∀ a, P a → Ensures (next a) Q) : Ensures (first >>= next) Q := by
  intro b ran
  obtain ⟨a,isFirst,isNext⟩ := bind_ok_iff.mp ran
  exact after a (before a isFirst) b isNext

/-- The second computation alone ensures it. -/
theorem ensures_then {α β : Type v} {first : Except ε α} {next : α → Except ε β} {Q : β → Prop}
    (after : ∀ a, Ensures (next a) Q) : Ensures (first >>= next) Q :=
  ensures_bind (P := fun _ => True) (fun _ _ => trivial) fun a _ => after a

/-- Every result of a computation is that of another one, which may stop for other reasons. -/
def Carries {ε' : Type w} {α : Type v} (x : Except ε α) (y : Except ε' α) : Prop := ∀ a, x = .ok a → y = .ok a

theorem carries_ok {ε' : Type w} {α : Type v} (a : α) : Carries (.ok a : Except ε α) (.ok a : Except ε' α) := by
  intro b isB
  cases isB
  rfl

theorem carries_bind {ε' : Type w} {α β : Type v} {first : Except ε α} {next : α → Except ε β} {first' : Except ε' α}
    {next' : α → Except ε' β} (before : Carries first first') (after : ∀ a, Carries (next a) (next' a)) :
    Carries (first >>= next) (first' >>= next') := by
  intro b ran
  obtain ⟨a,isFirst,isNext⟩ := bind_ok_iff.mp ran
  exact bind_ok_iff.mpr ⟨a,before a isFirst,after a b isNext⟩

/-- A computation comes to a result. -/
def Finishes {α : Type v} (x : Except ε α) : Prop := ∃ a, x = .ok a

theorem finishes_ok {α : Type v} (a : α) : Finishes (.ok a : Except ε α) := ⟨a,rfl⟩

theorem finishes_bind_iff {α β : Type v} {first : Except ε α} {next : α → Except ε β} :
    Finishes (first >>= next) ↔ ∃ a, first = .ok a ∧ Finishes (next a) := by
  constructor
  · rintro ⟨b,ran⟩
    obtain ⟨a,isFirst,isNext⟩ := bind_ok_iff.mp ran
    exact ⟨a,isFirst,b,isNext⟩
  · rintro ⟨a,isFirst,b,isNext⟩
    exact ⟨b,bind_ok_iff.mpr ⟨a,isFirst,isNext⟩⟩

/-- Every reason for a computation to stop has a property. -/
def Blames {α : Type v} (x : Except ε α) (Q : ε → Prop) : Prop := ∀ e, x = .error e → Q e

theorem blames_ok {α : Type v} {a : α} {Q : ε → Prop} : Blames (.ok a : Except ε α) Q := by
  intro e isE
  cases isE

theorem blames_error {α : Type v} {e : ε} {Q : ε → Prop} (holds : Q e) : Blames (.error e : Except ε α) Q := by
  intro e' isE
  cases isE
  exact holds

theorem blames_bind {α β : Type v} {first : Except ε α} {next : α → Except ε β} {Q : ε → Prop} (before : Blames first Q)
    (after : ∀ a, first = .ok a → Blames (next a) Q) : Blames (first >>= next) Q := by
  cases isFirst : first with
  | ok a => exact after a isFirst
  | error e => exact blames_error (before e isFirst)

/-- A computation stops, for a reason with a property. -/
def Fails {α : Type v} (x : Except ε α) (Q : ε → Prop) : Prop := ∃ e, x = .error e ∧ Q e

theorem fails_bind {α β : Type v} {first : Except ε α} {next : α → Except ε β} {Q : ε → Prop} (before : Blames first Q)
    (after : ∀ a, first = .ok a → Fails (next a) Q) : Fails (first >>= next) Q := by
  cases isFirst : first with
  | ok a => exact after a isFirst
  | error e => exact ⟨e,rfl,before e isFirst⟩

/-- The outputs of a run in order, and the state at its end. -/
def run (step : σ → ι → Except ε (ο × σ)) : σ → List ι → Except ε (List ο × σ)
  | s, [] => .ok ([],s)
  | s, i :: rest => do
    let (o,s) ← step s i
    let (os,s) ← run step s rest
    .ok (o :: os,s)

variable {step : σ → ι → Except ε (ο × σ)}

theorem run_cons_iff {s t : σ} {i : ι} {rest : List ι} {outs : List ο} :
    run step s (i :: rest) = .ok (outs,t) ↔
      ∃ o u os, step s i = .ok (o,u) ∧ run step u rest = .ok (os,t) ∧ outs = o :: os := by
  simp only [run,bind_ok_iff,Prod.exists,Except.ok.injEq,Prod.mk.injEq]
  constructor
  · rintro ⟨o,u,first,os,t,later,rfl,rfl⟩; exact ⟨o,u,os,first,later,rfl⟩
  · rintro ⟨o,u,os,first,later,rfl⟩; exact ⟨o,u,first,os,t,later,rfl,rfl⟩

/-- A property kept by every step on inputs of a kind holds at the end of every run over such inputs. -/
theorem run_invariant_on {I : σ → Prop} {C : ι → Prop} (keep : ∀ s i o t, I s → C i → step s i = .ok (o,t) → I t)
    {s t : σ} {is : List ι} {os : List ο} (start : I s) (kind : ∀ i ∈ is, C i) (ran : run step s is = .ok (os,t)) : I t := by
  induction is generalizing s os with
  | nil => cases ran; exact start
  | cons i rest ih =>
    obtain ⟨o,u,os',first,later,_⟩ := run_cons_iff.mp ran
    have next := keep s i o u start (kind i List.mem_cons_self) first
    exact ih next (fun j inRest => kind j (List.mem_cons_of_mem i inRest)) later

/-- A property kept by every step holds at the end of every run. -/
theorem run_invariant {I : σ → Prop} (keep : ∀ s i o t, I s → step s i = .ok (o,t) → I t) {s t : σ} {is : List ι}
    {os : List ο} (start : I s) (ran : run step s is = .ok (os,t)) : I t :=
  run_invariant_on (C := fun _ => True) (fun s i o t inv _ => keep s i o t inv) start (fun _ _ => trivial) ran

/-- Every step of a run starts in a state where `C` holds of the input. -/
def Meets (step : σ → ι → Except ε (ο × σ)) (C : σ → ι → Prop) : σ → List ι → Prop
  | _, [] => True
  | s, i :: rest => C s i ∧ ∀ o t, step s i = .ok (o,t) → Meets step C t rest

/-- A property kept by every step that meets the condition holds at the end of every run whose steps all meet it. -/
theorem run_invariant_meets {I : σ → Prop} {C : σ → ι → Prop} (keep : ∀ s i o t, I s → C s i → step s i = .ok (o,t) → I t)
    {s t : σ} {is : List ι} {os : List ο} (start : I s) (meets : Meets step C s is) (ran : run step s is = .ok (os,t)) : I t := by
  induction is generalizing s os with
  | nil => cases ran; exact start
  | cons i rest ih =>
    obtain ⟨o,u,os',first,later,_⟩ := run_cons_iff.mp ran
    exact ih (keep s i o u start meets.1 first) (meets.2 o u first) later

/-- A run goes through, and every step of it stands in a relation to the state before. -/
def Each (step : σ → ι → Except ε (ο × σ)) (P : σ → ι → ο → σ → Prop) : σ → List ι → Prop
  | _, [] => True
  | s, i :: rest => ∃ o t, step s i = .ok (o,t) ∧ P s i o t ∧ Each step P t rest

/-- Where the condition says exactly which steps go through as promised, from states with an
    invariant, a run does so throughout exactly when all its steps meet the condition. -/
theorem each_iff_meets {I : σ → Prop} {C : σ → ι → Prop} {P : σ → ι → ο → σ → Prop}
    (keep : ∀ s i o t, I s → step s i = .ok (o,t) → I t)
    (exact' : ∀ s i, I s → ((∃ o t, step s i = .ok (o,t) ∧ P s i o t) ↔ C s i)) {s : σ} {is : List ι} (start : I s) :
    Each step P s is ↔ Meets step C s is := by
  induction is generalizing s with
  | nil => exact Iff.rfl
  | cons i rest ih =>
    constructor
    · rintro ⟨o,t,first,promise,later⟩
      refine ⟨(exact' s i start).mp ⟨o,t,first,promise⟩,fun o' t' first' => ?_⟩
      rw [first] at first'
      cases first'
      exact (ih (keep s i o t start first)).mp later
    · rintro ⟨condition,later⟩
      obtain ⟨o,t,first,promise⟩ := (exact' s i start).mpr condition
      exact ⟨o,t,first,promise,(ih (keep s i o t start first)).mpr (later o t first)⟩

/-- Where every step that meets the condition, from a state with an invariant, keeps the invariant and
    the promise, a run whose steps all meet the condition keeps the promise throughout. -/
theorem meets_of_meets {I : σ → Prop} {C P : σ → ι → Prop}
    (keep : ∀ s i, I s → C s i → P s i ∧ ∀ o t, step s i = .ok (o,t) → I t) {s : σ} {is : List ι} (start : I s)
    (meets : Meets step C s is) : Meets step P s is := by
  induction is generalizing s with
  | nil => trivial
  | cons i rest ih =>
    obtain ⟨condition,later⟩ := meets
    obtain ⟨promise,next⟩ := keep s i start condition
    exact ⟨promise,fun o t first => ih (next o t first) (later o t first)⟩

/-- Two machines in related states that do the same on every input that meets a condition, and are in related states
    again, do the same over every sequence of such inputs. -/
theorem run_simulates {ε' : Type u} {τ : Type v} {step' : τ → ι → Except ε' (ο × τ)} {rel : σ → τ → Prop} {C : τ → ι → Prop}
    (keep : ∀ s t i, rel s t → C t i → ∃ o s' t', step s i = .ok (o,s') ∧ step' t i = .ok (o,t') ∧ rel s' t') {s : σ} {t : τ}
    {is : List ι} (start : rel s t) (meets : Meets step' C t is) :
    ∃ os s' t', run step s is = .ok (os,s') ∧ run step' t is = .ok (os,t') ∧ rel s' t' := by
  induction is generalizing s t with
  | nil => exact ⟨[],s,t,rfl,rfl,start⟩
  | cons i rest ih =>
    obtain ⟨o,s₁,t₁,first,first',next⟩ := keep s t i start meets.1
    obtain ⟨os,s₂,t₂,later,later',last⟩ := ih next (meets.2 o t₁ first')
    exact ⟨o :: os,s₂,t₂,run_cons_iff.mpr ⟨o,s₁,os,first,later,rfl⟩,run_cons_iff.mpr ⟨o,t₁,os,first',later',rfl⟩,last⟩

/-- Where every step from a state with an invariant goes through as promised and keeps the invariant, so does every run. -/
theorem each_of_step {I : σ → Prop} {P : σ → ι → ο → σ → Prop}
    (go : ∀ s i, I s → ∃ o t, step s i = .ok (o,t) ∧ P s i o t ∧ I t) {s : σ} {is : List ι} (start : I s) : Each step P s is := by
  induction is generalizing s with
  | nil => trivial
  | cons i rest ih =>
    obtain ⟨o,t,first,promise,next⟩ := go s i start
    exact ⟨o,t,first,promise,ih next⟩

theorem each_ran {P : σ → ι → ο → σ → Prop} {s : σ} {is : List ι} (each : Each step P s is) :
    ∃ os t, run step s is = .ok (os,t) := by
  induction is generalizing s with
  | nil => exact ⟨[],s,rfl⟩
  | cons i rest ih =>
    obtain ⟨o,u,first,_,later⟩ := each
    obtain ⟨os,t,ran⟩ := ih later
    exact ⟨o :: os,t,run_cons_iff.mpr ⟨o,u,os,first,ran,rfl⟩⟩

theorem each_of_ran {s t : σ} {is : List ι} {os : List ο} (ran : run step s is = .ok (os,t)) :
    Each step (fun _ _ _ _ => True) s is := by
  induction is generalizing s os with
  | nil => trivial
  | cons i rest ih =>
    obtain ⟨o,u,os',first,later,_⟩ := run_cons_iff.mp ran
    exact ⟨o,u,first,trivial,ih later⟩

/-- Where the condition says exactly which steps go through, from states with an invariant, the runs that go through are
    those whose steps all meet it. -/
theorem ran_iff_meets {I : σ → Prop} {C : σ → ι → Prop} (keep : ∀ s i o t, I s → step s i = .ok (o,t) → I t)
    (exact' : ∀ s i, I s → ((∃ o t, step s i = .ok (o,t)) ↔ C s i)) {s : σ} {is : List ι} (start : I s) :
    (∃ os t, run step s is = .ok (os,t)) ↔ Meets step C s is := by
  have same : Each step (fun _ _ _ _ => True) s is ↔ Meets step C s is :=
    each_iff_meets keep (fun s i inv => by simpa using exact' s i inv) start
  exact ⟨fun ⟨_,_,ran⟩ => same.mp (each_of_ran ran),fun meets => each_ran (same.mpr meets)⟩

/-- Where every step puts what it takes in behind the content and gives out what is in front, so does every run. -/
theorem run_conserves {α : Type v} {I : σ → Prop} (content : σ → List α) (taken given : ι → ο → List α)
    (keep : ∀ s i o t, I s → step s i = .ok (o,t) → content s ++ taken i o = given i o ++ content t ∧ I t) {s t : σ} {is : List ι}
    {os : List ο} (start : I s) (ran : run step s is = .ok (os,t)) :
    content s ++ (List.zipWith taken is os).flatten = (List.zipWith given is os).flatten ++ content t := by
  induction is generalizing s os with
  | nil =>
    cases ran
    simp
  | cons i rest ih =>
    obtain ⟨o,u,os',first,later,rfl⟩ := run_cons_iff.mp ran
    obtain ⟨here,next⟩ := keep s i o u start first
    have behind := ih next later
    simp only [List.zipWith_cons_cons,List.flatten_cons,← List.append_assoc,here]
    rw [List.append_assoc,behind,List.append_assoc]

/-! ## Runs with a history -/

/-- Every step that the run takes stands in a relation to the states around it. -/
def Always (step : σ → ι → Except ε (ο × σ)) (P : σ → ι → ο → σ → Prop) : σ → List ι → Prop
  | _, [] => True
  | s, i :: rest => ∀ o t, step s i = .ok (o,t) → P s i o t ∧ Always step P t rest

/-- Where every step that meets the condition, from a state with an invariant, keeps the invariant and
    the promise, a run whose steps all meet the condition keeps the promise throughout. -/
theorem always_of_always {I : σ → Prop} {C P : σ → ι → ο → σ → Prop}
    (keep : ∀ s i o t, I s → C s i o t → step s i = .ok (o,t) → P s i o t ∧ I t) {s : σ} {is : List ι} (start : I s)
    (meets : Always step C s is) : Always step P s is := by
  induction is generalizing s with
  | nil => trivial
  | cons i rest ih =>
    intro o t first
    obtain ⟨condition,later⟩ := meets o t first
    obtain ⟨promise,next⟩ := keep s i o t start condition first
    exact ⟨promise,ih next later⟩

/-- Where the condition says exactly which steps keep the promise, it does so for runs. -/
theorem always_iff {I : σ → Prop} {C P : σ → ι → ο → σ → Prop}
    (keep : ∀ s i o t, I s → C s i o t → step s i = .ok (o,t) → I t)
    (exact' : ∀ s i o t, I s → step s i = .ok (o,t) → (P s i o t ↔ C s i o t)) {s : σ} {is : List ι} (start : I s) :
    Always step P s is ↔ Always step C s is := by
  constructor
  · refine always_of_always (fun s i o t inv promise first => ?_) start
    have condition := (exact' s i o t inv first).mp promise
    exact ⟨condition,keep s i o t inv condition first⟩
  · refine always_of_always (fun s i o t inv condition first => ?_) start
    exact ⟨(exact' s i o t inv first).mpr condition,keep s i o t inv condition first⟩

theorem always_and {P Q : σ → ι → ο → σ → Prop} {s : σ} {is : List ι} :
    Always step (fun s i o t => P s i o t ∧ Q s i o t) s is ↔ Always step P s is ∧ Always step Q s is := by
  induction is generalizing s with
  | nil => simp [Always]
  | cons i rest ih =>
    simp only [Always,ih]
    constructor
    · intro both
      exact ⟨fun o t first => ⟨(both o t first).1.1,(both o t first).2.1⟩,
        fun o t first => ⟨(both o t first).1.2,(both o t first).2.2⟩⟩
    · rintro ⟨left,right⟩ o t first
      exact ⟨⟨(left o t first).1,(right o t first).1⟩,(left o t first).2,(right o t first).2⟩

/-- Where the surroundings keep to their part in every step, the condition says exactly which runs keep the promise. -/
theorem always_iff_of {I : σ → Prop} {C P F : σ → ι → ο → σ → Prop}
    (keep : ∀ s i o t, I s → C s i o t → F s i o t → step s i = .ok (o,t) → I t)
    (exact' : ∀ s i o t, I s → F s i o t → step s i = .ok (o,t) → (P s i o t ↔ C s i o t)) {s : σ} {is : List ι} (start : I s)
    (given : Always step F s is) : Always step P s is ↔ Always step C s is := by
  have both : Always step (fun s i o t => P s i o t ∧ F s i o t) s is ↔
    Always step (fun s i o t => C s i o t ∧ F s i o t) s is := by
    refine always_iff (fun s i o t inv condition first => keep s i o t inv condition.1 condition.2 first) ?_ start
    intro s i o t inv first
    exact and_congr_left fun fair => exact' s i o t inv fair first
  simpa [always_and,given] using both

/-- A step beside which a history is kept. -/
def recorded {η : Type v} (step : σ → ι → Except ε (ο × σ)) (note : σ → ι → ο → σ → η → η) :
    σ × η → ι → Except ε (ο × (σ × η)) := fun (s,h) i => do
  let (o,t) ← step s i
  .ok (o,(t,note s i o t h))

theorem recorded_ok_iff {η : Type v} {note : σ → ι → ο → σ → η → η} {s t : σ} {h h' : η} {i : ι} {o : ο} :
    recorded step note (s,h) i = .ok (o,(t,h')) ↔ step s i = .ok (o,t) ∧ h' = note s i o t h := by
  simp only [recorded,bind_ok_iff,Prod.exists,Except.ok.injEq,Prod.mk.injEq]
  constructor
  · rintro ⟨o',t',first,rfl,rfl,rfl⟩; exact ⟨first,rfl⟩
  · rintro ⟨first,rfl⟩; exact ⟨o,t,first,rfl,rfl,rfl⟩

/-- A history seen through a map that goes along with every note. -/
theorem always_recorded_map {η η' : Type v} {note : σ → ι → ο → σ → η → η} {note' : σ → ι → ο → σ → η' → η'} (f : η → η')
    (along : ∀ s i o t h, f (note s i o t h) = note' s i o t (f h)) {P : σ × η' → ι → ο → σ × η' → Prop} {s : σ} {h : η}
    {is : List ι} : Always (recorded step note) (fun p i o q => P (p.1,f p.2) i o (q.1,f q.2)) (s,h) is ↔
      Always (recorded step note') P (s,f h) is := by
  induction is generalizing s h with
  | nil => exact Iff.rfl
  | cons i rest ih =>
    constructor
    · rintro all o ⟨t,k⟩ first
      obtain ⟨step',rfl⟩ := recorded_ok_iff.mp first
      obtain ⟨here,later⟩ := all o (t,note s i o t h) (recorded_ok_iff.mpr ⟨step',rfl⟩)
      rw [← along]
      exact ⟨here,ih.mp later⟩
    · rintro all o ⟨t,k⟩ first
      obtain ⟨step',rfl⟩ := recorded_ok_iff.mp first
      obtain ⟨here,later⟩ := all o (t,note' s i o t (f h)) (recorded_ok_iff.mpr ⟨step',rfl⟩)
      rw [← along] at here later
      exact ⟨here,ih.mpr later⟩

end Sel4Linux.Runs
