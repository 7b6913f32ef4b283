import Mathlib.Tactic.Common

/-!
A flat memory: what is at an address is one value or nothing. It is given out and
taken back by whole pages, of any size. Pages that are added keep what they have
and are blank elsewhere.
-/
namespace Sel4Linux.FlatSpace
universe u

abbrev Space (α : Type u) := Nat → Option α

/-- The page of an address has part of the range from `lo` to `hi`. -/
def Covers (page lo hi a : Nat) : Prop := lo / page ≤ a / page ∧ a / page * page < hi

instance (page lo hi a : Nat) : Decidable (Covers page lo hi a) := inferInstanceAs (Decidable (_ ∧ _))

variable {α : Type u} (page : Nat) (blank : α) (m : Space α)

/-- The memory with all pages of a range. -/
def back (lo hi : Nat) : Space α := fun a => if Covers page lo hi a then some ((m a).getD blank) else m a

/-- The memory without the pages of a range. -/
def drop (lo hi : Nat) : Space α := fun a => if Covers page lo hi a then none else m a

/-- The memory with some values from an address on. -/
def overwrite (addr : Nat) (values : List α) : Space α := fun a =>
  if addr ≤ a ∧ a < addr + values.length then values[a - addr]? else m a

/-- A write adds the pages that it needs. -/
def put (addr : Nat) (values : List α) : Space α :=
  if values = [] then m else overwrite (back page blank m addr (addr + values.length)) addr values

/-- The values from an address on, up to the end of its page, for a buffer that keeps its rest. -/
def read (addr : Nat) (buf : List α) : Option (List α) := (m addr).map fun _ =>
  (List.range (min buf.length (page - addr % page))).map (fun i => (m (addr + i)).getD blank) ++
    buf.drop (min buf.length (page - addr % page))

variable {page blank m} {lo hi addr a : Nat} {values : List α} {v : α}

theorem back_kept (there : m a = some v) : back page blank m lo hi a = some v := by
  unfold back
  rw [there]
  split
  · rfl
  · rfl

theorem drop_kept (apart : ¬ Covers page lo hi a) : drop page m lo hi a = m a := if_neg apart

theorem put_inside (above : addr ≤ a) (below : a < addr + values.length) : put page blank m addr values a = values[a - addr]? := by
  have some' : values ≠ [] := by
    rintro rfl
    simp only [List.length_nil] at below
    omega
  rw [put,if_neg some']
  exact if_pos ⟨above,below⟩

theorem put_outside (outside : ¬ (addr ≤ a ∧ a < addr + values.length)) :
    put page blank m addr values a =
      if values ≠ [] ∧ Covers page addr (addr + values.length) a then some ((m a).getD blank) else m a := by
  unfold put
  by_cases none' : values = []
  · rw [if_pos none',if_neg fun both => both.1 none']
  · rw [if_neg none',overwrite,if_neg outside,back]
    exact if_congr (by simp [none']) rfl rfl

theorem put_kept (there : m a = some v) (outside : ¬ (addr ≤ a ∧ a < addr + values.length)) :
    put page blank m addr values a = some v := by
  rw [put_outside outside,there]
  split
  · rfl
  · rfl

end Sel4Linux.FlatSpace
