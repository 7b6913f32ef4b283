import Mathlib.Algebra.Group.Nat.Defs
import Mathlib.Data.List.Basic
import Mathlib.Data.List.Forall2
import Mathlib.Tactic.Common

/-!
Strings in an address space of words. A memory is a partial function of the
address. A write lays a string over it (`overlay`), and a memory shows a string
from an address on when it has each of its elements (`Reads`). Addresses wrap
around; the laws ask for no more than that a string is not longer than the
address space.
-/
namespace Sel4Linux.Overlay
set_option linter.unusedSimpArgs false

variable {w : Nat} {β : Type}

/-- The memory with `data` from `start` on. -/
def overlay (start : BitVec w) (data : List β) (m : BitVec w → Option β) : BitVec w → Option β := fun a =>
  data[(a - start).toNat]?.or (m a)

/-- The memory has the elements of `data` from `start` on. -/
def Reads (m : BitVec w → Option β) (start : BitVec w) (data : List β) : Prop :=
  ∀ i < data.length, m (start + BitVec.ofNat w i) = data[i]?

/-- What one memory has, the other has too. -/
def Within (m n : BitVec w → Option β) : Prop := ∀ a v, m a = some v → n a = some v

/-- No address is in both ranges. -/
def Apart (start : BitVec w) (k : Nat) (start' : BitVec w) (k' : Nat) : Prop :=
  ∀ i < k, ∀ j < k', start + BitVec.ofNat w i ≠ start' + BitVec.ofNat w j

variable {m n : BitVec w → Option β} {start start' a : BitVec w} {xs ys data : List β}

/-! ## Distances -/

theorem toNat_sub_start {i : Nat} (small : i < 2 ^ w) : (start + BitVec.ofNat w i - start).toNat = i := by
  rw [BitVec.add_comm,BitVec.add_sub_cancel,BitVec.toNat_ofNat,Nat.mod_eq_of_lt small]

theorem start_add_distance (start a : BitVec w) : start + BitVec.ofNat w (a - start).toNat = a := by
  rw [BitVec.ofNat_toNat,BitVec.setWidth_eq,BitVec.add_comm,BitVec.sub_add_cancel]

theorem toNat_advance_of_lt {i : Nat} (room : start.toNat + i < 2 ^ w) : (start + BitVec.ofNat w i).toNat = start.toNat + i := by
  have small : (BitVec.ofNat w i).toNat = i := by rw [BitVec.toNat_ofNat,Nat.mod_eq_of_lt (by omega)]
  rw [BitVec.toNat_add_of_lt (by rw [small]; exact room),small]

theorem toNat_retreat (start : BitVec w) (i : Nat) (below : i ≤ start.toNat) :
    (start - BitVec.ofNat w i).toNat = start.toNat - i := by
  have bound := start.isLt
  have small : (BitVec.ofNat w i).toNat = i := by rw [BitVec.toNat_ofNat,Nat.mod_eq_of_lt (by omega)]
  rw [BitVec.toNat_sub_of_le (by rw [BitVec.le_def,small]; exact below),small]

theorem add_ofNat_add (start : BitVec w) (i j : Nat) :
    start + BitVec.ofNat w i + BitVec.ofNat w j = start + BitVec.ofNat w (i + j) := by
  rw [BitVec.add_assoc,BitVec.ofNat_add]

@[simp] theorem add_ofNat_zero (start : BitVec w) : start + BitVec.ofNat w 0 = start := BitVec.add_zero start

/-- The distance from an address `k` further on. -/
theorem toNat_sub_advance (start a : BitVec w) {k : Nat} (small : k < 2 ^ w) :
    (a - (start + BitVec.ofNat w k)).toNat =
      if k ≤ (a - start).toNat then (a - start).toNat - k else 2 ^ w + (a - start).toNat - k := by
  have bound := (a - start).isLt
  rw [← BitVec.sub_sub,BitVec.toNat_sub,BitVec.toNat_ofNat,Nat.mod_eq_of_lt small]
  by_cases reached : k ≤ (a - start).toNat
  · have sum : 2 ^ w - k + (a - start).toNat = 2 ^ w + ((a - start).toNat - k) := by omega
    rw [if_pos reached,sum,Nat.add_mod_left,Nat.mod_eq_of_lt (by omega)]
  · rw [if_neg reached,Nat.mod_eq_of_lt (by omega)]
    omega

/-! ## Writing -/

theorem overlay_near {i : Nat} (small : i < 2 ^ w) {v : β} (isValue : data[i]? = some v) :
    overlay start data m (start + BitVec.ofNat w i) = some v := by
  rw [overlay,toNat_sub_start small,isValue,Option.some_or]

theorem overlay_far (far : data.length ≤ (a - start).toNat) : overlay start data m a = m a := by
  rw [overlay,List.getElem?_eq_none far,Option.none_or]

@[simp] theorem overlay_nil : overlay start [] m = m := by
  funext a
  exact overlay_far (Nat.zero_le _)

theorem isSome_overlay (there : (m a).isSome) : (overlay start data m a).isSome := by
  rw [overlay,Option.isSome_or,there,Bool.or_true]

/-- Both orders of two strings one behind the other make one string. -/
theorem overlay_append_eq (fits : xs.length + ys.length ≤ 2 ^ w) :
    overlay (start + BitVec.ofNat w xs.length) ys (overlay start xs m) = overlay start (xs ++ ys) m ∧
      overlay start xs (overlay (start + BitVec.ofNat w xs.length) ys m) = overlay start (xs ++ ys) m := by
  by_cases none : ys = []
  · rw [none,overlay_nil,overlay_nil,List.append_nil]
    exact ⟨rfl,rfl⟩
  · have some' := List.length_pos_of_ne_nil none
    refine ⟨funext fun a => ?_,funext fun a => ?_⟩
    all_goals
      have distance := toNat_sub_advance start a (show xs.length < 2 ^ w by omega)
      unfold overlay
      by_cases reached : xs.length ≤ (a - start).toNat
      · rw [if_pos reached] at distance
        rw [distance,List.getElem?_append_right reached,List.getElem?_eq_none reached,Option.none_or]
      · rw [if_neg reached] at distance
        rw [List.getElem?_append_left (by omega),List.getElem?_eq_none (by omega : ys.length ≤ _),Option.none_or]

theorem overlay_append (fits : xs.length + ys.length ≤ 2 ^ w) :
    overlay (start + BitVec.ofNat w xs.length) ys (overlay start xs m) = overlay start (xs ++ ys) m := (overlay_append_eq fits).1

theorem overlay_prepend (fits : xs.length + ys.length ≤ 2 ^ w) :
    overlay start xs (overlay (start + BitVec.ofNat w xs.length) ys m) = overlay start (xs ++ ys) m := (overlay_append_eq fits).2

/-- A string right below another one. -/
theorem overlay_below {k : Nat} (length : xs.length = k) (fits : xs.length + ys.length ≤ 2 ^ w) :
    overlay (start - BitVec.ofNat w k) xs (overlay start ys m) = overlay (start - BitVec.ofNat w k) (xs ++ ys) m := by
  rw [← overlay_prepend fits,length,BitVec.sub_add_cancel]

/-- A string written into another one. -/
theorem overlay_inside {k : Nat} (inside : k + ys.length ≤ xs.length) (fits : xs.length ≤ 2 ^ w) :
    overlay (start + BitVec.ofNat w k) ys (overlay start xs m) =
      overlay start (xs.take k ++ (ys ++ xs.drop (k + ys.length))) m := by
  by_cases none : ys = []
  · rw [none,overlay_nil,List.nil_append,List.length_nil,Nat.add_zero,List.take_append_drop]
  · have some' := List.length_pos_of_ne_nil none
    have front : (xs.take k).length = k := by rw [List.length_take]; omega
    refine funext ?_
    intro a
    have distance := toNat_sub_advance start a (show k < 2 ^ w by omega)
    unfold overlay
    by_cases reached : k ≤ (a - start).toNat
    · rw [if_pos reached] at distance
      rw [distance,List.getElem?_append_right (by omega),front]
      rcases Nat.lt_or_ge ((a - start).toNat - k) ys.length with own | past
      · rw [List.getElem?_append_left own,List.getElem?_eq_getElem own,Option.some_or,Option.some_or]
      · have index : k + ys.length + ((a - start).toNat - k - ys.length) = (a - start).toNat := by omega
        rw [List.getElem?_append_right past,List.getElem?_eq_none past,Option.none_or,List.getElem?_drop,index]
    · rw [if_neg reached] at distance
      rw [List.getElem?_append_left (by omega),List.getElem?_take_of_lt (by omega),
        List.getElem?_eq_none (by omega : ys.length ≤ _),Option.none_or]

/-! ## Reading -/

theorem reads_overlay (fits : data.length ≤ 2 ^ w) : Reads (overlay start data m) start data := by
  intro i inside
  rw [overlay_near (by omega) (List.getElem?_eq_getElem inside),List.getElem?_eq_getElem inside]

theorem reads_append_iff :
    Reads m start (xs ++ ys) ↔ Reads m start xs ∧ Reads m (start + BitVec.ofNat w xs.length) ys := by
  constructor
  · intro reads
    refine ⟨fun i inside => ?_,fun i inside => ?_⟩
    · rw [reads i (by rw [List.length_append]; omega),List.getElem?_append_left inside]
    · rw [add_ofNat_add,reads (xs.length + i) (by rw [List.length_append]; omega),List.getElem?_append_right (by omega),
        Nat.add_sub_cancel_left]
  · rintro ⟨first,second⟩ i inside
    rw [List.length_append] at inside
    rcases Nat.lt_or_ge i xs.length with early | late
    · rw [first i early,List.getElem?_append_left early]
    · have there := second (i - xs.length) (by omega)
      rw [add_ofNat_add,Nat.add_sub_cancel' late] at there
      rw [there,List.getElem?_append_right late]

theorem Reads.within (reads : Reads m start data) (within : Within m n) : Reads n start data := by
  intro i inside
  have there := reads i inside
  rw [List.getElem?_eq_getElem inside] at there ⊢
  exact within _ _ there

/-- Where one memory has something at each address, both show the same strings. -/
theorem reads_within_iff (within : Within m n) (there : ∀ i < data.length, (m (start + BitVec.ofNat w i)).isSome) :
    Reads n start data ↔ Reads m start data := by
  refine forall_congr' fun i => imp_congr_right fun inside => ?_
  obtain ⟨v,isValue⟩ := Option.isSome_iff_exists.mp (there i inside)
  rw [isValue,within _ v isValue]

/-- Two strings of one length at the same place are the same. -/
theorem reads_unique (first : Reads m start xs) (second : Reads m start ys) (same : xs.length = ys.length) : xs = ys := by
  refine List.ext_getElem? ?_
  intro i
  rcases Nat.lt_or_ge i xs.length with inside | outside
  · rw [← first i inside,← second i (by omega)]
  · rw [List.getElem?_eq_none outside,List.getElem?_eq_none (by omega)]

/-- A string stays under a write exactly when the write has the same elements where it covers it. -/
theorem reads_under_iff (reads : Reads m start data) :
    Reads (overlay start' ys m) start data ↔
      ∀ i < data.length, ∀ v, ys[(start + BitVec.ofNat w i - start').toNat]? = some v → data[i]? = some v := by
  refine forall_congr' fun i => imp_congr_right fun inside => ?_
  rw [overlay,reads i inside]
  cases ys[(start + BitVec.ofNat w i - start').toNat]? with
  | none => simp
  | some v =>
    rw [Option.some_or,eq_comm]
    constructor
    · rintro same v' isValue
      cases isValue
      exact same
    · intro same
      exact same v rfl

theorem Reads.apart (reads : Reads m start data) (apart : Apart start data.length start' ys.length) :
    Reads (overlay start' ys m) start data := by
  refine (reads_under_iff reads).mpr ?_
  intro i inside v covered
  obtain ⟨near,_⟩ := List.getElem?_eq_some_iff.mp covered
  exact absurd (start_add_distance start' _).symm (apart i inside _ near)

/-- Ranges that do not wrap around and follow each other are apart. -/
theorem apart_of_le {k k' : Nat} (behind : start.toNat + k ≤ start'.toNat) (room : start'.toNat + k' ≤ 2 ^ w) :
    Apart start k start' k' := by
  intro i inside j inside' same
  have bound := congrArg BitVec.toNat same
  have bound' := start'.isLt
  rw [toNat_advance_of_lt (by omega),toNat_advance_of_lt (by omega)] at bound
  omega

theorem Apart.symm {k k' : Nat} (apart : Apart start k start' k') : Apart start' k' start k :=
  fun i inside j inside' same => apart j inside' i inside same.symm

/-! ## What a write leaves -/

/-- The memories are the same below `low` and from `high` on. -/
def KeepsOutside (m n : BitVec w → Option β) (low high : Nat) : Prop := ∀ a, a.toNat < low ∨ high ≤ a.toNat → n a = m a

theorem keepsOutside_overlay (room : start.toNat + data.length ≤ 2 ^ w) :
    KeepsOutside m (overlay start data m) start.toNat (start.toNat + data.length) := by
  intro a outside
  have bound := a.isLt
  have bound' := start.isLt
  refine overlay_far ?_
  rw [BitVec.toNat_sub]
  rcases outside with below | above
  · rw [Nat.mod_eq_of_lt (by omega)]
    omega
  · have sum : 2 ^ w - start.toNat + a.toNat = 2 ^ w + (a.toNat - start.toNat) := by omega
    rw [sum,Nat.add_mod_left,Nat.mod_eq_of_lt (by omega)]
    omega

theorem KeepsOutside.widen {low low' high high' : Nat} (keeps : KeepsOutside m n low high) (below : low' ≤ low)
    (above : high ≤ high') : KeepsOutside m n low' high' :=
  fun a outside => keeps a (by omega)

theorem KeepsOutside.trans {o : BitVec w → Option β} {low high : Nat} (first : KeepsOutside m n low high)
    (second : KeepsOutside n o low high) : KeepsOutside m o low high :=
  fun a outside => (second a outside).trans (first a outside)

theorem Reads.keep {low high : Nat} (reads : Reads m start data) (keeps : KeepsOutside m n low high)
    (room : start.toNat + data.length ≤ 2 ^ w) (outside : start.toNat + data.length ≤ low ∨ high ≤ start.toNat) :
    Reads n start data := by
  intro i inside
  rw [keeps,reads i inside]
  rw [toNat_advance_of_lt (by omega)]
  omega

/-! ## Strings one after another -/

/-- Where each of the strings is that follow each other from `start` on. -/
def places (start : BitVec w) : List (List β) → List (BitVec w)
  | [] => []
  | first :: rest => start :: places (start + BitVec.ofNat w first.length) rest

@[simp] theorem length_places (start : BitVec w) (parts : List (List β)) : (places start parts).length = parts.length := by
  induction parts generalizing start with
  | nil => rfl
  | cons first rest ih => rw [places,List.length_cons,List.length_cons,ih]

theorem reads_flatten_iff (parts : List (List β)) :
    Reads m start parts.flatten ↔ List.Forall₂ (Reads m) (places start parts) parts := by
  induction parts generalizing start with
  | nil => exact iff_of_true (fun i inside => absurd inside (Nat.not_lt_zero i)) .nil
  | cons first rest ih => rw [List.flatten_cons,reads_append_iff,ih,places,List.forall₂_cons]

end Sel4Linux.Overlay
