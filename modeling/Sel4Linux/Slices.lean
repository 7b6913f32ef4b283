import Mathlib.Tactic.Common
import Mathlib.Data.List.Basic
import Mathlib.Data.Nat.Bitwise

/-!
Lists with Python's slices: read, replaced by a list of any length, and padded
at the end. Replacing a slice by a list of its length, and padding and appending,
both lay a piece on the list (`shows_assign`, `shows_append`); what a list shows
of pieces that do not meet fixes it, whatever the order they were laid in
(`shows_unique`).
-/
namespace Sel4Linux.Slices
set_option linter.unusedSimpArgs false

variable {β : Type} {data : List β}

/-- `data[start:stop]`. -/
def slice (data : List β) (start stop : Nat) : List β := (data.take stop).drop start

/-- `data[start:stop] = piece`. -/
def assign (data : List β) (start stop : Nat) (piece : List β) : List β :=
  data.take start ++ piece ++ data.drop (max start stop)

/-- `data.ljust(n, fill)`. -/
def ljust (data : List β) (n : Nat) (fill : β) : List β := data ++ List.replicate (n - data.length) fill

/-- `while len(data) < n: data.append(fill)`. -/
def padTo (data : List β) (n : Nat) (fill : β) : List β :=
  if data.length < n then padTo (data ++ [fill]) n fill else data
termination_by n - data.length

theorem padTo_eq (data : List β) (n : Nat) (fill : β) : padTo data n fill = ljust data n fill := by
  fun_induction padTo data n fill with
  | case1 data short ih =>
    have one : n - data.length = n - (data ++ [fill]).length + 1 := by
      rw [List.length_append,List.length_singleton]
      omega
    rw [ih,ljust,ljust,one,List.replicate_succ,List.append_assoc,List.singleton_append]
  | case2 data long => rw [ljust,Nat.sub_eq_zero_of_le (by omega),List.replicate_zero,List.append_nil]

@[simp] theorem length_ljust (data : List β) (n : Nat) (fill : β) : (ljust data n fill).length = max data.length n := by
  rw [ljust,List.length_append,List.length_replicate]
  omega

theorem getElem?_slice (data : List β) (start stop k : Nat) :
    (slice data start stop)[k]? = if start + k < stop then data[start + k]? else none := by
  rw [slice,List.getElem?_drop,List.getElem?_take]

theorem length_slice {start n : Nat} (inside : start + n ≤ data.length) : (slice data start (start + n)).length = n := by
  rw [slice,List.length_drop,List.length_take]
  omega

theorem getElem?_ljust (data : List β) (n : Nat) (fill : β) (i : Nat) :
    (ljust data n fill)[i]? = if i < data.length then data[i]? else if i < n then some fill else none := by
  rw [ljust]
  by_cases inside : i < data.length
  · rw [if_pos inside,List.getElem?_append_left inside]
  · rw [if_neg inside,List.getElem?_append_right (by omega),List.getElem?_replicate]
    exact if_congr (by omega) rfl rfl

section
variable {start : Nat} {piece : List β} (inside : start + piece.length ≤ data.length)
include inside

theorem length_assign : (assign data start (start + piece.length) piece).length = data.length := by
  simp only [assign,List.length_append,List.length_take,List.length_drop]
  omega

theorem getElem?_assign (i : Nat) : (assign data start (start + piece.length) piece)[i]? =
    if start ≤ i ∧ i < start + piece.length then piece[i - start]? else data[i]? := by
  have front : (data.take start).length = start := by rw [List.length_take]; omega
  rw [assign,Nat.max_eq_right (by omega),List.append_assoc]
  by_cases early : i < start
  · rw [if_neg (by omega),List.getElem?_append_left (by omega),List.getElem?_take_of_lt early]
  rw [List.getElem?_append_right (by omega),front]
  by_cases covered : i < start + piece.length
  · rw [if_pos ⟨by omega,covered⟩,List.getElem?_append_left (by omega)]
  · rw [if_neg (by omega),List.getElem?_append_right (by omega),List.getElem?_drop]
    congr 1
    omega

end

/-- A piece put in before `pos`. -/
theorem getElem?_insert {pos : Nat} (piece : List β) (inside : pos ≤ data.length) (i : Nat) : (assign data pos pos piece)[i]? =
    if i < pos then data[i]? else if i < pos + piece.length then piece[i - pos]? else data[i - piece.length]? := by
  have front : (data.take pos).length = pos := by rw [List.length_take]; omega
  rw [assign,Nat.max_self,List.append_assoc]
  by_cases early : i < pos
  · rw [if_pos early,List.getElem?_append_left (by omega),List.getElem?_take_of_lt early]
  rw [if_neg early,List.getElem?_append_right (by omega),front]
  by_cases covered : i < pos + piece.length
  · rw [if_pos covered,List.getElem?_append_left (by omega)]
  · rw [if_neg covered,List.getElem?_append_right (by omega),List.getElem?_drop]
    congr 1
    omega

theorem length_insert (data : List β) (pos : Nat) (piece : List β) :
    (assign data pos pos piece).length = data.length + piece.length := by
  simp only [assign,List.length_append,List.length_take,List.length_drop]
  omega

theorem slice_congr {xs ys : List β} {p q n : Nat} (same : ∀ k < n, xs[p + k]? = ys[q + k]?) :
    slice xs p (p + n) = slice ys q (q + n) := by
  apply List.ext_getElem?
  intro k
  rw [getElem?_slice,getElem?_slice]
  by_cases low : k < n
  · rw [if_pos (by omega),if_pos (by omega),same k low]
  · rw [if_neg (by omega),if_neg (by omega)]

/-- A slice replaced in front of an insertion. -/
theorem assign_insert {start pos : Nat} {piece inserted : List β} (before : start + piece.length ≤ pos)
    (inside : pos ≤ data.length) :
    assign (assign data pos pos inserted) start (start + piece.length) piece =
      assign (assign data start (start + piece.length) piece) pos pos inserted := by
  have length : (assign data start (start + piece.length) piece).length = data.length := length_assign (by omega)
  apply List.ext_getElem?
  intro i
  rw [getElem?_assign (by rw [length_insert]; omega),getElem?_insert inserted inside,
    getElem?_insert inserted (by omega),getElem?_assign (by omega),getElem?_assign (by omega)]
  by_cases early : i < pos
  · simp only [if_pos early]
  · rw [if_neg (by omega),if_neg early,if_neg early]
    by_cases covered : i < pos + inserted.length
    · simp only [if_pos covered]
    · rw [if_neg covered,if_neg covered,if_neg (by omega)]

theorem assign_append {start : Nat} {piece : List β} (inside : start + piece.length ≤ data.length) (behind : List β) :
    assign (data ++ behind) start (start + piece.length) piece = assign data start (start + piece.length) piece ++ behind := by
  have length := length_assign inside
  apply List.ext_getElem?
  intro i
  rw [getElem?_assign (by rw [List.length_append]; omega)]
  by_cases early : i < data.length
  · rw [List.getElem?_append_left early,List.getElem?_append_left (by omega),getElem?_assign inside]
  · rw [if_neg (by omega),List.getElem?_append_right (by omega),List.getElem?_append_right (by omega),length]

/-- `v & ~(2 ** n - 1)`. -/
theorem ldiff_mask (v n : Nat) : Nat.ldiff v (2 ^ n - 1) = v / 2 ^ n * 2 ^ n := by
  apply Nat.eq_of_testBit_eq
  intro i
  rw [Nat.testBit_ldiff,Nat.testBit_two_pow_sub_one,Nat.testBit_mul_two_pow,Nat.testBit_div_two_pow]
  by_cases low : i < n
  · simp [low,Nat.not_le_of_lt low]
  · simp [low,Nat.le_of_not_lt low,Nat.sub_add_cancel (Nat.le_of_not_lt low)]

/-! ## Pieces on a ground -/

/-- The list has the pieces at their places and the ground everywhere else. -/
structure Shows (ground : β) (pieces : List (Nat × List β)) (data : List β) : Prop where
  there : ∀ p ∈ pieces, ∀ k < p.2.length, data[p.1 + k]? = p.2[k]?
  blank : ∀ i < data.length, (∀ p ∈ pieces, i < p.1 ∨ p.1 + p.2.length ≤ i) → data[i]? = some ground

/-- No place is in both pieces. -/
def Clear (p q : Nat × List β) : Prop := ∀ i, p.1 ≤ i → i < p.1 + p.2.length → i < q.1 ∨ q.1 + q.2.length ≤ i

variable {ground : β} {pieces others : List (Nat × List β)} {xs ys : List β}

theorem shows_replicate (ground : β) (n : Nat) : Shows ground [] (List.replicate n ground) := by
  refine ⟨by simp,fun i inside _ => ?_⟩
  rw [List.length_replicate] at inside
  rw [List.getElem?_replicate,if_pos inside]

theorem Shows.congr (shows : Shows ground pieces data) (same : ∀ p, p ∈ pieces ↔ p ∈ others) : Shows ground others data :=
  ⟨fun p member => shows.there p ((same p).mpr member),
    fun i inside outside => shows.blank i inside fun p member => outside p ((same p).mp member)⟩

/-- Pieces are inside. -/
theorem Shows.inside (shows : Shows ground pieces data) {p : Nat × List β} (member : p ∈ pieces) {k : Nat}
    (low : k < p.2.length) : p.1 + k < data.length := by
  have there := shows.there p member k low
  rw [List.getElem?_eq_getElem low] at there
  exact (List.getElem?_eq_some_iff.mp there).1

theorem shows_unique (first : Shows ground pieces xs) (second : Shows ground pieces ys) (same : xs.length = ys.length) :
    xs = ys := by
  apply List.ext_getElem?
  intro i
  by_cases inside : i < xs.length
  · by_cases covered : ∃ p ∈ pieces, p.1 ≤ i ∧ i < p.1 + p.2.length
    · obtain ⟨p,member,above,below⟩ := covered
      obtain ⟨k,rfl⟩ := Nat.exists_eq_add_of_le above
      rw [first.there p member k (by omega),second.there p member k (by omega)]
    · have outside : ∀ p ∈ pieces, i < p.1 ∨ p.1 + p.2.length ≤ i := by
        intro p member
        by_contra meets
        exact covered ⟨p,member,by omega,by omega⟩
      rw [first.blank i inside outside,second.blank i (same ▸ inside) outside]
  · rw [List.getElem?_eq_none (by omega),List.getElem?_eq_none (by omega)]

/-- A piece put in place of a slice of its length. -/
theorem shows_assign (shows : Shows ground pieces data) {p : Nat × List β} (inside : p.1 + p.2.length ≤ data.length)
    (clear : ∀ q ∈ pieces, Clear q p) : Shows ground (p :: pieces) (assign data p.1 (p.1 + p.2.length) p.2) := by
  constructor
  · intro q member k low
    rw [getElem?_assign inside]
    rcases List.mem_cons.mp member with rfl | old
    · rw [if_pos (by omega),Nat.add_sub_cancel_left]
    · have apart := clear q old (q.1 + k) (by omega) (by omega)
      rw [if_neg (by omega)]
      exact shows.there q old k low
  · intro i low outside
    rw [length_assign inside] at low
    have apart := outside p (by simp)
    rw [getElem?_assign inside,if_neg (by omega)]
    exact shows.blank i low fun q member => outside q (List.mem_cons_of_mem _ member)

theorem shows_ljust (shows : Shows ground pieces data) (n : Nat) : Shows ground pieces (ljust data n ground) := by
  constructor
  · intro p member k low
    rw [getElem?_ljust,if_pos (shows.inside member low)]
    exact shows.there p member k low
  · intro i low outside
    rw [length_ljust] at low
    rw [getElem?_ljust]
    by_cases old : i < data.length
    · rw [if_pos old]
      exact shows.blank i old outside
    · rw [if_neg old,if_pos (by omega)]

theorem shows_push (shows : Shows ground pieces data) (piece : List β) :
    Shows ground ((data.length,piece) :: pieces) (data ++ piece) := by
  constructor
  · intro p member k low
    rcases List.mem_cons.mp member with rfl | old
    · rw [List.getElem?_append_right (by simp),Nat.add_sub_cancel_left]
    · rw [List.getElem?_append_left (shows.inside old low)]
      exact shows.there p old k low
  · intro i low outside
    have apart := outside (data.length,piece) (by simp)
    simp only [List.length_append] at low apart
    rw [List.getElem?_append_left (by omega)]
    exact shows.blank i (by omega) fun p member => outside p (List.mem_cons_of_mem _ member)

/-- A piece appended at its place, which is not before the end unless the piece is empty. -/
theorem shows_append (shows : Shows ground pieces data) {p : Nat × List β} (behind : data.length ≤ p.1 ∨ p.2 = [])
    (n : Nat) :
    Shows ground (p :: pieces) (padTo (padTo data p.1 ground ++ p.2) n ground) := by
  have padded := shows_ljust shows p.1
  rw [padTo_eq,padTo_eq]
  refine shows_ljust ?_ n
  rcases behind with late | empty
  · have pushed := shows_push padded p.2
    rwa [length_ljust,Nat.max_eq_right late] at pushed
  · rw [empty,List.append_nil]
    refine ⟨fun q member => ?_,
      fun i low outside => padded.blank i low fun q member => outside q (List.mem_cons_of_mem _ member)⟩
    rcases List.mem_cons.mp member with rfl | old
    · simp [empty]
    · exact padded.there q old

theorem shows_take (shows : Shows ground pieces data) {n : Nat} (inside : ∀ p ∈ pieces, p.2 = [] ∨ p.1 + p.2.length ≤ n) :
    Shows ground pieces (data.take n) := by
  constructor
  · intro p member k low
    rcases inside p member with empty | fits
    · simp [empty] at low
    · rw [List.getElem?_take_of_lt (by omega)]
      exact shows.there p member k low
  · intro i low outside
    rw [List.length_take] at low
    rw [List.getElem?_take_of_lt (by omega)]
    exact shows.blank i (by omega) outside

end Sel4Linux.Slices
