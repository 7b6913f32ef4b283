import Sel4Linux.Ipc
import Sel4Linux.Runs

/-!
Descriptor tables. A table is a list of entries that may be empty; the entry of
a new descriptor goes behind all others, and an entry that is given up leaves its
place empty. A table stays numbered in this way (`Numbered`) when descriptors are
opened one after the other and live entries are replaced or given up.
-/
namespace Sel4Linux.FdTable
open Sel4Linux.Bytes Sel4Linux.Ipc
set_option linter.unusedSimpArgs false

variable {α : Type}

/-- Pushes `None` until the table has an element at `fd`. The grown table is one block. -/
def growTable (heap entrySize : Nat) (table : List (Option α)) (fd : Nat) : Except Fault (List (Option α)) :=
  if fd < table.length then .ok table
  else do
    let _ ← allocate heap ((fd + 1) * entrySize)
    .ok (table ++ List.replicate (fd + 1 - table.length) none)

/-- The entry that a descriptor names: `get(fd)`, flattened. -/
def lookup (table : List (Option α)) (fd : Word) : Option α := (table[fd.toNat]?).join

variable {table grown : List (Option α)} {fd next : Word}

theorem lookup_past (past : table.length ≤ fd.toNat) : lookup table fd = none := by
  simp [lookup,List.getElem?_eq_none past]

theorem lookup_set (inside : fd.toNat < table.length) (entry : Option α) (other : Word) :
    lookup (table.set fd.toNat entry) other = if other = fd then entry else lookup table other := by
  by_cases same : other = fd
  · subst same
    simp [lookup,inside]
  · have apart : fd.toNat ≠ other.toNat := fun equal => same (BitVec.eq_of_toNat_eq equal.symm)
    simp [lookup,List.getElem?_set_ne apart,same]

theorem lookup_inside {entry : α} (live : lookup table fd = some entry) : fd.toNat < table.length := by
  by_contra past
  rw [lookup_past (by omega)] at live
  cases live

theorem lookup_nones (fd : Word) : lookup ([none,none,none] : List (Option α)) fd = none := by
  by_cases inside : fd.toNat < 3
  · have : fd.toNat = 0 ∨ fd.toNat = 1 ∨ fd.toNat = 2 := by omega
    rcases this with zero | one | two
    · simp [lookup,zero]
    · simp [lookup,one]
    · simp [lookup,two]
  · exact lookup_past (Nat.le_of_not_lt inside)

/-- The table ends at the next descriptor, and the standard descriptors have no entry. -/
structure Numbered (table : List (Option α)) (next : Word) : Prop where
  length : table.length = next.toNat
  three : 3 ≤ next.toNat
  standard : ∀ fd : Word, fd.toNat ≤ 2 → lookup table fd = none

theorem nones_numbered : Numbered ([none,none,none] : List (Option α)) 3 := ⟨rfl,by decide,fun fd _ => lookup_nones fd⟩

/-- A live descriptor lies in the table, above the standard ones. -/
theorem Numbered.live (n : Numbered table next) {entry : α} (live : lookup table fd = some entry) :
    3 ≤ fd.toNat ∧ fd.toNat < next.toNat := by
  refine ⟨?_,n.length ▸ lookup_inside live⟩
  by_contra low
  rw [n.standard fd (by omega)] at live
  cases live

theorem Numbered.next_dead (n : Numbered table next) : lookup table next = none := lookup_past (by rw [n.length])

/-- Growing by one descriptor. -/
theorem Numbered.grow (n : Numbered table next) (heap entrySize : Nat) : growTable heap entrySize table next.toNat =
    allocate heap ((next.toNat + 1) * entrySize) >>= fun _ => .ok (table ++ [none]) := by
  have length := n.length
  rw [growTable,if_neg (by omega),show next.toNat + 1 - table.length = 1 by omega]
  rfl

/-- The table after an opening. -/
theorem Numbered.opened {heap entrySize : Nat} (n : Numbered table next) (small : heap < 2 ^ 64) (sized : 0 < entrySize)
    (grew : growTable heap entrySize table next.toNat = .ok grown) (entry : α) :
    Numbered (grown.set next.toNat (some entry)) (next + 1) ∧ (next + 1).toNat = next.toNat + 1 ∧
      ∀ fd, lookup (grown.set next.toNat (some entry)) fd = if fd = next then some entry else lookup table fd := by
  have length := n.length
  have three := n.three
  simp only [n.grow,Runs.bind_ok_iff,allocate_ok_iff,Except.ok.injEq] at grew
  obtain ⟨_,room,rfl⟩ := grew
  have bound : next.toNat + 1 ≤ (next.toNat + 1) * entrySize := Nat.le_mul_of_pos_right _ sized
  have after : (next + 1).toNat = next.toNat + 1 := by bv_omega
  have entries : ∀ fd, lookup ((table ++ [none]).set next.toNat (some entry)) fd =
      if fd = next then some entry else lookup table fd := by
    intro fd
    rw [lookup_set (by simp; omega)]
    split
    · rfl
    · next apart =>
      have away : fd.toNat ≠ table.length := fun same => apart (BitVec.eq_of_toNat_eq (by omega))
      by_cases inside : fd.toNat < table.length
      · simp [lookup,List.getElem?_append_left inside]
      · rw [lookup_past (by simp; omega),lookup_past (by omega)]
  refine ⟨⟨by simp; omega,by omega,fun fd low => ?_⟩,after,entries⟩
  rw [entries,if_neg (by rintro rfl; omega),n.standard fd low]

/-- A live entry replaced or given up. -/
theorem Numbered.set (n : Numbered table next) {old : α} (live : lookup table fd = some old) (new : Option α) :
    Numbered (table.set fd.toNat new) next := by
  have inside := n.live live
  refine ⟨by rw [List.length_set,n.length],n.three,fun other low => ?_⟩
  rw [lookup_set (lookup_inside live),if_neg (by rintro rfl; omega),n.standard other low]

end Sel4Linux.FdTable
