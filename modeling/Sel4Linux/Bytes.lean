import Mathlib.Data.List.Basic
import Mathlib.Tactic.Common
import Mathlib.Tactic.IntervalCases

/-!
Bytes and 64-bit words. A word is read as eight bytes, least significant first
(`byteAt`), and a byte string is cut into words of eight bytes each, the last
one padded with zeros (`packWord`). Both directions are used on message
registers, and later on memory images.
-/
namespace Sel4Linux.Bytes
set_option linter.unusedSimpArgs false

abbrev Byte := BitVec 8
abbrev Word := BitVec 64

/-- Byte `j` of a word, counted from the least significant one. -/
def byteAt (w : Word) (j : Nat) : Byte := ((w >>> (j * 8)) &&& 0xFF#64).setWidth 8

theorem byteAt_getLsbD (w : Word) (j k : Nat) (inside : k < 8) :
    (byteAt w j).getLsbD k = w.getLsbD (j * 8 + k) := by
  have mask : (255#64).getLsbD k = true := by
    interval_cases k <;> rfl
  simp only [byteAt,BitVec.getLsbD_setWidth,BitVec.getLsbD_and,BitVec.getLsbD_ushiftRight,inside,mask,
    decide_true,Bool.true_and,Bool.and_true]

/-- Two words with the same eight bytes are equal. -/
theorem word_ext {v w : Word} (same : ∀ j < 8, byteAt v j = byteAt w j) : v = w := by
  apply BitVec.eq_of_getLsbD_eq
  intro i inside
  have bit := congrArg (fun b => b.getLsbD (i % 8)) (same (i / 8) (by omega))
  simp only [byteAt_getLsbD _ _ (i % 8) (Nat.mod_lt _ (by omega))] at bit
  rwa [show i / 8 * 8 + i % 8 = i by omega] at bit

/-- One step of packing: byte `i * 8 + j`, when there is one, goes to bit `j * 8`. -/
def packStep (data : List Byte) (i : Nat) (word : Word) (j : Nat) : Word :=
  if i * 8 + j < data.length then word ||| ((data.getD (i * 8 + j) 0).setWidth 64 <<< (j * 8)) else word

/-- Word `i` of a byte string. -/
def packWord (data : List Byte) (i : Nat) : Word := (List.range 8).foldl (packStep data i) 0

private theorem packStep_getLsbD (data : List Byte) (i : Nat) (word : Word) (j k : Nat) (inside : k < 64) :
    (packStep data i word j).getLsbD k =
      (word.getLsbD k || (decide (k / 8 = j) && (data.getD (i * 8 + j) 0).getLsbD (k % 8))) := by
  unfold packStep
  split
  · by_cases here : k / 8 = j
    · have above : ¬ k < j * 8 := by omega
      have offset : k - j * 8 = k % 8 := by omega
      simp [BitVec.getLsbD_or,BitVec.getLsbD_shiftLeft,BitVec.getLsbD_setWidth,here,above,offset,inside]
    · by_cases below : k < j * 8
      · simp [BitVec.getLsbD_or,BitVec.getLsbD_shiftLeft,here,below]
      · have far : 8 ≤ k - j * 8 := by omega
        simp [BitVec.getLsbD_or,BitVec.getLsbD_shiftLeft,BitVec.getLsbD_setWidth,here,below,BitVec.getLsbD_of_ge _ _ far]
  · have past : data.getD (i * 8 + j) 0 = 0 := by
      simp [List.getD_eq_getElem?_getD,List.getElem?_eq_none_iff.mpr (by omega : data.length ≤ i * 8 + j)]
    rw [past]
    simp

private theorem pack_getLsbD (data : List Byte) (i k : Nat) (inside : k < 64) : ∀ n ≤ 8,
    ((List.range n).foldl (packStep data i) 0).getLsbD k =
      (decide (k / 8 < n) && (data.getD (i * 8 + k / 8) 0).getLsbD (k % 8)) := by
  intro n
  induction n with
  | zero => intro _; simp
  | succ n ih =>
    intro small
    rw [List.range_succ,List.foldl_append,List.foldl_cons,List.foldl_nil,packStep_getLsbD _ _ _ _ _ inside,
      ih (by omega)]
    rcases Nat.lt_trichotomy (k / 8) n with lt | same | gt
    · simp [lt,Nat.lt_succ_of_lt lt,Nat.ne_of_lt lt]
    · simp [same]
    · simp [Nat.not_lt_of_gt gt,Nat.ne_of_gt gt,show ¬ k / 8 < n + 1 by omega]

/-- Byte `j` of word `i` is byte `i * 8 + j` of the string, or zero past its end. -/
theorem byteAt_packWord (data : List Byte) (i j : Nat) (low : j < 8) :
    byteAt (packWord data i) j = data.getD (i * 8 + j) 0 := by
  apply BitVec.eq_of_getLsbD_eq
  intro k inside
  rw [byteAt_getLsbD _ _ _ inside,packWord,pack_getLsbD _ _ _ (by omega) 8 (by omega)]
  have word : (j * 8 + k) / 8 = j := by omega
  have bit : (j * 8 + k) % 8 = k := by omega
  simp [word,bit,low]

/-- Narrowing undoes sign extension. -/
@[simp] theorem setWidth_signExtend (x : BitVec 32) : (x.signExtend 64).setWidth 32 = x := by
  apply BitVec.eq_of_getLsbD_eq
  intro i inside
  rw [BitVec.getLsbD_setWidth,BitVec.getLsbD_signExtend]
  simp [inside,show i < 64 by omega]

/-- Bits outside a mask and bits in it make up a word. -/
theorem toNat_and_not_add (x mask : Word) : (x &&& ~~~mask).toNat + (x &&& mask).toNat = x.toNat := by
  have apart : (x &&& ~~~mask) &&& (x &&& mask) = 0#64 := by
    ext i inside
    simp +contextual
  have whole : (x &&& ~~~mask) ||| (x &&& mask) = x := by
    rw [← BitVec.and_or_distrib_left,BitVec.or_comm,BitVec.or_not_self,BitVec.and_allOnes]
  rw [← BitVec.toNat_add_of_and_eq_zero apart,BitVec.add_eq_or_of_and_eq_zero _ _ apart,whole]

/-- Clearing low bits rounds down. -/
theorem toNat_and_not_low (x : Word) {mask : Word} {k : Nat} (isMask : mask.toNat = 2 ^ k - 1) :
    (x &&& ~~~mask).toNat = x.toNat - x.toNat % 2 ^ k := by
  have parts := toNat_and_not_add x mask
  rw [BitVec.toNat_and x mask,isMask,Nat.and_two_pow_sub_one_eq_mod] at parts
  omega

/-- The eight bytes of a word, least significant first. -/
def leBytes (w : Word) : List Byte := (List.range 8).map (byteAt w)

@[simp] theorem leBytes_length (w : Word) : (leBytes w).length = 8 := by simp [leBytes]

private theorem byteAt_high {w : Word} {n j : Nat} (small : w.toNat < 2 ^ (8 * n)) (above : n ≤ j) : byteAt w j = 0 := by
  apply BitVec.eq_of_getLsbD_eq
  intro k inside
  rw [byteAt_getLsbD _ _ _ inside,BitVec.getLsbD,Nat.testBit_lt_two_pow]
  · simp
  · exact Nat.lt_of_lt_of_le small (Nat.pow_le_pow_right (by decide) (by omega))

/-- The first bytes of a word that has no more give the word back. -/
theorem packWord_take_leBytes {w : Word} {n : Nat} (small : w.toNat < 2 ^ (8 * n)) : packWord ((leBytes w).take n) 0 = w := by
  apply word_ext
  intro j low
  rw [byteAt_packWord _ _ _ low,Nat.zero_mul,Nat.zero_add,List.getD_eq_getElem?_getD,List.getElem?_take]
  by_cases inside : j < n
  · rw [if_pos inside,leBytes,List.getElem?_map,List.getElem?_range low]
    rfl
  · rw [if_neg inside,byteAt_high small (by omega)]
    rfl

end Sel4Linux.Bytes
