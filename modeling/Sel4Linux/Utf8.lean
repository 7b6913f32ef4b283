import Sel4Linux.Bytes
import Mathlib.Tactic.SplitIfs

/-!
UTF-8 text as byte strings: how far one character or one ill-formed piece
reaches (`scan`), the pieces of a byte string (`chunks`), which byte strings
are text (`isUtf8`), and the conversion that replaces every ill-formed piece by
U+FFFD (`lossy`). The conversion is the identity exactly on text, never
shortens its input and always gives text.
-/
namespace Sel4Linux.Utf8
open Sel4Linux.Bytes
set_option linter.unusedSimpArgs false

/-- `10xxxxxx`. -/
def tail (b : Byte) : Bool := b &&& 0xC0#8 == 0x80#8

/-- The length of the character that a first byte announces, 0 when none does. -/
def charWidth (b : Byte) : Nat :=
  if b < 0x80#8 then 1
  else if b < 0xC2#8 then 0
  else if b < 0xE0#8 then 2
  else if b < 0xF0#8 then 3
  else if b < 0xF5#8 then 4
  else 0

/-- Second bytes of three byte characters: no overlong forms and no surrogates. -/
def second3 (a b : Byte) : Bool :=
  (a == 0xE0#8 && (0xA0#8 ≤ b && b ≤ 0xBF#8)) ||
  (0xE1#8 ≤ a && a ≤ 0xEC#8 && (0x80#8 ≤ b && b ≤ 0xBF#8)) ||
  (a == 0xED#8 && (0x80#8 ≤ b && b ≤ 0x9F#8)) ||
  (0xEE#8 ≤ a && a ≤ 0xEF#8 && (0x80#8 ≤ b && b ≤ 0xBF#8))

/-- Second bytes of four byte characters: no overlong forms, nothing above U+10FFFF. -/
def second4 (a b : Byte) : Bool :=
  (a == 0xF0#8 && (0x90#8 ≤ b && b ≤ 0xBF#8)) ||
  (0xF1#8 ≤ a && a ≤ 0xF3#8 && (0x80#8 ≤ b && b ≤ 0xBF#8)) ||
  (a == 0xF4#8 && (0x80#8 ≤ b && b ≤ 0x8F#8))

/-- The first piece of four bytes: how many of them it takes, and whether it is a
    character or the longest start of one that nothing continues. -/
def scan4 (a b c d : Byte) : Nat × Bool :=
  if charWidth a = 1 then (1,true)
  else if charWidth a = 2 then
    if tail b then (2,true) else (1,false)
  else if charWidth a = 3 then
    if second3 a b then
      if tail c then (3,true) else (2,false)
    else (1,false)
  else if charWidth a = 4 then
    if second4 a b then
      if tail c then
        if tail d then (4,true) else (3,false)
      else (2,false)
    else (1,false)
  else (1,false)

/-- The first piece of a byte string; a missing byte reads as 0. -/
def scan (xs : List Byte) : Nat × Bool :=
  if xs.isEmpty then (0,true) else scan4 (xs.getD 0 0) (xs.getD 1 0) (xs.getD 2 0) (xs.getD 3 0)

private def chunksFuel : Nat → List Byte → List (List Byte × Bool)
  | 0, _ => []
  | n+1, xs => if xs.isEmpty then [] else (xs.take (scan xs).1,(scan xs).2) :: chunksFuel n (xs.drop (scan xs).1)

/-- The characters and ill-formed pieces of a byte string, in order. -/
def chunks (xs : List Byte) : List (List Byte × Bool) := chunksFuel xs.length xs

/-- The byte strings that are UTF-8 text. -/
def isUtf8 (xs : List Byte) : Bool := (chunks xs).all (fun chunk => chunk.2)

/-- U+FFFD. -/
def replacement : List Byte := [0xEF#8,0xBF#8,0xBD#8]

/-- The text of a byte string, with every ill-formed piece replaced by U+FFFD. -/
def lossy (xs : List Byte) : List Byte :=
  (chunks xs).flatMap (fun chunk => if chunk.2 then chunk.1 else replacement)

/-! ## One piece -/

private theorem tail_of_range {b : Byte} (low : 0x80#8 ≤ b) (high : b ≤ 0xBF#8) : tail b = true := by
  revert b
  decide

private theorem second3_tail {a b : Byte} (second : second3 a b = true) : tail b = true := by
  simp only [second3,Bool.or_eq_true,Bool.and_eq_true,decide_eq_true_eq] at second
  rcases second with ((⟨_,low,high⟩ | ⟨_,low,high⟩) | ⟨_,low,high⟩) | ⟨_,low,high⟩
  · exact tail_of_range (BitVec.le_trans (by decide) low) high
  · exact tail_of_range low high
  · exact tail_of_range low (BitVec.le_trans high (by decide))
  · exact tail_of_range low high

private theorem second4_tail {a b : Byte} (second : second4 a b = true) : tail b = true := by
  simp only [second4,Bool.or_eq_true,Bool.and_eq_true,decide_eq_true_eq] at second
  rcases second with (⟨_,low,high⟩ | ⟨_,low,high⟩) | ⟨_,low,high⟩
  · exact tail_of_range (BitVec.le_trans (by decide) low) high
  · exact tail_of_range low high
  · exact tail_of_range low (BitVec.le_trans high (by decide))

private theorem scan4_tails (a b c d : Byte) :
    1 ≤ (scan4 a b c d).1 ∧ (scan4 a b c d).1 ≤ 4 ∧ (2 ≤ (scan4 a b c d).1 → tail b = true) ∧
      (3 ≤ (scan4 a b c d).1 → tail c = true) ∧ (4 ≤ (scan4 a b c d).1 → tail d = true) ∧
      ((scan4 a b c d).2 = false → (scan4 a b c d).1 ≤ 3) := by
  unfold scan4
  split_ifs <;> simp_all [second3_tail,second4_tail]
  · rename_i second _; exact second3_tail second
  · rename_i second _; exact second3_tail second
  · rename_i second _ _; exact second4_tail second
  · rename_i second _ _; exact second4_tail second
  · rename_i second _; exact second4_tail second

private theorem scan4_congr {a b c d b' c' d' : Byte} (valid : (scan4 a b c d).2 = true)
    (second : 2 ≤ (scan4 a b c d).1 → b' = b) (third : 3 ≤ (scan4 a b c d).1 → c' = c)
    (fourth : 4 ≤ (scan4 a b c d).1 → d' = d) : scan4 a b' c' d' = scan4 a b c d := by
  unfold scan4 at valid second third fourth ⊢
  split_ifs at valid second third fourth <;> grind

theorem scan_pos {xs : List Byte} (nonempty : xs ≠ []) : 1 ≤ (scan xs).1 := by
  simp [scan,nonempty,(scan4_tails _ _ _ _).1]

theorem scan_invalid_le (xs : List Byte) (invalid : (scan xs).2 = false) : (scan xs).1 ≤ 3 := by
  unfold scan at invalid ⊢
  split_ifs at invalid ⊢ with empty
  exact (scan4_tails _ _ _ _).2.2.2.2.2 invalid

theorem scan_tails (xs : List Byte) {n : Nat} (later : 1 ≤ n) (inside : n < (scan xs).1) :
    tail (xs.getD n 0) = true := by
  unfold scan at inside
  split_ifs at inside with empty
  · simp at inside
  · obtain ⟨_,four,second,third,fourth,_⟩ :=
      scan4_tails (xs.getD 0 0) (xs.getD 1 0) (xs.getD 2 0) (xs.getD 3 0)
    have cases : n = 1 ∨ n = 2 ∨ n = 3 := by omega
    rcases cases with rfl | rfl | rfl
    · exact second (by omega)
    · exact third (by omega)
    · exact fourth (by omega)

theorem scan_le_length (xs : List Byte) : (scan xs).1 ≤ xs.length := by
  by_cases empty : xs = []
  · simp [empty,scan]
  · have some : 0 < xs.length := List.length_pos_iff.mpr empty
    by_contra past
    have isTail : tail (xs.getD xs.length 0) = true := scan_tails xs some (by omega)
    rw [List.getD_eq_getElem?_getD,List.getElem?_eq_none_iff.mpr (Nat.le_refl _)] at isTail
    exact absurd isTail (by decide)

/-- A character is recognised whatever bytes follow it. -/
theorem scan_congr {xs ys : List Byte} (nonempty : ys ≠ []) (valid : (scan xs).2 = true) (some : xs ≠ [])
    (same : ∀ n < (scan xs).1, ys.getD n 0 = xs.getD n 0) : scan ys = scan xs := by
  have first := scan_pos some
  have left : scan xs = scan4 (xs.getD 0 0) (xs.getD 1 0) (xs.getD 2 0) (xs.getD 3 0) := by simp [scan,some]
  have right : scan ys = scan4 (ys.getD 0 0) (ys.getD 1 0) (ys.getD 2 0) (ys.getD 3 0) := by simp [scan,nonempty]
  rw [right,same 0 (by omega),left]
  rw [left] at valid same
  exact scan4_congr valid (fun two => same 1 (by omega)) (fun three => same 2 (by omega))
    (fun four => same 3 (by omega))

theorem scan_append {xs : List Byte} (ys : List Byte) (some : xs ≠ []) (valid : (scan xs).2 = true) :
    scan (xs ++ ys) = scan xs := by
  refine scan_congr (by simp [some]) valid some ?_
  intro n inside
  have bound := scan_le_length xs
  simp only [List.getD_eq_getElem?_getD,List.getElem?_append_left (show n < xs.length by omega)]

theorem scan_take {xs : List Byte} (some : xs ≠ []) (valid : (scan xs).2 = true) :
    scan (xs.take (scan xs).1) = scan xs := by
  have first := scan_pos some
  refine scan_congr (by simp [some]; omega) valid some ?_
  intro n inside
  simp [List.getD_eq_getElem?_getD,List.getElem?_take,inside]

/-! ## All pieces -/

/-- Induction along the pieces of a byte string. -/
theorem scan_induction {P : List Byte → Prop} (empty : P [])
    (next : ∀ xs, xs ≠ [] → P (xs.drop (scan xs).1) → P xs) (xs : List Byte) : P xs := by
  by_cases some : xs = []
  · exact some ▸ empty
  · have shorter : (xs.drop (scan xs).1).length < xs.length := by
      have := scan_pos some
      have := List.length_pos_iff.mpr some
      simp only [List.length_drop]; omega
    exact next xs some (scan_induction empty next _)
termination_by xs.length
decreasing_by exact shorter

private theorem chunksFuel_enough : ∀ (n m : Nat) (xs : List Byte), xs.length ≤ n → xs.length ≤ m →
    chunksFuel n xs = chunksFuel m xs := by
  intro n
  induction n with
  | zero =>
    intro m xs short _
    have none : xs = [] := List.eq_nil_of_length_eq_zero (by omega)
    subst none
    cases m <;> simp [chunksFuel]
  | succ n ih =>
    intro m xs short enough
    by_cases none : xs = []
    · subst none
      cases m <;> simp [chunksFuel]
    · have first := scan_pos none
      have positive := List.length_pos_iff.mpr none
      obtain ⟨m,rfl⟩ : ∃ k, m = k + 1 := ⟨m - 1,by omega⟩
      simp only [chunksFuel,List.isEmpty_iff,none]
      rw [ih m (xs.drop (scan xs).1) (by simp only [List.length_drop]; omega) (by simp only [List.length_drop]; omega)]

theorem chunks_cons {xs : List Byte} (some : xs ≠ []) :
    chunks xs = (xs.take (scan xs).1,(scan xs).2) :: chunks (xs.drop (scan xs).1) := by
  have first := scan_pos some
  have positive := List.length_pos_iff.mpr some
  obtain ⟨n,length⟩ : ∃ n, xs.length = n + 1 := ⟨xs.length - 1,by omega⟩
  unfold chunks
  rw [length,chunksFuel,if_neg (by simp [some])]
  rw [chunksFuel_enough n (xs.drop (scan xs).1).length _ (by simp only [List.length_drop]; omega) (Nat.le_refl _)]

theorem isUtf8_cons {xs : List Byte} (some : xs ≠ []) :
    isUtf8 xs = ((scan xs).2 && isUtf8 (xs.drop (scan xs).1)) := by
  simp only [isUtf8,chunks_cons some,List.all_cons]

@[simp] theorem lossy_nil : lossy [] = [] := rfl

theorem lossy_cons {xs : List Byte} (some : xs ≠ []) :
    lossy xs = (if (scan xs).2 then xs.take (scan xs).1 else replacement) ++ lossy (xs.drop (scan xs).1) := by
  simp only [lossy,chunks_cons some,List.flatMap_cons]

/-- A character in front changes nothing about what follows. -/
theorem isUtf8_char_append {char : List Byte} (ys : List Byte) (some : char ≠ [])
    (whole : scan char = (char.length,true)) : isUtf8 (char ++ ys) = isUtf8 ys := by
  have read := scan_append ys some (by rw [whole])
  rw [isUtf8_cons (by simp [some]),read,whole]
  simp

theorem lossy_char_append {char : List Byte} (ys : List Byte) (some : char ≠ [])
    (whole : scan char = (char.length,true)) : lossy (char ++ ys) = char ++ lossy ys := by
  have read := scan_append ys some (by rw [whole])
  rw [lossy_cons (by simp [some]),read,whole]
  simp

private theorem first_char {xs : List Byte} (some : xs ≠ []) (valid : (scan xs).2 = true) :
    scan (xs.take (scan xs).1) = ((xs.take (scan xs).1).length,true) := by
  rw [scan_take some valid,List.length_take,Nat.min_eq_left (scan_le_length xs),← valid]

private theorem first_char_nonempty {xs : List Byte} (some : xs ≠ []) : xs.take (scan xs).1 ≠ [] := by
  have first := scan_pos some
  simp [some]; omega

/-- The conversion gives text. -/
theorem isUtf8_lossy (xs : List Byte) : isUtf8 (lossy xs) = true := by
  induction xs using scan_induction with
  | empty => rfl
  | next xs some ih =>
    rw [lossy_cons some]
    split
    · rename_i valid
      rw [isUtf8_char_append _ (first_char_nonempty some) (first_char some valid),ih]
    · rw [isUtf8_char_append _ (by decide) (by decide),ih]

/-- Text is left alone. -/
theorem lossy_of_isUtf8 {xs : List Byte} (text : isUtf8 xs = true) : lossy xs = xs := by
  induction xs using scan_induction with
  | empty => rfl
  | next xs some ih =>
    rw [isUtf8_cons some,Bool.and_eq_true] at text
    rw [lossy_cons some,if_pos text.1,ih text.2,List.take_append_drop]

/-- The conversion never shortens a byte string. -/
theorem length_le_lossy (xs : List Byte) : xs.length ≤ (lossy xs).length := by
  induction xs using scan_induction with
  | empty => simp
  | next xs some ih =>
    have reach := scan_le_length xs
    rw [lossy_cons some]
    simp only [List.length_append,List.length_drop] at ih ⊢
    split
    · rw [List.length_take]; omega
    · rename_i invalid
      have short := scan_invalid_le xs (by simpa using invalid)
      simp only [replacement,List.length_cons,List.length_nil]; omega

theorem lossy_append {xs : List Byte} (ys : List Byte) (text : isUtf8 xs = true) : lossy (xs ++ ys) = xs ++ lossy ys := by
  induction xs using scan_induction with
  | empty => rfl
  | next xs some ih =>
    rw [isUtf8_cons some,Bool.and_eq_true] at text
    have split : xs ++ ys = xs.take (scan xs).1 ++ (xs.drop (scan xs).1 ++ ys) := by
      rw [← List.append_assoc,List.take_append_drop]
    rw [split,lossy_char_append _ (first_char_nonempty some) (first_char some text.1),ih text.2,
      ← List.append_assoc,List.take_append_drop]

/-! ## Prefixes that the conversion completes -/

/-- U+FFFD at the end of a text is a character of its own. -/
theorem isUtf8_before_replacement {xs : List Byte} (text : isUtf8 (xs ++ replacement) = true) : isUtf8 xs = true := by
  induction xs using scan_induction with
  | empty => rfl
  | next xs some ih =>
    have whole : xs ++ replacement ≠ [] := by simp [some]
    rw [isUtf8_cons whole,Bool.and_eq_true] at text
    have stays : (scan (xs ++ replacement)).1 ≤ xs.length := by
      by_contra past
      have first := List.length_pos_iff.mpr some
      -- The first byte of U+FFFD continues no character.
      have isTail := scan_tails (xs ++ replacement) first (by omega)
      rw [List.getD_eq_getElem?_getD,List.getElem?_append_right (Nat.le_refl _)] at isTail
      simp [replacement,tail] at isTail
    have same : scan xs = scan (xs ++ replacement) := by
      refine scan_congr some text.1 whole ?_
      intro n inside
      simp only [List.getD_eq_getElem?_getD,List.getElem?_append_left (show n < xs.length by omega)]
    rw [isUtf8_cons some,Bool.and_eq_true]
    refine ⟨by rw [same]; exact text.1,ih ?_⟩
    rw [← List.drop_append_of_le_length (by rw [same]; exact stays),same]
    exact text.2

/-- A byte string whose conversion extends it lacks the end of a U+FFFD. -/
theorem lossy_extends {xs ys : List Byte} (extends' : lossy xs = xs ++ ys) (more : ys ≠ []) :
    ∃ front, isUtf8 front = true ∧
      ((xs = front ++ [0xEF#8] ∧ ys = [0xBF#8,0xBD#8]) ∨ (xs = front ++ [0xEF#8,0xBF#8] ∧ ys = [0xBD#8])) := by
  induction xs using scan_induction with
  | empty => exact absurd (by simpa using extends'.symm) more
  | next xs some ih =>
    rw [lossy_cons some] at extends'
    split at extends'
    · rename_i valid
      have tailExtends : lossy (xs.drop (scan xs).1) = xs.drop (scan xs).1 ++ ys := by
        refine @List.append_cancel_left _ (xs.take (scan xs).1) _ _ ?_
        rw [extends',← List.append_assoc,List.take_append_drop]
      obtain ⟨front,text,ends⟩ := ih tailExtends
      refine ⟨xs.take (scan xs).1 ++ front,?_,?_⟩
      · rw [isUtf8_char_append _ (first_char_nonempty some) (first_char some valid),text]
      · have rejoin := List.take_append_drop (scan xs).1 xs
        rcases ends with ⟨last,rest⟩ | ⟨last,rest⟩
        · exact .inl ⟨by rw [List.append_assoc,← last,rejoin],rest⟩
        · exact .inr ⟨by rw [List.append_assoc,← last,rejoin],rest⟩
    · rename_i invalid
      refine ⟨[],rfl,?_⟩
      match xs,some with
      | [a],_ =>
        have begins : a = 0xEF#8 := by simpa [replacement] using (congrArg List.head? extends').symm
        subst begins
        have alone : scan [0xEF#8] = (1,false) := by decide
        simp [alone,replacement] at extends'
        exact .inl ⟨rfl,extends'.symm⟩
      | [a,b],_ =>
        have begins : a = 0xEF#8 ∧ b = 0xBF#8 := by
          have := congrArg (List.take 2) extends'
          simp [replacement] at this
          exact ⟨this.1.symm,this.2.symm⟩
        obtain ⟨rfl,rfl⟩ := begins
        have alone : scan [0xEF#8,0xBF#8] = (2,false) := by decide
        simp [alone,replacement] at extends'
        exact .inr ⟨rfl,extends'.symm⟩
      | a :: b :: c :: rest,_ =>
        have begins : a = 0xEF#8 ∧ b = 0xBF#8 ∧ c = 0xBD#8 := by
          have := congrArg (List.take 3) extends'
          simp [replacement] at this
          exact ⟨this.1.symm,this.2.1.symm,this.2.2.symm⟩
        obtain ⟨rfl,rfl,rfl⟩ := begins
        have char : scan (replacement ++ rest) = (3,true) := scan_append rest (by decide) (by decide)
        exact absurd (congrArg Prod.snd char) (by simpa [replacement] using invalid)

/-- The conversion of a prefix gives the whole back in exactly these cases: the
    prefix is the whole, or only the last bytes of a final U+FFFD are missing. -/
theorem lossy_take_iff (xs : List Byte) (n : Nat) :
    lossy (xs.take n) = xs ↔ isUtf8 xs = true ∧
      (xs.length ≤ n ∨ (replacement <:+ xs ∧ (n + 1 = xs.length ∨ n + 2 = xs.length))) := by
  constructor
  · intro whole
    refine ⟨whole ▸ isUtf8_lossy _,?_⟩
    by_cases all : xs.length ≤ n
    · exact .inl all
    · have more : xs.drop n ≠ [] := by simp; omega
      obtain ⟨front,_,ends⟩ := lossy_extends (by rw [whole,List.take_append_drop]) more
      have length : (xs.take n).length = n := by rw [List.length_take]; omega
      have rejoin := List.take_append_drop n xs
      rcases ends with ⟨last,rest⟩ | ⟨last,rest⟩
      · have whole' : xs = front ++ replacement := by rw [← rejoin,last,rest]; simp [replacement]
        refine .inr ⟨⟨front,whole'.symm⟩,?_⟩
        rw [last] at length
        rw [whole']
        simp [replacement] at length ⊢; omega
      · have whole' : xs = front ++ replacement := by rw [← rejoin,last,rest]; simp [replacement]
        refine .inr ⟨⟨front,whole'.symm⟩,?_⟩
        rw [last] at length
        rw [whole']
        simp [replacement] at length ⊢; omega
  · rintro ⟨text,all | ⟨⟨front,ends⟩,short⟩⟩
    · rw [List.take_of_length_le all,lossy_of_isUtf8 text]
    · subst ends
      have frontText := isUtf8_before_replacement text
      simp only [List.length_append,replacement,List.length_cons,List.length_nil] at short
      rw [List.take_append,List.take_of_length_le (by omega),lossy_append _ frontText]
      rcases short with one | two
      · rw [show n - front.length = 2 by omega]; rfl
      · rw [show n - front.length = 1 by omega]; rfl

/-- A Rust string: bytes that are text. -/
structure Str where
  bytes : List Byte
  text : isUtf8 bytes = true
  deriving DecidableEq

def Str.fromUtf8Lossy (xs : List Byte) : Str := ⟨lossy xs,isUtf8_lossy xs⟩

@[simp] theorem Str.fromUtf8Lossy_bytes (xs : List Byte) : (Str.fromUtf8Lossy xs).bytes = lossy xs := rfl

/-- A string survives being sent as bytes. -/
@[simp] theorem Str.fromUtf8Lossy_self (s : Str) : Str.fromUtf8Lossy s.bytes = s := by
  cases s with
  | mk bytes text => simp [Str.fromUtf8Lossy,lossy_of_isUtf8 text]

/-- A string of ASCII characters. -/
def ascii (text : List Char) : Str := Str.fromUtf8Lossy (text.map fun c => BitVec.ofNat 8 c.toNat)

def Str.isEmpty (s : Str) : Bool := s.bytes.isEmpty

def Str.len (s : Str) : Nat := s.bytes.length

/-- A field of a `struct utsname`. -/
def utsField (text : List Char) : List Byte :=
  (ascii text).bytes ++ List.replicate (65 - (ascii text).len) 0

theorem utsField_length {text : List Char} (short : (ascii text).len ≤ 65) : (utsField text).length = 65 := by
  simp only [utsField,List.length_append,List.length_replicate]
  change (ascii text).len + (65 - (ascii text).len) = 65
  omega

end Sel4Linux.Utf8
