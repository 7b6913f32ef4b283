import Sel4Linux.Bytes
import Mathlib.Data.Fintype.Card
import Mathlib.Data.Fintype.EquivFin
import Mathlib.Logic.Relation
import Mathlib.Tactic.Common

/-!
The scan of the extra boot info (`get_tsc_freq_mhz` in `root-task/src/main.rs`).
It goes from header to header by the length that each header states, and stops
at the block of the time stamp counter. It ends inside the region exactly when
the headers it comes to make no circle, none of them leads to the last 16
offsets of the address space, and the block of the time stamp counter has its
payload in the region (`scan_bounded_iff`).
-/
namespace Sel4Linux.BootInfoScan
open Sel4Linux.Bytes
open Relation (ReflTransGen TransGen)
set_option linter.unusedSimpArgs false

/-- `SEL4_BOOTINFO_HEADER_X86_TSC_FREQ`. -/
def X86_TSC_FREQ : Word := 5

/-- A read of `size` bytes behind `extra_ptr`. -/
structure Access where
  offset : Word
  size : Nat
  deriving DecidableEq

def Access.Inside (extraLen : Word) (access : Access) : Prop := access.offset.toNat + access.size ≤ extraLen.toNat

section
-- The byte at every address, counted from `extra_ptr`; the region is its first `extraLen` bytes.
variable (mem : Word → Byte) (extraLen : Word)

/-- `size` bytes of a load, at most eight. -/
def load (offset : Word) (size : Nat) : Word :=
  packWord ((List.range size).map fun i => mem (offset + BitVec.ofNat 64 i)) 0

def idAt (offset : Word) : Word := load mem offset 8
def lenAt (offset : Word) : Word := load mem (offset + 8) 8

/-- The block of the time stamp counter. -/
def IsFreq (offset : Word) : Prop := idAt mem offset = X86_TSC_FREQ ∧ 16 ≤ lenAt mem offset

instance (offset : Word) : Decidable (IsFreq mem offset) := inferInstanceAs (Decidable (_ ∧ _))

/-- The loop, for `turns` turns: the result and the reads, or nothing when they do not suffice. -/
def scan : Nat → Word → Option (Option (BitVec 32) × List Access)
  | 0, _ => none
  | turns + 1, offset =>
    if offset + 16 ≤ extraLen then
      let header := [⟨offset,8⟩,⟨offset + 8,8⟩]
      if lenAt mem offset = 0 then some (none,header)
      else if IsFreq mem offset then some (some ((load mem (offset + 16) 4).setWidth 32),header ++ [⟨offset + 16,4⟩])
      else (scan turns (offset + lenAt mem offset)).map fun rest => (rest.1,header ++ rest.2)
    else some (none,[])

/-- `get_tsc_freq_mhz` in the release build, whose sums wrap around. -/
def getTscFreqMhz (turns : Nat) : Option (Option (BitVec 32) × List Access) :=
  if extraLen = 0 then some (none,[]) else scan mem extraLen turns 0

/-- The scan comes to a result, and all it reads is in the region. -/
def Bounded : Prop :=
  ∃ turns result reads, getTscFreqMhz mem extraLen turns = some (result,reads) ∧ ∀ r ∈ reads, r.Inside extraLen

/-- The header at the first offset leads to the second. -/
structure Leads (offset next : Word) : Prop where
  inside : offset.toNat + 16 ≤ extraLen.toNat
  counted : lenAt mem offset ≠ 0
  other : ¬ IsFreq mem offset
  there : next = offset + lenAt mem offset

/-- Offsets that headers lead to, from 0 on. -/
def Visited (offset : Word) : Prop := ReflTransGen (Leads mem extraLen) 0 offset

/-- What the headers of the region have to be like. -/
structure Sound : Prop where
  payload : ∀ offset, Visited mem extraLen offset → offset.toNat + 16 ≤ extraLen.toNat → IsFreq mem offset →
    offset.toNat + 20 ≤ extraLen.toNat
  room : ∀ offset, Visited mem extraLen offset → offset.toNat + 16 < 2 ^ 64
  onward : ∀ offset, Visited mem extraLen offset → ¬ TransGen (Leads mem extraLen) offset offset

/-! ## One turn -/

/-- The rest of the scan, from an offset on, ends within so many turns and reads inside the region. -/
def Goes (turns : Nat) (offset : Word) : Prop :=
  ∃ result reads, scan mem extraLen turns offset = some (result,reads) ∧ ∀ r ∈ reads, r.Inside extraLen

variable {mem extraLen}

theorem not_goes_zero (offset : Word) : ¬ Goes mem extraLen 0 offset := by
  rintro ⟨result,reads,ran,_⟩
  simp [scan] at ran

/-- The two reads of a header. -/
def header (offset : Word) : List Access := [⟨offset,8⟩,⟨offset + 8,8⟩]

theorem header_inside {offset : Word} (inside : offset.toNat + 16 ≤ extraLen.toNat) :
    ∀ r ∈ header offset, r.Inside extraLen := by
  have bound := extraLen.isLt
  have eight : (offset + 8).toNat = offset.toNat + 8 := BitVec.toNat_add_of_lt (by simp; omega)
  intro r member
  rcases List.mem_pair.mp member with rfl | rfl
  · simp only [Access.Inside]
    omega
  · simp only [Access.Inside,eight]
    omega

theorem scan_zero {offset : Word} (inside : offset + 16 ≤ extraLen) (zero : lenAt mem offset = 0) (turns : Nat) :
    scan mem extraLen (turns + 1) offset = some (none,header offset) := by
  simp only [scan,if_pos inside,if_pos zero,header]

theorem scan_freq {offset : Word} (inside : offset + 16 ≤ extraLen) (freq : IsFreq mem offset) (turns : Nat) :
    scan mem extraLen (turns + 1) offset =
      some (some ((load mem (offset + 16) 4).setWidth 32),header offset ++ [⟨offset + 16,4⟩]) := by
  have counted : lenAt mem offset ≠ 0 := by
    intro zero
    have long := freq.2
    rw [zero] at long
    exact absurd long (by decide)
  simp only [scan,if_pos inside,if_neg counted,if_pos freq,header]

theorem scan_next {offset : Word} (inside : offset + 16 ≤ extraLen) (counted : lenAt mem offset ≠ 0)
    (other : ¬ IsFreq mem offset) (turns : Nat) : scan mem extraLen (turns + 1) offset =
      (scan mem extraLen turns (offset + lenAt mem offset)).map fun rest => (rest.1,header offset ++ rest.2) := by
  simp only [scan,if_pos inside,if_neg counted,if_neg other,header]

theorem inside_iff {offset : Word} (room : offset.toNat + 16 < 2 ^ 64) :
    offset + 16 ≤ extraLen ↔ offset.toNat + 16 ≤ extraLen.toNat := by
  rw [BitVec.le_def,BitVec.toNat_add_of_lt (by simpa using room)]
  rfl

theorem goes_outside {offset : Word} (outside : ¬ offset + 16 ≤ extraLen) (turns : Nat) : Goes mem extraLen (turns + 1) offset :=
  ⟨none,[],by rw [scan,if_neg outside],by simp⟩

theorem goes_zero {offset : Word} (room : offset.toNat + 16 < 2 ^ 64) (inside : offset.toNat + 16 ≤ extraLen.toNat)
    (zero : lenAt mem offset = 0) (turns : Nat) : Goes mem extraLen (turns + 1) offset :=
  ⟨none,header offset,scan_zero ((inside_iff room).mpr inside) zero turns,header_inside inside⟩

theorem goes_freq_iff {offset : Word} (room : offset.toNat + 16 < 2 ^ 64) (inside : offset.toNat + 16 ≤ extraLen.toNat)
    (freq : IsFreq mem offset) (turns : Nat) : Goes mem extraLen (turns + 1) offset ↔ offset.toNat + 20 ≤ extraLen.toNat := by
  have sixteen : (offset + 16).toNat = offset.toNat + 16 := BitVec.toNat_add_of_lt (by simpa using room)
  have ran := scan_freq ((inside_iff room).mpr inside) freq turns
  constructor
  · rintro ⟨result,reads,ran',bounded⟩
    rw [ran] at ran'
    cases ran'
    have payload := bounded ⟨offset + 16,4⟩ (by simp)
    simpa only [Access.Inside,sixteen] using payload
  · intro payload
    refine ⟨_,_,ran,fun r member => ?_⟩
    rcases List.mem_append.mp member with early | last
    · exact header_inside inside r early
    · rw [List.mem_singleton.mp last,Access.Inside,sixteen]
      exact payload

theorem goes_next_iff {offset : Word} (room : offset.toNat + 16 < 2 ^ 64) (inside : offset.toNat + 16 ≤ extraLen.toNat)
    (counted : lenAt mem offset ≠ 0) (other : ¬ IsFreq mem offset) (turns : Nat) :
    Goes mem extraLen (turns + 1) offset ↔ Goes mem extraLen turns (offset + lenAt mem offset) := by
  have ran := scan_next ((inside_iff room).mpr inside) counted other turns
  constructor
  · rintro ⟨result,reads,ran',bounded⟩
    rw [ran] at ran'
    obtain ⟨rest,isRest,isResult⟩ := Option.map_eq_some_iff.mp ran'
    cases isResult
    exact ⟨rest.1,rest.2,isRest,fun r member => bounded r (List.mem_append_right _ member)⟩
  · rintro ⟨result,reads,ran',bounded⟩
    refine ⟨result,_,by rw [ran,ran']; rfl,fun r member => ?_⟩
    rcases List.mem_append.mp member with early | late
    · exact header_inside inside r early
    · exact bounded r late

/-- In the last 16 offsets the sum wraps around and the loop goes on behind the region. -/
theorem not_goes_end {offset : Word} (small : extraLen.toNat < 2 ^ 63) (sixteen : 16 ≤ extraLen.toNat)
    (last : 2 ^ 64 ≤ offset.toNat + 16) (turns : Nat) : ¬ Goes mem extraLen turns offset := by
  rintro ⟨result,reads,ran,bounded⟩
  have reading : (⟨offset,8⟩ : Access) ∈ reads := by
    cases turns with
    | zero => simp [scan] at ran
    | succ turns =>
      have bound := offset.isLt
      have wraps : (offset + 16).toNat = offset.toNat + 16 - 2 ^ 64 := by
        rw [BitVec.toNat_add,show (16 : Word).toNat = 16 from rfl]
        omega
      have inside : offset + 16 ≤ extraLen := by
        rw [BitVec.le_def,wraps]
        omega
      by_cases zero : lenAt mem offset = 0
      · rw [scan_zero inside zero] at ran
        cases ran
        simp [header]
      by_cases freq : IsFreq mem offset
      · rw [scan_freq inside freq] at ran
        cases ran
        simp [header]
      rw [scan_next inside zero freq] at ran
      obtain ⟨rest,_,isResult⟩ := Option.map_eq_some_iff.mp ran
      cases isResult
      simp [header]
  have inside := bounded _ reading
  simp only [Access.Inside] at inside
  omega

/-! ## The whole scan -/

theorem bounded_iff_goes : Bounded mem extraLen ↔ ∃ turns, Goes mem extraLen turns 0 := by
  by_cases none' : extraLen = 0
  · subst none'
    refine iff_of_true ⟨0,none,[],by simp [getTscFreqMhz],by simp⟩ ⟨1,none,[],?_,by simp⟩
    rw [scan,if_neg (by decide)]
  · simp only [Bounded,getTscFreqMhz,if_neg none',Goes]

/-- A scan that goes on from one offset goes on from where the header leads, with a turn less. -/
theorem goes_leads (small : extraLen.toNat < 2 ^ 63) {offset next : Word} {turns : Nat} (goes : Goes mem extraLen turns offset)
    (room : offset.toNat + 16 < 2 ^ 64) (leads : Leads mem extraLen offset next) :
    ∃ fewer < turns, Goes mem extraLen fewer next ∧ next.toNat + 16 < 2 ^ 64 := by
  cases turns with
  | zero => exact absurd goes (not_goes_zero offset)
  | succ turns =>
    have rest := (goes_next_iff room leads.inside leads.counted leads.other turns).mp goes
    rw [← leads.there] at rest
    refine ⟨turns,Nat.lt_succ_self turns,rest,Nat.lt_of_not_le fun last => ?_⟩
    have inside := leads.inside
    exact not_goes_end small (by omega) last turns rest

theorem goes_visited (small : extraLen.toNat < 2 ^ 63) {offset next : Word} {turns : Nat} (goes : Goes mem extraLen turns offset)
    (room : offset.toNat + 16 < 2 ^ 64) (visited : ReflTransGen (Leads mem extraLen) offset next) :
    ∃ fewer, Goes mem extraLen fewer next ∧ next.toNat + 16 < 2 ^ 64 := by
  induction visited with
  | refl => exact ⟨turns,goes,room⟩
  | tail _ leads ih =>
    obtain ⟨fewer,goes,room⟩ := ih
    obtain ⟨least,_,goes,room⟩ := goes_leads small goes room leads
    exact ⟨least,goes,room⟩

theorem goes_onward (small : extraLen.toNat < 2 ^ 63) {offset next : Word} {turns : Nat} (goes : Goes mem extraLen turns offset)
    (room : offset.toNat + 16 < 2 ^ 64) (onward : TransGen (Leads mem extraLen) offset next) :
    ∃ fewer < turns, Goes mem extraLen fewer next := by
  induction onward with
  | single leads =>
    obtain ⟨fewer,less,goes,_⟩ := goes_leads small goes room leads
    exact ⟨fewer,less,goes⟩
  | tail first leads ih =>
    obtain ⟨fewer,less,goes'⟩ := ih
    obtain ⟨_,_,room'⟩ := goes_visited small goes room first.to_reflTransGen
    obtain ⟨least,lesser,goes'',_⟩ := goes_leads small goes' room' leads
    exact ⟨least,Nat.lt_trans lesser less,goes''⟩

/-- No turn count is enough on a circle: each one would leave a smaller one that is. -/
theorem not_goes_circle (small : extraLen.toNat < 2 ^ 63) {offset : Word} (room : offset.toNat + 16 < 2 ^ 64)
    (circle : TransGen (Leads mem extraLen) offset offset) (turns : Nat) : ¬ Goes mem extraLen turns offset := by
  induction turns using Nat.strong_induction_on with
  | _ turns ih =>
    intro goes
    obtain ⟨fewer,less,goes'⟩ := goes_onward small goes room circle
    exact ih fewer less goes'

/-- The scan comes to the first offset from the second. -/
def Behind (mem : Word → Byte) (extraLen next offset : Word) : Prop :=
  Visited mem extraLen offset ∧ TransGen (Leads mem extraLen) offset next

/-- Without circles there is always a last header: the address space is finite. -/
theorem behind_ends (sound : Sound mem extraLen) : WellFounded (Behind mem extraLen) := by
  have finite : Finite Word := Finite.of_injective BitVec.toFin fun _ _ same => BitVec.eq_of_toFin_eq same
  have transitive : IsTrans Word (Behind mem extraLen) := ⟨fun _ _ _ first second => ⟨second.1,second.2.trans first.2⟩⟩
  have irreflexive : Std.Irrefl (Behind mem extraLen) := ⟨fun offset circle => sound.onward offset circle.1 circle.2⟩
  exact Finite.wellFounded_of_trans_of_irrefl _

theorem goes_of_sound (sound : Sound mem extraLen) : ∃ turns, Goes mem extraLen turns 0 := by
  have all : ∀ offset, Visited mem extraLen offset → ∃ turns, Goes mem extraLen turns offset := by
    intro offset
    induction offset using (behind_ends sound).induction with
    | _ offset ih =>
      intro visited
      have room := sound.room offset visited
      by_cases inside : offset.toNat + 16 ≤ extraLen.toNat
      · by_cases zero : lenAt mem offset = 0
        · exact ⟨1,goes_zero room inside zero 0⟩
        by_cases freq : IsFreq mem offset
        · exact ⟨1,(goes_freq_iff room inside freq 0).mpr (sound.payload offset visited inside freq)⟩
        have leads : Leads mem extraLen offset (offset + lenAt mem offset) := ⟨inside,zero,freq,rfl⟩
        obtain ⟨turns,goes⟩ := ih _ ⟨visited,.single leads⟩ (visited.tail leads)
        exact ⟨turns + 1,(goes_next_iff room inside zero freq turns).mpr goes⟩
      · exact ⟨1,goes_outside (fun le => inside ((inside_iff room).mp le)) 0⟩
  exact all 0 .refl

theorem sound_of_goes (small : extraLen.toNat < 2 ^ 63) {turns : Nat} (goes : Goes mem extraLen turns 0) :
    Sound mem extraLen := by
  have start : (0 : Word).toNat + 16 < 2 ^ 64 := by simp
  refine ⟨?_,?_,?_⟩
  · intro offset visited inside freq
    obtain ⟨fewer,goes',room⟩ := goes_visited small goes start visited
    cases fewer with
    | zero => exact absurd goes' (not_goes_zero offset)
    | succ fewer => exact (goes_freq_iff room inside freq fewer).mp goes'
  · intro offset visited
    obtain ⟨_,_,room⟩ := goes_visited small goes start visited
    exact room
  · intro offset visited circle
    obtain ⟨fewer,goes',room⟩ := goes_visited small goes start visited
    exact not_goes_circle small room circle fewer goes'

/-- For every region below 2^63 bytes and every content of the memory: the scan ends and stays in the region exactly when its
    headers are sound. -/
theorem scan_bounded_iff (mem : Word → Byte) (extraLen : Word) (small : extraLen.toNat < 2 ^ 63) :
    Bounded mem extraLen ↔ Sound mem extraLen := by
  rw [bounded_iff_goes]
  constructor
  · rintro ⟨turns,goes⟩
    exact sound_of_goes small goes
  · exact goes_of_sound

/-- A block of 24 bytes, and behind it the block of the time stamp counter with its 2400 MHz. -/
def twoBlocks : Word → Byte := fun offset =>
  (leBytes 1 ++ leBytes 24 ++ leBytes 0xFFFF ++ leBytes 5 ++ leBytes 20 ++ leBytes 2400).getD offset.toNat 0

theorem scan_bounded_iff_blocks : (44 : Word).toNat < 2 ^ 63 ∧ Bounded twoBlocks 44 := by
  have freq : IsFreq twoBlocks 24 := by decide
  have onward : ∀ next, Leads twoBlocks 44 0 next → next = 24 := fun next leads => leads.there
  have still : ∀ next, ¬ Leads twoBlocks 44 24 next := fun next leads => leads.other freq
  have visited : ∀ offset, Visited twoBlocks 44 offset → offset = 0 ∨ offset = 24 := by
    intro offset reached
    induction reached with
    | refl => exact .inl rfl
    | tail _ leads before =>
      rcases before with rfl | rfl
      · exact .inr (onward _ leads)
      · exact absurd leads (still _)
  refine ⟨by decide,(scan_bounded_iff twoBlocks 44 (by decide)).mpr ⟨?_,?_,?_⟩⟩
  · intro offset reached _ isFreq
    rcases visited offset reached with rfl | rfl
    · exact absurd isFreq (by decide)
    · decide
  · intro offset reached
    rcases visited offset reached with rfl | rfl <;> decide
  · intro offset reached circle
    obtain ⟨next,leads,later⟩ := TransGen.head'_iff.mp circle
    rcases visited offset reached with rfl | rfl
    · obtain rfl := onward next leads
      rcases ReflTransGen.cases_head later with same | ⟨_,leads,_⟩
      · exact absurd same (by decide)
      · exact still _ leads
    · exact still _ leads

/-- One header of the time stamp counter that fills the region, so that its payload is behind the region. -/
def freqAtEnd : Word → Byte := fun offset => if offset = 0 then 5 else if offset = 8 then 16 else 0

theorem payload_outside : ¬ ∀ (mem : Word → Byte) (extraLen : Word), extraLen.toNat < 2 ^ 63 → Bounded mem extraLen := by
  intro all
  obtain ⟨turns,goes⟩ := bounded_iff_goes.mp (all freqAtEnd 16 (by simp))
  cases turns with
  | zero => exact not_goes_zero 0 goes
  | succ turns =>
    have payload := (goes_freq_iff (by simp) (by simp) (by decide) turns).mp goes
    simp at payload

/-- Headers that state no more than what is left of the region lead onward, and only the payload is left to ask for. -/
theorem bounded_iff_payload (small : extraLen.toNat < 2 ^ 63)
    (fits : ∀ offset, Visited mem extraLen offset → offset.toNat + 16 ≤ extraLen.toNat →
      offset.toNat + (lenAt mem offset).toNat ≤ extraLen.toNat) :
    Bounded mem extraLen ↔ ∀ offset, Visited mem extraLen offset → offset.toNat + 16 ≤ extraLen.toNat → IsFreq mem offset →
      offset.toNat + 20 ≤ extraLen.toNat := by
  have place : ∀ offset next, Visited mem extraLen offset → Leads mem extraLen offset next →
      next.toNat = offset.toNat + (lenAt mem offset).toNat ∧ next.toNat ≤ extraLen.toNat := by
    intro offset next visited leads
    have left := fits offset visited leads.inside
    have sum : next.toNat = offset.toNat + (lenAt mem offset).toNat := by
      rw [leads.there,BitVec.toNat_add_of_lt (by omega)]
    exact ⟨sum,by omega⟩
  have later : ∀ offset next, Visited mem extraLen offset → TransGen (Leads mem extraLen) offset next →
      offset.toNat < next.toNat := by
    intro offset next visited onward
    have step : ∀ offset next, Visited mem extraLen offset → Leads mem extraLen offset next →
        offset.toNat < next.toNat := by
      intro offset next visited leads
      have counted : (lenAt mem offset).toNat ≠ 0 := fun zero => leads.counted (BitVec.eq_of_toNat_eq zero)
      have sum := (place offset next visited leads).1
      omega
    induction onward with
    | single leads => exact step _ _ visited leads
    | tail first leads ih => exact Nat.lt_trans ih (step _ _ (visited.trans first.to_reflTransGen) leads)
  rw [bounded_iff_goes]
  refine ⟨fun ⟨_,goes⟩ => (sound_of_goes small goes).payload,
    fun payload => goes_of_sound ⟨payload,?_,fun offset visited circle => ?_⟩⟩
  · intro offset visited
    rcases ReflTransGen.cases_tail visited with same | ⟨before,reached,leads⟩
    · simp [same]
    · have inside := (place before offset reached leads).2
      omega
  · exact Nat.lt_irrefl _ (later offset offset visited circle)

end

end Sel4Linux.BootInfoScan
