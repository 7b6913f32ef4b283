import Sel4Linux.Slots
import Sel4Linux.Runs

/-!
The slot manager that the services share (`crates/common/src/slot.rs`): recycled
slots come first, then those of a range that grows when nothing is left. Over
every run in which only held slots are recycled, the slots that are held,
recycled and not yet used make up the range, each of them once
(`slots_accounted`). The edge handler, which does not touch the manager, is left
out.
-/
namespace Sel4Linux.SlotSpace
open Sel4Linux.Bytes Sel4Linux.Slots Sel4Linux.Runs
set_option linter.unusedSimpArgs false

/-- The panic with "No available slots". -/
inductive Panic where
  | noSlots
  deriving DecidableEq, Repr

/-- The slot recycled last comes first. -/
structure SlotManager where
  next : Word
  stop : Word
  recycled : List Word
  deriving DecidableEq, Repr

def SlotManager.empty : SlotManager := { next := 0, stop := 0, recycled := [] }

def SlotManager.initEmptySlots (sm : SlotManager) (range : SlotRegion) : SlotManager :=
  { sm with next := range.start, stop := range.stop }

def SlotManager.available (sm : SlotManager) : Word :=
  BitVec.ofNat 64 sm.recycled.length + if sm.next < sm.stop then sm.stop - sm.next else 0

def SlotManager.allocSlot (sm : SlotManager) : Except Panic (Word × SlotManager) :=
  match sm.recycled with
  | slot :: rest => .ok (slot,{ sm with recycled := rest })
  | [] => if sm.next < sm.stop then .ok (sm.next,{ sm with next := sm.next + 1 }) else .error .noSlots

def SlotManager.recycleSlot (sm : SlotManager) (slot : Word) : SlotManager := { sm with recycled := slot :: sm.recycled }

def SlotManager.extend (sm : SlotManager) (count : Word) : SlotManager := { sm with stop := sm.stop + count }

/-- `init` of a manager that has not been used. -/
def init (range : SlotRegion) : SlotManager := SlotManager.empty.initEmptySlots range

/-- `alloc_slot` of the crate. -/
def allocSlot (sm : SlotManager) : Except Panic (Word × SlotManager) :=
  if sm.available = 0 then (sm.extend 0x1000).allocSlot else sm.allocSlot

/-! ## Runs, with the slots that are held -/

inductive SlotOp where
  | alloc
  | recycle (slot : Word)
  deriving DecidableEq, Repr

/-- A manager, and what has been allocated and not recycled since. -/
structure SlotState where
  manager : SlotManager
  held : List Word
  deriving DecidableEq, Repr

/-- One call; an allocation gives its slot. -/
def SlotState.step (s : SlotState) : SlotOp → Except Panic (Option Word × SlotState)
  | .alloc => do
    let (slot,manager) ← allocSlot s.manager
    .ok (some slot,{ manager := manager, held := slot :: s.held })
  | .recycle slot => .ok (none,{ manager := s.manager.recycleSlot slot, held := s.held.erase slot })

/-- Only held slots are recycled. -/
def RecyclesHeld (s : SlotState) : SlotOp → Prop
  | .alloc => True
  | .recycle slot => slot ∈ s.held

/-- The slots from `next` on, which nothing has used. -/
def SlotManager.unused (sm : SlotManager) : List Word := SlotRegion.slots { start := sm.next, stop := sm.stop }

/-- No slot is held, recycled or unused twice, or is two of these; together they are the slots from `start` to the end of the
    range; and `available` counts those that are not held. -/
structure Accounts (start : Word) (s : SlotState) : Prop where
  distinct : (s.held ++ (s.manager.recycled ++ s.manager.unused)).Nodup
  exact : ∀ slot, slot ∈ s.held ++ (s.manager.recycled ++ s.manager.unused) ↔ start ≤ slot ∧ slot < s.manager.stop
  free : s.manager.available.toNat = (s.manager.recycled ++ s.manager.unused).length

/-- Nothing is free, and the range cannot grow. -/
def Exhausted (s : SlotState) : Prop := s.manager.available = 0 ∧ 2 ^ 64 ≤ s.manager.stop.toNat + 0x1000

/-- A call keeps the account; an allocation panics just when the space is exhausted, and its slot has not been held. -/
def Sound (start : Word) (s : SlotState) (op : SlotOp) : Prop :=
  Accounts start s ∧ (s.step op = .error .noSlots ↔ op = .alloc ∧ Exhausted s) ∧
    ∀ slot t, s.step op = .ok (some slot,t) → slot ∉ s.held ∧ slot ∈ t.held ∧ Accounts start t

/-! ## Slots of a range -/

theorem slots_split {a b c : Word} (first : a ≤ b) (second : b ≤ c) :
    SlotRegion.slots ⟨a,c⟩ = SlotRegion.slots ⟨a,b⟩ ++ SlotRegion.slots ⟨b,c⟩ := by
  have low : a.toNat ≤ b.toNat := first
  have high : b.toNat ≤ c.toNat := second
  simp only [SlotRegion.slots,SlotRegion.count]
  rw [← List.map_append]
  congr 1
  have place : b.toNat = a.toNat + 1 * (b.toNat - a.toNat) := by omega
  have count : c.toNat - a.toNat = (b.toNat - a.toNat) + (c.toNat - b.toNat) := by omega
  rw [count,← List.range'_append,← place]

theorem mem_slots_iff {a b slot : Word} : slot ∈ SlotRegion.slots ⟨a,b⟩ ↔ a ≤ slot ∧ slot < b := by
  have bound := b.isLt
  simp only [SlotRegion.slots,SlotRegion.count,List.mem_map,List.mem_range'_1]
  constructor
  · rintro ⟨n,⟨low,high⟩,rfl⟩
    have place : (BitVec.ofNat 64 n).toNat = n := by
      rw [BitVec.toNat_ofNat,Nat.mod_eq_of_lt (by omega)]
    rw [BitVec.le_def,BitVec.lt_def,place]
    omega
  · rintro ⟨low,high⟩
    rw [BitVec.le_def] at low
    rw [BitVec.lt_def] at high
    exact ⟨slot.toNat,by omega,by rw [BitVec.ofNat_toNat,BitVec.setWidth_eq]⟩

theorem slots_nodup (a b : Word) : (SlotRegion.slots ⟨a,b⟩).Nodup := by
  have bound := b.isLt
  refine (named_nodup_iff ?_).mpr List.nodup_range'
  intro n member
  rw [List.mem_range'_1,SlotRegion.count] at member
  omega

theorem slots_length (a b : Word) : (SlotRegion.slots ⟨a,b⟩).length = b.toNat - a.toNat := by
  simp [SlotRegion.slots,SlotRegion.count]

theorem slots_cons {a b : Word} (more : a < b) : SlotRegion.slots ⟨a,b⟩ = a :: SlotRegion.slots ⟨a + 1,b⟩ := by
  have bound := b.isLt
  have low : a.toNat < b.toNat := more
  have next : (a + 1).toNat = a.toNat + 1 := by
    rw [BitVec.toNat_add]
    exact Nat.mod_eq_of_lt (by simp; omega)
  have count : b.toNat - a.toNat = (b.toNat - (a.toNat + 1)) + 1 := by omega
  simp only [SlotRegion.slots,SlotRegion.count,next]
  rw [count,List.range'_succ,List.map_cons,BitVec.ofNat_toNat,BitVec.setWidth_eq]

/-! ## One call -/

variable {start : Word} {s : SlotState}

/-- The slots of the range, each held, recycled or unused. -/
structure Tiled (start : Word) (s : SlotState) : Prop where
  ordered : start ≤ s.manager.next
  bounded : s.manager.next ≤ s.manager.stop
  tiles : (s.held ++ (s.manager.recycled ++ s.manager.unused)).Perm (SlotRegion.slots ⟨start,s.manager.stop⟩)

theorem Tiled.available (tiled : Tiled start s) :
    s.manager.available.toNat = s.manager.recycled.length + (s.manager.stop.toNat - s.manager.next.toNat) := by
  have count := tiled.tiles.length_eq
  have bounded : s.manager.next.toNat ≤ s.manager.stop.toNat := tiled.bounded
  have bound := s.manager.stop.isLt
  rw [List.length_append,List.length_append,SlotManager.unused,slots_length,slots_length] at count
  have span : (if s.manager.next < s.manager.stop then s.manager.stop - s.manager.next else 0).toNat =
      s.manager.stop.toNat - s.manager.next.toNat := by
    by_cases more : s.manager.next < s.manager.stop
    · rw [if_pos more,BitVec.toNat_sub_of_le tiled.bounded]
    · have same : s.manager.stop.toNat ≤ s.manager.next.toNat := Nat.le_of_not_lt more
      rw [if_neg more,Nat.sub_eq_zero_of_le same]
      rfl
  rw [SlotManager.available,BitVec.toNat_add,span,BitVec.toNat_ofNat]
  omega

theorem Tiled.accounts (tiled : Tiled start s) : Accounts start s := by
  refine ⟨tiled.tiles.nodup_iff.mpr (slots_nodup _ _),fun slot => tiled.tiles.mem_iff.trans mem_slots_iff,?_⟩
  rw [tiled.available,List.length_append,SlotManager.unused,slots_length]

/-- Nothing is available: nothing is recycled, and the range is used up. -/
theorem Tiled.used_up (tiled : Tiled start s) (none : s.manager.available = 0) :
    s.manager.recycled = [] ∧ s.manager.next = s.manager.stop := by
  have count := tiled.available
  rw [none] at count
  have bounded : s.manager.next.toNat ≤ s.manager.stop.toNat := tiled.bounded
  have zero : (0 : Word).toNat = 0 := rfl
  exact ⟨List.eq_nil_of_length_eq_zero (by omega),BitVec.eq_of_toNat_eq (by omega)⟩

/-- The manager gives the slot recycled last, or else the next one of the range. -/
theorem Tiled.takes (tiled : Tiled start s) (some' : s.manager.available ≠ 0) :
    ∃ slot manager, s.manager.allocSlot = .ok (slot,manager) ∧ Tiled start { manager := manager, held := slot :: s.held } := by
  have tiles := tiled.tiles
  rw [SlotManager.allocSlot]
  cases recycled : s.manager.recycled with
  | cons slot rest =>
    rw [recycled] at tiles
    exact ⟨slot,_,rfl,tiled.ordered,tiled.bounded,List.perm_middle.symm.trans tiles⟩
  | nil =>
    have more : s.manager.next < s.manager.stop := by
      apply Decidable.byContradiction
      intro used
      apply some'
      rw [SlotManager.available,recycled,if_neg used]
      rfl
    have bound := s.manager.stop.isLt
    have below : s.manager.next.toNat < s.manager.stop.toNat := more
    have next : (s.manager.next + 1).toNat = s.manager.next.toNat + 1 := by
      rw [BitVec.toNat_add]
      exact Nat.mod_eq_of_lt (by simp; omega)
    have ordered : start.toNat ≤ s.manager.next.toNat := tiled.ordered
    refine ⟨s.manager.next,_,if_pos more,?_,?_,?_⟩
    · show start ≤ s.manager.next + 1
      rw [BitVec.le_def,next]
      omega
    · show s.manager.next + 1 ≤ s.manager.stop
      rw [BitVec.le_def,next]
      omega
    · rw [recycled,SlotManager.unused,slots_cons more] at tiles
      exact List.perm_middle.symm.trans tiles

/-- The range grows where its end stays a word. -/
theorem Tiled.grows (tiled : Tiled start s) {count : Word} (room : s.manager.stop.toNat + count.toNat < 2 ^ 64) :
    Tiled start { s with manager := s.manager.extend count } := by
  have stop : (s.manager.stop + count).toNat = s.manager.stop.toNat + count.toNat := BitVec.toNat_add_of_lt room
  have further : s.manager.stop ≤ s.manager.stop + count := by
    rw [BitVec.le_def,stop]
    exact Nat.le_add_right _ _
  refine ⟨tiled.ordered,BitVec.le_trans tiled.bounded further,?_⟩
  have tiles := tiled.tiles.append_right (SlotRegion.slots ⟨s.manager.stop,s.manager.stop + count⟩)
  rw [← slots_split (BitVec.le_trans tiled.ordered tiled.bounded) further] at tiles
  show List.Perm (s.held ++ (s.manager.recycled ++ SlotRegion.slots ⟨s.manager.next,s.manager.stop + count⟩)) _
  rw [slots_split tiled.bounded further,← List.append_assoc s.manager.recycled,← List.append_assoc s.held]
  exact tiles

theorem Tiled.recycles (tiled : Tiled start s) {slot : Word} (isHeld : slot ∈ s.held) :
    Tiled start { manager := s.manager.recycleSlot slot, held := s.held.erase slot } := by
  refine ⟨tiled.ordered,tiled.bounded,?_⟩
  show List.Perm (s.held.erase slot ++ (slot :: s.manager.recycled ++ s.manager.unused)) _
  refine List.perm_middle.trans (List.Perm.trans ?_ tiled.tiles)
  exact (List.perm_cons_erase isHeld).symm.append_right _

/-- An allocation fails where the space is exhausted. -/
theorem Tiled.fails (tiled : Tiled start s) (exhausted : Exhausted s) : allocSlot s.manager = .error .noSlots := by
  obtain ⟨nothing,end'⟩ := tiled.used_up exhausted.1
  have wraps : ¬ s.manager.stop < s.manager.stop + 0x1000 := by
    have size : (0x1000 : Word).toNat = 0x1000 := rfl
    have bound := s.manager.stop.isLt
    have room := exhausted.2
    rw [BitVec.lt_def,BitVec.toNat_add,size]
    omega
  rw [allocSlot,if_pos exhausted.1,SlotManager.allocSlot,SlotManager.extend]
  simp only [nothing,end',if_neg wraps]

/-- An allocation gives a slot elsewhere. -/
theorem Tiled.allocs (tiled : Tiled start s) (left : ¬ Exhausted s) :
    ∃ slot manager, allocSlot s.manager = .ok (slot,manager) ∧ Tiled start { manager := manager, held := slot :: s.held } := by
  rw [allocSlot]
  by_cases none : s.manager.available = 0
  · rw [if_pos none]
    have size : (0x1000 : Word).toNat = 0x1000 := rfl
    have room : s.manager.stop.toNat + (0x1000 : Word).toNat < 2 ^ 64 := by
      rw [size]
      exact Nat.lt_of_not_le fun past => left ⟨none,past⟩
    have grown := tiled.grows room
    refine grown.takes fun still => ?_
    have used := (grown.used_up still).2
    simp only [SlotManager.extend] at used
    have moved := congrArg BitVec.toNat used
    rw [(tiled.used_up none).2,BitVec.toNat_add_of_lt room,size] at moved
    omega
  · rw [if_neg none]
    exact tiled.takes none

/-! ## Every run -/

theorem init_tiled {range : SlotRegion} (ordered : range.start ≤ range.stop) :
    Tiled range.start { manager := init range, held := [] } := ⟨BitVec.le_refl _,ordered,List.Perm.refl _⟩

theorem alloc_step (s : SlotState) : s.step .alloc = (allocSlot s.manager >>= fun given =>
    .ok (some given.1,{ manager := given.2, held := given.1 :: s.held })) := rfl

/-- A call from an account that is right. -/
theorem Tiled.sound (tiled : Tiled start s) {op : SlotOp} (held : RecyclesHeld s op) :
    Sound start s op ∧ ∀ o t, s.step op = .ok (o,t) → Tiled start t := by
  cases op with
  | alloc =>
    by_cases exhausted : Exhausted s
    · have failed : s.step .alloc = .error .noSlots := by
        rw [alloc_step,tiled.fails exhausted]
        rfl
      refine ⟨⟨tiled.accounts,?_,fun slot t given => ?_⟩,fun o t given => ?_⟩
      · simp [failed,exhausted]
      · rw [failed] at given
        cases given
      · rw [failed] at given
        cases given
    · obtain ⟨slot,manager,given,next⟩ := tiled.allocs exhausted
      have stepped : s.step .alloc = .ok (some slot,{ manager := manager, held := slot :: s.held }) := by
        rw [alloc_step,given]
        rfl
      have fresh := (List.nodup_cons.mp next.accounts.distinct).1
      refine ⟨⟨tiled.accounts,?_,fun slot' t given' => ?_⟩,fun o t given' => ?_⟩
      · simp [stepped,exhausted]
      · rw [stepped] at given'
        cases given'
        exact ⟨fun member => fresh (List.mem_append_left _ member),List.mem_cons_self,next.accounts⟩
      · rw [stepped] at given'
        cases given'
        exact next
  | recycle slot =>
    refine ⟨⟨tiled.accounts,?_,fun slot' t given => ?_⟩,fun o t given => ?_⟩
    · simp [SlotState.step]
    · cases given
    · cases given
      exact tiled.recycles held

/-- From every range, over every run in which only held slots are recycled: in each state the slots held, recycled and unused
    make up the range, each once, and `available` counts those that are free. An allocation gives a slot that is not held, and
    panics just when nothing is free and the range would grow past the last word. -/
theorem slots_accounted {range : SlotRegion} (ordered : range.start ≤ range.stop) {ops : List SlotOp}
    (held : Meets SlotState.step RecyclesHeld { manager := init range, held := [] } ops) :
    Meets SlotState.step (Sound range.start) { manager := init range, held := [] } ops ∧
      ∀ outs t, run SlotState.step { manager := init range, held := [] } ops = .ok (outs,t) → Accounts range.start t := by
  constructor
  · exact meets_of_meets (fun s op tiled recycles => Tiled.sound tiled recycles) (init_tiled ordered) held
  · intro outs t ran
    exact (run_invariant_meets (fun s op o t tiled recycles => (Tiled.sound tiled recycles).2 o t) (init_tiled ordered) held ran).accounts

/-- One slot, recycled and allocated again, and then one more from the range grown. -/
def reuse : List SlotOp := [.alloc,.recycle 10,.alloc,.alloc]

theorem reuse_held : Meets SlotState.step RecyclesHeld { manager := init ⟨10,11⟩, held := [] } reuse := by
  refine ⟨trivial,fun o t first => ?_⟩
  cases first
  refine ⟨List.mem_cons_self,fun o t second => ⟨trivial,fun _ _ _ => ⟨trivial,fun _ _ _ => trivial⟩⟩⟩

theorem slots_accounted_reuse : Accounts 10 { manager := { next := 12, stop := 0x100B, recycled := [] }, held := [11,10] } :=
  (@slots_accounted ⟨10,11⟩ (by decide) reuse reuse_held).2 [some 10,none,some 10,some 11] _ rfl

/-- At the end of the words nothing is free and the range cannot grow. -/
theorem slots_exhausted : run SlotState.step { manager := init ⟨-1,-1⟩, held := [] } [.alloc] = .error .noSlots := by
  rfl

end Sel4Linux.SlotSpace
