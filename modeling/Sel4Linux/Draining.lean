import Sel4Linux.Ipc
import Sel4Linux.Slots
import Sel4Linux.TaskMem
import Mathlib.Data.List.Nodup

/-!
The frames of the ELF loader (`load_elf_to_memory` in `lcl/src/task/loader.rs`). The
untyped regions are tried from the largest to the smallest, and each is asked for one
frame after another until it refuses. The kernel may have used a part of a region
before. However many frames the regions still hold, the loop makes as many as are
wanted, or all that there are, one in each of the frame slots in their order
(`untyped_drained`).
-/
namespace Sel4Linux.Draining
open Sel4Linux.Bytes Sel4Linux.Ipc Sel4Linux.TaskMem Sel4Linux.Slots
set_option linter.unusedSimpArgs false

/-! ## Untyped regions -/

/-- The array of the boot information. -/
def MAX_UNTYPED_CAPS : Nat := 230

/-- A range of physical memory, of which the kernel has yet to give out `left` frames. -/
structure Region where
  paddr : Word
  desc : UntypedDesc
  left : Nat
  inMemory : paddr.toNat + 2 ^ desc.sizeBits.toNat ≤ 2 ^ 64
  inRegion : left * PAGE_SIZE ≤ 2 ^ desc.sizeBits.toNat

/-- The untyped slots, and what is behind each. -/
structure Untyped where
  start : Word
  regions : List Region
  few : regions.length ≤ MAX_UNTYPED_CAPS

def Untyped.bootInfo (u : Untyped) (empty : SlotRegion) : BootInfo :=
  { empty := empty, untypedStart := u.start, untypedList := u.regions.map Region.desc }

/-- The frames left in the regions that are no devices. -/
def Untyped.frames (u : Untyped) : Nat := ((u.regions.filter fun r => r.desc.isDevice = 0).map Region.left).sum

/-- The frames left behind each slot, and the slots of the frames made, in their order. -/
structure Kernel where
  left : Word → Nat
  made : List Word

def Untyped.kernel (u : Untyped) : Kernel :=
  { left := fun slot => (u.regions[(slot - u.start).toNat]?).elim 0 Region.left, made := [] }

/-- `seL4_Untyped_Retype` of one frame; refused when the region holds no more. -/
def Kernel.retype (k : Kernel) (utSlot frameSlot : Word) : Option Kernel :=
  if 0 < k.left utSlot then
    some { left := fun slot => if slot = utSlot then k.left slot - 1 else k.left slot, made := k.made ++ [frameSlot] }
  else none

/-! ## load_elf_to_memory -/

/-- `alloc()?` for each page. -/
def frameSlotsFor (a : ObjectAllocator) : Nat → Option (List Word × ObjectAllocator)
  | 0 => some ([],a)
  | n + 1 =>
    match a.alloc with
    | (none,_) => none
    | (some slot,a) => (frameSlotsFor a n).map fun (rest,a) => (slot :: rest,a)

/-- The regions that are no devices and hold a frame. -/
def untypedList (bi : BootInfo) : List (Word × BitVec 8) :=
  bi.untypedList.zipIdx.filterMap fun (desc,i) =>
    if desc.isDevice = 0 ∧ 12 ≤ desc.sizeBits then some (bi.untypedStart + BitVec.ofNat 64 i,desc.sizeBits) else none

/-- `b.1.cmp(&a.1)` is not `Greater`. -/
def largestFirst (a b : Word × BitVec 8) : Bool := b.2 ≤ a.2

/-- `1usize << (size_bits.saturating_sub(12))`. -/
def maxFrom (sizeBits : BitVec 8) : Word := (1 : Word) <<< ((sizeBits.toNat - 12) % 64)

/-- The kernel, and `done`. -/
structure Progress where
  kernel : Kernel
  done : Nat

/-- The inner loop: up to `n` frames from one region. -/
def drainRegion (frameSlots : List Word) (totalPages : Nat) (utSlot : Word) : Nat → Progress → Except Fault Progress
  | 0, s => .ok s
  | n + 1, s =>
    if totalPages ≤ s.done then .ok s
    else
      match frameSlots[s.done]? with
      | none => .error .range
      | some frameSlot =>
        match s.kernel.retype utSlot frameSlot with
        | none => .ok s
        | some kernel => drainRegion frameSlots totalPages utSlot n { kernel := kernel, done := s.done + 1 }

/-- The outer loop. -/
def drainRegions (frameSlots : List Word) (totalPages : Nat) (s : Progress) : List (Word × BitVec 8) → Except Fault Progress
  | [] => .ok s
  | (utSlot,sizeBits) :: rest =>
    if s.done < totalPages then do
      let s ← drainRegion frameSlots totalPages utSlot (maxFrom sizeBits).toNat s
      drainRegions frameSlots totalPages s rest
    else .ok s

/-- The allocation of the frames: their slots, or nothing, and the kernel afterwards. -/
def allocateFrames (bi : BootInfo) (k : Kernel) (a : ObjectAllocator) (totalPages : Nat) :
    Except Fault (Option (List Word) × Kernel) :=
  match frameSlotsFor a totalPages with
  | none => .ok (none,k)
  | some (frameSlots,_) => do
    let s ← drainRegions frameSlots totalPages { kernel := k, done := 0 } ((untypedList bi).mergeSort largestFirst)
    .ok (if s.done < totalPages then none else some frameSlots,s.kernel)

/-! ## The loops -/

/-- The frames made so far are in the first slots, one in each. -/
structure Filled (frameSlots : List Word) (s : Progress) : Prop where
  within : s.done ≤ frameSlots.length
  inOrder : s.kernel.made = frameSlots.take s.done

variable {frameSlots : List Word}

/-- One more frame. -/
theorem Filled.next {s : Progress} (filled : Filled frameSlots s) {frameSlot utSlot : Word} {k : Kernel}
    (isSlot : frameSlots[s.done]? = some frameSlot) (made : s.kernel.retype utSlot frameSlot = some k) :
    Filled frameSlots { kernel := k, done := s.done + 1 } ∧ k.left utSlot + 1 = s.kernel.left utSlot ∧
      ∀ slot, slot ≠ utSlot → k.left slot = s.kernel.left slot := by
  have inside := (List.getElem?_eq_some_iff.mp isSlot).1
  rw [Kernel.retype] at made
  split at made
  · next more =>
    cases made
    refine ⟨⟨inside,?_⟩,?_,fun slot other => if_neg other⟩
    · show s.kernel.made ++ [frameSlot] = frameSlots.take (s.done + 1)
      rw [filled.inOrder,List.take_add_one,isSlot]
      rfl
    · show (if utSlot = utSlot then s.kernel.left utSlot - 1 else s.kernel.left utSlot) + 1 = s.kernel.left utSlot
      rw [if_pos rfl]
      omega
  · cases made

/-- A region gives what it holds, or what is still wanted, when it may be asked often enough. -/
theorem drainRegion_drains {utSlot : Word} {n : Nat} {s : Progress} (filled : Filled frameSlots s)
    (often : s.kernel.left utSlot ≤ n) : ∃ t, drainRegion frameSlots frameSlots.length utSlot n s = .ok t ∧ Filled frameSlots t ∧
      t.done = s.done + min (s.kernel.left utSlot) (frameSlots.length - s.done) ∧
      ∀ slot, slot ≠ utSlot → t.kernel.left slot = s.kernel.left slot := by
  induction n generalizing s with
  | zero =>
    refine ⟨s,rfl,filled,?_,fun _ _ => rfl⟩
    omega
  | succ n ih =>
    rw [drainRegion]
    by_cases all : frameSlots.length ≤ s.done
    · rw [if_pos all]
      refine ⟨s,rfl,filled,?_,fun _ _ => rfl⟩
      omega
    · rw [if_neg all]
      obtain ⟨frameSlot,isSlot⟩ : ∃ frameSlot, frameSlots[s.done]? = some frameSlot :=
        ⟨_,List.getElem?_eq_getElem (Nat.lt_of_not_le all)⟩
      cases made : s.kernel.retype utSlot frameSlot with
      | none =>
        simp only [isSlot,made]
        rw [Kernel.retype] at made
        split at made
        · cases made
        · refine ⟨s,rfl,filled,?_,fun _ _ => rfl⟩
          omega
      | some k =>
        simp only [isSlot,made]
        obtain ⟨filled',fewer,others⟩ := filled.next isSlot made
        obtain ⟨t,ran,last,count,same⟩ := @ih { kernel := k, done := s.done + 1 } filled' (by simp only; omega)
        refine ⟨t,ran,last,?_,fun slot other => (same slot other).trans (others slot other)⟩
        simp only at count
        omega

/-- Regions give what they hold together, or what is still wanted. -/
theorem drainRegions_drains {entries : List (Word × BitVec 8)} {s : Progress} (filled : Filled frameSlots s)
    (apart : (entries.map Prod.fst).Nodup) (often : ∀ e ∈ entries, s.kernel.left e.1 ≤ (maxFrom e.2).toNat) :
    ∃ t, drainRegions frameSlots frameSlots.length s entries = .ok t ∧ Filled frameSlots t ∧
      t.done = s.done + min ((entries.map fun e => s.kernel.left e.1).sum) (frameSlots.length - s.done) := by
  induction entries generalizing s with
  | nil =>
    refine ⟨s,rfl,filled,?_⟩
    simp
  | cons e rest ih =>
    obtain ⟨utSlot,sizeBits⟩ := e
    rw [List.map_cons,List.nodup_cons] at apart
    rw [drainRegions,List.map_cons,List.sum_cons]
    by_cases more : s.done < frameSlots.length
    · rw [if_pos more]
      obtain ⟨t,ran,filled',count,same⟩ := drainRegion_drains filled (often (utSlot,sizeBits) List.mem_cons_self)
      have elsewhere : ∀ e ∈ rest, t.kernel.left e.1 = s.kernel.left e.1 := by
        intro e member
        refine same e.1 fun here => apart.1 ?_
        rw [← here]
        exact List.mem_map_of_mem member
      obtain ⟨u,ran',last,count'⟩ := @ih t filled' apart.2 fun e member => by
        rw [elsewhere e member]
        exact often e (List.mem_cons_of_mem _ member)
      rw [List.map_congr_left elsewhere] at count'
      refine ⟨u,?_,last,?_⟩
      · rw [ran]
        exact ran'
      · omega
    · rw [if_neg more]
      refine ⟨s,rfl,filled,?_⟩
      omega

/-! ## The list of regions -/

variable {u : Untyped} {empty : SlotRegion}

/-- A region may be asked as often as it holds frames. -/
theorem Region.often {r : Region} (page : 12 ≤ r.desc.sizeBits) : r.left ≤ (maxFrom r.desc.sizeBits).toNat := by
  have least : 12 ≤ r.desc.sizeBits.toNat := page
  have small : r.desc.sizeBits.toNat ≤ 64 := by
    refine (Nat.pow_le_pow_iff_right Nat.one_lt_two).mp (Nat.le_trans (Nat.le_add_left _ _) r.inMemory)
  obtain ⟨n,isBits⟩ : ∃ n, r.desc.sizeBits.toNat = n + 12 := ⟨_,(Nat.sub_add_cancel least).symm⟩
  have inRegion := r.inRegion
  rw [isBits,Nat.pow_add] at inRegion
  have count : (maxFrom r.desc.sizeBits).toNat = 2 ^ n := by
    rw [maxFrom,isBits,Nat.add_sub_cancel,Nat.mod_eq_of_lt (by omega),BitVec.toNat_shiftLeft,Nat.shiftLeft_eq]
    have := Nat.pow_lt_pow_right Nat.one_lt_two (show n < 64 by omega)
    rw [show (1 : Word).toNat = 1 from rfl,Nat.one_mul,Nat.mod_eq_of_lt this]
  rw [count]
  exact Nat.le_of_mul_le_mul_right inRegion (Nat.two_pow_pos 12)

/-- A region too small for a frame holds none. -/
theorem Region.small {r : Region} (small : ¬ 12 ≤ r.desc.sizeBits) : r.left = 0 := by
  have less : r.desc.sizeBits.toNat < 12 := Nat.lt_of_not_le small
  have inRegion := r.inRegion
  have size : 2 ^ r.desc.sizeBits.toNat < PAGE_SIZE := Nat.pow_lt_pow_right Nat.one_lt_two less
  rcases Nat.eq_zero_or_pos r.left with none | some
  · exact none
  · have := Nat.le_trans (Nat.le_mul_of_pos_left PAGE_SIZE some) inRegion
    omega

/-- What is behind the slot of a region. -/
theorem Untyped.left_at {i : Nat} {r : Region} (isRegion : u.regions[i]? = some r) :
    u.kernel.left (u.start + BitVec.ofNat 64 i) = r.left := by
  have inside := (List.getElem?_eq_some_iff.mp isRegion).1
  have few := u.few
  have size : MAX_UNTYPED_CAPS = 230 := rfl
  have place : (u.start + BitVec.ofNat 64 i - u.start).toNat = i := by
    rw [BitVec.add_comm,BitVec.add_sub_cancel,BitVec.toNat_ofNat,Nat.mod_eq_of_lt (by omega)]
  simp only [Untyped.kernel,place,isRegion]
  rfl

/-- The regions from the `i`th on, as the loop lists them. -/
def entriesFrom (u : Untyped) (regions : List Region) (i : Nat) : List (Word × BitVec 8) :=
  ((regions.map Region.desc).zipIdx i).filterMap fun (desc,i) =>
    if desc.isDevice = 0 ∧ 12 ≤ desc.sizeBits then some (u.start + BitVec.ofNat 64 i,desc.sizeBits) else none

theorem entriesFrom_cons (r : Region) (rest : List Region) (i : Nat) : entriesFrom u (r :: rest) i =
    (if r.desc.isDevice = 0 ∧ 12 ≤ r.desc.sizeBits then [(u.start + BitVec.ofNat 64 i,r.desc.sizeBits)] else []) ++
      entriesFrom u rest (i + 1) := by
  rw [entriesFrom,List.map_cons,List.zipIdx_cons]
  by_cases usable : r.desc.isDevice = 0 ∧ 12 ≤ r.desc.sizeBits
  · simp only [List.filterMap_cons,if_pos usable]
    rfl
  · simp only [List.filterMap_cons,if_neg usable]
    rfl

/-- The kernel has these regions behind the slots from the `i`th on. -/
def Behind (u : Untyped) (regions : List Region) (i : Nat) : Prop :=
  ∀ (j : Nat) (r : Region), regions[j]? = some r → u.kernel.left (u.start + BitVec.ofNat 64 (i + j)) = r.left

theorem Behind.head {r : Region} {rest : List Region} {i : Nat} (behind : Behind u (r :: rest) i) :
    u.kernel.left (u.start + BitVec.ofNat 64 i) = r.left := behind 0 r rfl

theorem Behind.tail {r : Region} {rest : List Region} {i : Nat} (behind : Behind u (r :: rest) i) : Behind u rest (i + 1) := by
  intro j r' isRegion
  rw [Nat.add_assoc,Nat.add_comm 1 j]
  exact behind (j + 1) r' isRegion

theorem Untyped.behind (u : Untyped) : Behind u u.regions 0 := by
  intro j r isRegion
  rw [Nat.zero_add]
  exact Untyped.left_at isRegion

/-- The listed regions hold all the frames there are. -/
theorem entriesFrom_frames {regions : List Region} {i : Nat} (behind : Behind u regions i) :
    ((entriesFrom u regions i).map fun e => u.kernel.left e.1).sum =
      ((regions.filter fun r => r.desc.isDevice = 0).map Region.left).sum := by
  induction regions generalizing i with
  | nil => rfl
  | cons r rest ih =>
    rw [entriesFrom_cons,List.map_append,List.sum_append,ih behind.tail]
    by_cases device : r.desc.isDevice = 0
    · rw [List.filter_cons_of_pos (by simpa using device),List.map_cons,List.sum_cons]
      by_cases page : 12 ≤ r.desc.sizeBits
      · rw [if_pos ⟨device,page⟩,List.map_singleton,List.sum_singleton,behind.head]
      · rw [if_neg fun both => page both.2,Region.small page]
        rfl
    · rw [List.filter_cons_of_neg (by simpa using device),if_neg fun both => device both.1,List.map_nil,List.sum_nil,Nat.zero_add]

theorem entriesFrom_often {regions : List Region} {i : Nat} (behind : Behind u regions i) :
    ∀ e ∈ entriesFrom u regions i, u.kernel.left e.1 ≤ (maxFrom e.2).toNat := by
  induction regions generalizing i with
  | nil =>
    intro e member
    cases member
  | cons r rest ih =>
    intro e member
    rw [entriesFrom_cons] at member
    rcases List.mem_append.mp member with first | later
    · split at first
      · next usable =>
        rw [List.mem_singleton.mp first,behind.head]
        exact Region.often usable.2
      · cases first
    · exact ih behind.tail e later

/-- The slots of the listed regions are some of the untyped slots. -/
theorem entriesFrom_slots (regions : List Region) (i : Nat) :
    ((entriesFrom u regions i).map Prod.fst).Sublist
      ((List.range' i regions.length).map fun j => u.start + BitVec.ofNat 64 j) := by
  induction regions generalizing i with
  | nil => exact List.Sublist.refl _
  | cons r rest ih =>
    rw [entriesFrom_cons,List.length_cons,List.range'_succ,List.map_cons,List.map_append]
    split
    · exact (ih (i + 1)).cons_cons _
    · exact (ih (i + 1)).cons _

theorem untypedList_eq : untypedList (u.bootInfo empty) = entriesFrom u u.regions 0 := rfl

theorem entries_apart (u : Untyped) : ((entriesFrom u u.regions 0).map Prod.fst).Nodup := by
  refine (entriesFrom_slots u.regions 0).nodup (List.Nodup.map_on ?_ List.nodup_range')
  intro i low j high same
  have few := u.few
  have size : MAX_UNTYPED_CAPS = 230 := rfl
  rw [List.mem_range'_1] at low high
  exact (ofNat_inj (by omega) (by omega)).mp ((BitVec.add_right_inj _).mp same)

/-! ## Every loading -/

theorem frameSlotsFor_enough {a : ObjectAllocator} {n : Nat} (enough : n ≤ a.recycled.length) :
    ∃ a', frameSlotsFor a n = some (a.recycled.take n,a') := by
  induction n generalizing a with
  | zero => exact ⟨a,rfl⟩
  | succ n ih =>
    obtain ⟨recycled⟩ := a
    cases recycled with
    | nil => cases enough
    | cons slot rest =>
      obtain ⟨a',given⟩ := @ih ⟨rest⟩ (Nat.le_of_succ_le_succ enough)
      refine ⟨a',?_⟩
      simp only [frameSlotsFor,ObjectAllocator.alloc,given]
      rfl

/-- For all untyped regions, whatever the kernel has used of them, every number of pages and every content of the allocator
    that has a slot for each: the loops come to an end, with as many frames as are wanted, or as many as the regions hold. They
    are made in the first frame slots, one in each, and the loader gives up just when the regions hold fewer frames than are
    wanted. -/
theorem untyped_drained (u : Untyped) (empty : SlotRegion) {a : ObjectAllocator} {totalPages : Nat}
    (enough : totalPages ≤ a.recycled.length) : ∃ given k,
      allocateFrames (u.bootInfo empty) u.kernel a totalPages = .ok (given,k) ∧
      k.made = (a.recycled.take totalPages).take (min totalPages u.frames) ∧ k.made.length = min totalPages u.frames ∧
      (given = none ↔ u.frames < totalPages) := by
  obtain ⟨a',isSlots⟩ := frameSlotsFor_enough enough
  have length : (a.recycled.take totalPages).length = totalPages := List.length_take_of_le enough
  have sorted := List.mergeSort_perm (entriesFrom u u.regions 0) largestFirst
  obtain ⟨t,ran,filled,count⟩ := @drainRegions_drains (a.recycled.take totalPages)
    ((entriesFrom u u.regions 0).mergeSort largestFirst) { kernel := u.kernel, done := 0 } ⟨Nat.zero_le _,rfl⟩
    ((sorted.map Prod.fst).nodup_iff.mpr (entries_apart u))
    fun e member => entriesFrom_often u.behind e (sorted.mem_iff.mp member)
  have frames : (((entriesFrom u u.regions 0).mergeSort largestFirst).map fun e => u.kernel.left e.1).sum = u.frames := by
    rw [(sorted.map fun e => u.kernel.left e.1).sum_nat]
    exact entriesFrom_frames u.behind
  rw [length] at ran
  rw [length,frames,Nat.zero_add,Nat.sub_zero,Nat.min_comm] at count
  have inOrder := filled.inOrder
  rw [count] at inOrder
  refine ⟨if t.done < totalPages then none else some (a.recycled.take totalPages),t.kernel,?_,inOrder,?_,?_⟩
  · simp only [allocateFrames,isSlots,untypedList_eq,ran]
    rfl
  · rw [inOrder,List.length_take,length]
    exact Nat.min_eq_left (Nat.min_le_left _ _)
  · rw [count]
    split
    · next less =>
      refine ⟨fun _ => by omega,fun _ => rfl⟩
    · next full =>
      refine ⟨fun absent => ?_,fun few => by omega⟩
      cases absent

/-- A page, a device, and two pages of which one has been used. -/
def threeRegions : Untyped where
  start := 20
  regions :=
    [{ paddr := 0x100000, desc := ⟨12,0⟩, left := 1, inMemory := by decide, inRegion := by decide },
      { paddr := 0xFEE00000, desc := ⟨12,1⟩, left := 1, inMemory := by decide, inRegion := by decide },
      { paddr := 0x200000, desc := ⟨13,0⟩, left := 1, inMemory := by decide, inRegion := by decide }]
  few := by simp [MAX_UNTYPED_CAPS]

/-- Three frames are wanted, and two made. -/
theorem untyped_drained_three : ∃ given k,
    allocateFrames (threeRegions.bootInfo ⟨100,100⟩) threeRegions.kernel ⟨[5,6,7]⟩ 3 = .ok (given,k) ∧ k.made = [5,6] ∧
      given = none := by
  obtain ⟨given,k,ran,made,_,stops⟩ := untyped_drained threeRegions ⟨100,100⟩ (show 3 ≤ [5,6,7].length by simp)
  exact ⟨given,k,ran,made,stops.mpr (by decide)⟩

end Sel4Linux.Draining
