import Sel4Linux.Ipc

/-!
Capability slots and untyped memory (`crates/sel4-sys/src/bootinfo.rs`,
`lcl/src/utils/obj.rs`), and how the free slots are shared out when the first
user task is made (`test_busybox`, `create_user_task`). The region of empty
slots goes to the allocator twice; the slots that it hands out are distinct, and
none of those taken without it, exactly as long as no more are asked for than the
region has beyond those six (`slots_distinct_iff`).
-/
namespace Sel4Linux.Slots
open Sel4Linux.Bytes
set_option linter.unusedSimpArgs false

structure SlotRegion where
  start : Word
  stop : Word
  deriving DecidableEq

def SlotRegion.count (r : SlotRegion) : Nat := r.stop.toNat - r.start.toNat

/-- `start..end`. -/
def SlotRegion.slots (r : SlotRegion) : List Word := (List.range' r.start.toNat r.count).map (BitVec.ofNat 64)

structure UntypedDesc where
  sizeBits : BitVec 8
  isDevice : BitVec 8
  deriving DecidableEq

/-- `BootInfo`: the empty slots, the untyped slots and one descriptor for each of these. -/
structure BootInfo where
  empty : SlotRegion
  untypedStart : Word
  untypedList : List UntypedDesc
  deriving DecidableEq

/-- `find_free_untyped`: the slot and the size of the first one that is large enough. -/
def BootInfo.findFreeUntyped (bi : BootInfo) (minSizeBits : BitVec 8) : Option (Word × BitVec 8) :=
  (bi.untypedList.zipIdx.find? fun (desc,_) => decide (desc.isDevice = 0 ∧ minSizeBits ≤ desc.sizeBits)).map
    fun (desc,i) => (bi.untypedStart + BitVec.ofNat 64 i,desc.sizeBits)

/-- `ObjectAllocator`; the slot pushed last comes first. -/
structure ObjectAllocator where
  recycled : List Word
  deriving DecidableEq

def ObjectAllocator.new : ObjectAllocator := { recycled := [] }

def ObjectAllocator.alloc (a : ObjectAllocator) : Option Word × ObjectAllocator :=
  match a.recycled with
  | [] => (none,a)
  | slot :: rest => (some slot,{ recycled := rest })

def ObjectAllocator.extendSlot (a : ObjectAllocator) (slot : Word) : ObjectAllocator :=
  { recycled := slot :: a.recycled }

/-- Any number of `alloc` calls, with what they return. -/
def ObjectAllocator.allocs (a : ObjectAllocator) : Nat → List (Option Word) × ObjectAllocator
  | 0 => ([],a)
  | k + 1 =>
    let (slot,a) := a.alloc
    let (rest,a) := a.allocs k
    (slot :: rest,a)

/-- `test_busybox`: every slot of the region goes to the allocator. -/
def initializeAllocator (empty : SlotRegion) (a : ObjectAllocator) : ObjectAllocator :=
  empty.slots.foldl ObjectAllocator.extendSlot a

/-- The slots that `create_user_task` takes without the allocator. -/
structure TaskSlots where
  tcb : Word
  faultEp : Word
  stackFrame : Word
  ipcFrame : Word
  ptLoad : Word
  ptStack : Word
  deriving DecidableEq

def TaskSlots.all (t : TaskSlots) : List Word := [t.tcb,t.faultEp,t.stackFrame,t.ipcFrame,t.ptLoad,t.ptStack]

/-- The slots in `create_user_task`: the first six of the region are taken, the others go to the
    allocator in reverse order. -/
def createUserTaskSlots (empty : SlotRegion) (a : ObjectAllocator) : TaskSlots × ObjectAllocator :=
  let next := empty.start
  let taken : TaskSlots :=
    { tcb := next, faultEp := next + 1, stackFrame := next + 2, ipcFrame := next + 3, ptLoad := next + 4, ptStack := next + 5 }
  let remaining : SlotRegion := { start := next + 6, stop := empty.stop }
  (taken,remaining.slots.reverse.foldl ObjectAllocator.extendSlot a)

/-! ## What the allocator hands out -/

def handedOut (results : List (Option Word)) : List Word := results.filterMap id

theorem handedOut_allocs (a : ObjectAllocator) (k : Nat) : handedOut (a.allocs k).1 = a.recycled.take k := by
  induction k generalizing a with
  | zero => simp [handedOut,ObjectAllocator.allocs]
  | succ k ih =>
    obtain ⟨recycled⟩ := a
    cases recycled with
    | nil =>
      have rest := ih ⟨[]⟩
      simp [handedOut,ObjectAllocator.allocs,ObjectAllocator.alloc] at rest ⊢
      exact rest
    | cons slot rest =>
      have later := ih ⟨rest⟩
      simp [handedOut,ObjectAllocator.allocs,ObjectAllocator.alloc] at later ⊢
      exact later

theorem extended (slots : List Word) (a : ObjectAllocator) :
    slots.foldl ObjectAllocator.extendSlot a = ⟨slots.reverse ++ a.recycled⟩ := by
  induction slots generalizing a with
  | nil => rfl
  | cons slot rest ih => simp [ih,ObjectAllocator.extendSlot]

theorem ofNat_inj {i j : Nat} (small : i < 2 ^ 64) (small' : j < 2 ^ 64) :
    BitVec.ofNat 64 i = BitVec.ofNat 64 j ↔ i = j := by
  constructor
  · intro same
    have := congrArg BitVec.toNat same
    rwa [BitVec.toNat_ofNat,BitVec.toNat_ofNat,Nat.mod_eq_of_lt small,Nat.mod_eq_of_lt small'] at this
  · rintro rfl; rfl

def named (ns : List Nat) : List Word := ns.map (BitVec.ofNat 64)

theorem named_nodup_iff {ns : List Nat} (small : ∀ n ∈ ns, n < 2 ^ 64) : (named ns).Nodup ↔ ns.Nodup := by
  induction ns with
  | nil => simp [named]
  | cons n rest ih =>
    have smallRest : ∀ m ∈ rest, m < 2 ^ 64 := fun m member => small m (List.mem_cons_of_mem n member)
    have new : BitVec.ofNat 64 n ∉ named rest ↔ n ∉ rest := by
      simp only [named,List.mem_map,not_exists,not_and]
      constructor
      · intro apart member
        exact apart n member rfl
      · intro apart m member same
        exact apart ((ofNat_inj (smallRest m member) (small n List.mem_cons_self)).mp same ▸ member)
    rw [show named (n :: rest) = BitVec.ofNat 64 n :: named rest from rfl,List.nodup_cons,List.nodup_cons,ih smallRest,new]

/-- The slots that the flow has handed out after `k` more calls of `alloc`, and the six taken directly. -/
def busyboxSlots (empty : SlotRegion) (k : Nat) : List Word × List Word :=
  let (taken,a) := createUserTaskSlots empty (initializeAllocator empty ObjectAllocator.new)
  (handedOut (a.allocs k).1,taken.all)

/-- What is left of a region without its first six slots. -/
theorem remaining_slots {empty : SlotRegion} (room : 6 ≤ empty.count) :
    SlotRegion.slots { start := empty.start + 6, stop := empty.stop } =
      named (List.range' (empty.start.toNat + 6) (empty.count - 6)) := by
  have bound := empty.stop.isLt
  have count : empty.count = empty.stop.toNat - empty.start.toNat := rfl
  have start : (empty.start + 6).toNat = empty.start.toNat + 6 := by
    rw [BitVec.toNat_add]
    exact Nat.mod_eq_of_lt (by simp; omega)
  simp only [SlotRegion.slots,SlotRegion.count,start,named]
  rw [show empty.stop.toNat - (empty.start.toNat + 6) = empty.stop.toNat - empty.start.toNat - 6 by omega]

/-- The slots of a task: the first six of the region, and the others in front of what the allocator has. -/
theorem createUserTaskSlots_eq {empty : SlotRegion} (room : 6 ≤ empty.count) (a : ObjectAllocator) :
    (createUserTaskSlots empty a).1.all = named (List.range' empty.start.toNat 6) ∧
      (createUserTaskSlots empty a).2.recycled =
        named (List.range' (empty.start.toNat + 6) (empty.count - 6)) ++ a.recycled := by
  have next (i : Nat) : empty.start + BitVec.ofNat 64 i = BitVec.ofNat 64 (empty.start.toNat + i) := by
    rw [BitVec.ofNat_add,BitVec.ofNat_toNat,BitVec.setWidth_eq]
  constructor
  · simp only [createUserTaskSlots,TaskSlots.all,named,List.range',List.map_cons,List.map_nil]
    rw [← next 1,← next 2,← next 3,← next 4,← next 5,BitVec.ofNat_toNat,BitVec.setWidth_eq]
    rfl
  · simp only [createUserTaskSlots,extended,remaining_slots room,List.reverse_reverse]

/-- From the seventh slot up, and then from the last one down to the first. -/
theorem busyboxSlots_eq {empty : SlotRegion} (room : 6 ≤ empty.count) (k : Nat) :
    busyboxSlots empty k =
      (named ((List.range' (empty.start.toNat + 6) (empty.count - 6) ++
        (List.range' empty.start.toNat empty.count).reverse).take k),named (List.range' empty.start.toNat 6)) := by
  obtain ⟨taken,recycled⟩ := createUserTaskSlots_eq room (initializeAllocator empty ObjectAllocator.new)
  refine Prod.ext ?_ taken
  change handedOut ((createUserTaskSlots empty (initializeAllocator empty ObjectAllocator.new)).2.allocs k).1 = _
  rw [handedOut_allocs,recycled,initializeAllocator,extended]
  simp [SlotRegion.slots,named,List.map_take,ObjectAllocator.new]

/-- No slot twice, and none of those taken. -/
def NoneTwice (slots : List Word × List Word) : Prop := slots.1.Nodup ∧ ∀ slot ∈ slots.1, slot ∉ slots.2

/-- For every region of at least six empty slots and every number of calls of `alloc` after the task has
    been made: no slot is handed out twice, or is one of the six, exactly when there are at most as many
    calls as the region has slots beyond the six. -/
theorem slots_distinct_iff (empty : SlotRegion) (room : 6 ≤ empty.count) (k : Nat) :
    NoneTwice (busyboxSlots empty k) ↔ k ≤ empty.count - 6 := by
  have bound : empty.start.toNat + empty.count < 2 ^ 64 := by
    have := empty.stop.isLt
    unfold SlotRegion.count at *
    omega
  rw [busyboxSlots_eq room]
  constructor
  · intro distinct
    by_contra many
    -- Once the slots of the second filling are used up, the next one is the last of the region.
    obtain ⟨rest,isRest⟩ : ∃ rest, (List.range' (empty.start.toNat + 6) (empty.count - 6) ++
        (List.range' empty.start.toNat empty.count).reverse).take k =
        List.range' (empty.start.toNat + 6) (empty.count - 6) ++ (empty.start.toNat + (empty.count - 1)) :: rest := by
      obtain ⟨j,isK⟩ : ∃ j, k = (empty.count - 6) + (j + 1) := ⟨k - (empty.count - 6) - 1,by omega⟩
      obtain ⟨n,isCount⟩ : ∃ n, empty.count = n + 1 := ⟨empty.count - 1,by omega⟩
      refine ⟨(List.range' empty.start.toNat n).reverse.take j,?_⟩
      rw [isK,List.take_append,List.take_of_length_le (by simp),List.length_range',
        show empty.count - 6 + (j + 1) - (empty.count - 6) = j + 1 by omega,isCount,List.range'_concat,List.reverse_append,
        List.reverse_singleton,List.singleton_append,List.take_succ_cons,Nat.one_mul,Nat.add_sub_cancel]
    rw [isRest] at distinct
    obtain ⟨nodup,fresh⟩ := distinct
    have last : BitVec.ofNat 64 (empty.start.toNat + (empty.count - 1)) ∈ named (List.range' (empty.start.toNat + 6)
        (empty.count - 6) ++ (empty.start.toNat + (empty.count - 1)) :: rest) := List.mem_map_of_mem (by simp)
    rcases Nat.eq_or_lt_of_le room with six | more
    · refine fresh _ last (List.mem_map_of_mem ?_)
      rw [List.mem_range'_1]
      omega
    · rw [named,List.map_append,List.map_cons,List.nodup_append] at nodup
      refine nodup.2.2 _ (List.mem_map_of_mem ?_) _ List.mem_cons_self rfl
      rw [List.mem_range'_1]
      omega
  · intro few
    have front : (List.range' (empty.start.toNat + 6) (empty.count - 6) ++
        (List.range' empty.start.toNat empty.count).reverse).take k = List.range' (empty.start.toNat + 6) k := by
      rw [List.take_append_of_le_length (by simpa using few),List.take_range'_of_length_ge few]
    rw [front]
    constructor
    · refine (named_nodup_iff ?_).mpr List.nodup_range'
      intro n member
      rw [List.mem_range'_1] at member
      omega
    · intro slot member six
      obtain ⟨i,inFront,rfl⟩ := List.mem_map.mp member
      obtain ⟨j,inSix,same⟩ := List.mem_map.mp six
      rw [List.mem_range'_1] at inFront inSix
      rw [ofNat_inj (by omega) (by omega)] at same
      omega

/-- A region of eight slots and two calls. -/
theorem slots_distinct_eight : 6 ≤ SlotRegion.count ⟨100,108⟩ ∧
    (NoneTwice (busyboxSlots ⟨100,108⟩ 2) ↔ 2 ≤ SlotRegion.count ⟨100,108⟩ - 6) :=
  ⟨by decide,slots_distinct_iff ⟨100,108⟩ (by decide) 2⟩

/-- A region of eight slots and three calls: the last slot comes twice. -/
theorem slot_twice : (busyboxSlots ⟨100,108⟩ 3).1 = [106,107,107] ∧ ¬ NoneTwice (busyboxSlots ⟨100,108⟩ 3) :=
  ⟨by decide,by unfold NoneTwice; decide⟩

end Sel4Linux.Slots
