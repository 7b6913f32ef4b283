import Sel4Linux.Bytes
import Sel4Linux.Runs

/-!
The allocators of the programs (`BumpAllocator` in `root-task`, `lcl`, `ext4-srv`,
`blk-task` and `lwext4-task`). An offset into a static array goes up with every
allocation and never down. In every run the regions lie in the array, apart from
each other, and a failure changes nothing. What is rounded up to the alignment is the
offset, not the address; so the pointers are aligned exactly when the array happens
to lie at a multiple of every alignment that is served (`allocator_contract_iff`).
-/
namespace Sel4Linux.BumpAlloc
open Sel4Linux.Bytes Sel4Linux.Runs
set_option linter.unusedSimpArgs false

/-- `Layout`: the alignment is a power of two, and the size rounded up to it is an `isize`. -/
structure Layout where
  size : Word
  align : Word
  power : ∃ k, align.toNat = 2 ^ k
  rounds : (size.toNat + (align.toNat - 1)) / align.toNat * align.toNat < 2 ^ 63

/-- The place of the array. It is not at address 0, and the address behind it is a word. -/
structure Heap (size : Word) where
  base : Word
  nonNull : base ≠ 0
  inMemory : base.toNat + size.toNat < 2 ^ 64

/-- `alloc`: the pointer, or 0, and the offset afterwards. -/
def alloc {size : Word} (heap : Heap size) (offset : Word) (layout : Layout) : Word × Word :=
  let aligned := (offset + layout.align - 1) &&& ~~~(layout.align - 1)
  let newOffset := aligned + layout.size
  if size < newOffset then (0,offset) else (heap.base + aligned,newOffset)

inductive Program where
  | rootTask
  | lcl
  | ext4Srv
  | blkTask
  | lwext4Task

/-- HEAP_SIZE of each program. -/
def Program.heapSize : Program → Word
  | .rootTask => 0x100000
  | .lcl => 4 * 1024 * 1024
  | .ext4Srv => 1024 * 1024
  | .blkTask => 128 * 1024
  | .lwext4Task => 128 * 1024

/-! ## Runs, with the regions -/

/-- A region that has been allocated. -/
structure Block where
  start : Nat
  length : Nat
  deriving DecidableEq, Repr

def allocStep {size : Word} (heap : Heap size) (offset : Word) (layout : Layout) : Except Empty (Word × Word) :=
  .ok (alloc heap offset layout)

def noteBlock (_ : Word) (layout : Layout) (ptr : Word) (_ : Word) (blocks : List Block) : List Block :=
  if ptr = 0 then blocks else { start := ptr.toNat, length := layout.size.toNat } :: blocks

/-- A call, with the regions before it. -/
def allocRound {size : Word} (heap : Heap size) : Word × List Block → Layout → Except Empty (Word × (Word × List Block)) :=
  recorded (allocStep heap) noteBlock

def Apart (a b : Block) : Prop := a.start + a.length ≤ b.start ∨ b.start + b.length ≤ a.start

/-- The region is in the array and apart from all before; a failure changes nothing. -/
structure Placed {size : Word} (heap : Heap size) (s : Word × List Block) (layout : Layout) (ptr : Word) (t : Word × List Block) :
    Prop where
  inside : ptr ≠ 0 → heap.base.toNat ≤ ptr.toNat ∧ ptr.toNat + layout.size.toNat ≤ heap.base.toNat + size.toNat
  apart : ptr ≠ 0 → ∀ b ∈ s.2, Apart b { start := ptr.toNat, length := layout.size.toNat }
  unchanged : ptr = 0 → t = s

/-- What `GlobalAlloc` promises. -/
structure Contract {size : Word} (heap : Heap size) (s : Word × List Block) (layout : Layout) (ptr : Word) (t : Word × List Block) :
    Prop extends Placed heap s layout ptr t where
  aligned : ptr ≠ 0 → ptr.toNat % layout.align.toNat = 0

/-- The offset of the next region. -/
def roundUp (offset align : Nat) : Nat := (offset + (align - 1)) / align * align

/-- There is room for one more. -/
def Fits (size offset : Word) (layout : Layout) : Prop :=
  roundUp offset.toNat layout.align.toNat + layout.size.toNat ≤ size.toNat

/-- Where there is room, the array lies at a multiple of the alignment. -/
def BaseAligned {size : Word} (heap : Heap size) (s : Word × List Block) (layout : Layout) : Prop :=
  Fits size s.1 layout → layout.align.toNat ∣ heap.base.toNat

/-! ## One allocation -/

theorem Layout.positive (layout : Layout) : 0 < layout.align.toNat := by
  obtain ⟨k,power⟩ := layout.power
  rw [power]
  exact Nat.two_pow_pos k

theorem Layout.alignment (layout : Layout) : ∃ k, k ≤ 63 ∧ layout.align.toNat = 2 ^ k := by
  obtain ⟨k,power⟩ := layout.power
  have bound := layout.align.isLt
  rw [power] at bound
  exact ⟨k,Nat.le_of_lt_succ ((Nat.pow_lt_pow_iff_right Nat.one_lt_two).mp bound),power⟩

theorem le_roundUp (offset : Nat) {align : Nat} (positive : 0 < align) : offset ≤ roundUp offset align := by
  have split := Nat.div_add_mod (offset + (align - 1)) align
  have rest := Nat.mod_lt (offset + (align - 1)) positive
  rw [Nat.mul_comm] at split
  rw [roundUp]
  omega

/-- Both halves of the words are enough for a size and its alignment. -/
theorem Layout.bounded (layout : Layout) : layout.size.toNat + layout.align.toNat ≤ 2 ^ 63 := by
  obtain ⟨k,small,power⟩ := layout.alignment
  have rounds : roundUp layout.size.toNat layout.align.toNat < 2 ^ 63 := layout.rounds
  have more := le_roundUp layout.size.toNat layout.positive
  have divides : layout.align.toNat ∣ 2 ^ 63 - roundUp layout.size.toNat layout.align.toNat :=
    Nat.dvd_sub (by rw [power]; exact Nat.pow_dvd_pow 2 small) (Nat.dvd_mul_left _ _)
  have := Nat.le_of_dvd (by omega) divides
  omega

section
variable {size : Word} (small : size.toNat < 2 ^ 63) {heap : Heap size} {offset : Word} {layout : Layout}

include small in
/-- The offset rounded up is a word. -/
theorem toNat_aligned (within : offset.toNat ≤ size.toNat) :
    ((offset + layout.align - 1) &&& ~~~(layout.align - 1)).toNat = roundUp offset.toNat layout.align.toNat := by
  obtain ⟨k,_,power⟩ := layout.alignment
  have positive := layout.positive
  have bounded := layout.bounded
  have one : (1 : Word).toNat = 1 := rfl
  have least : (1 : Word) ≤ layout.align := positive
  have mask : (layout.align - 1).toNat = 2 ^ k - 1 := by rw [BitVec.toNat_sub_of_le least,one,power]
  have sum : (offset + layout.align).toNat = offset.toNat + layout.align.toNat := BitVec.toNat_add_of_lt (by omega)
  have last : (offset + layout.align - 1).toNat = offset.toNat + (layout.align.toNat - 1) := by
    rw [BitVec.toNat_sub_of_le (by rw [BitVec.le_def,sum,one]; omega),sum,one]
    omega
  rw [toNat_and_not_low _ mask,last,roundUp,← power]
  have split := Nat.div_add_mod (offset.toNat + (layout.align.toNat - 1)) layout.align.toNat
  rw [Nat.mul_comm] at split
  omega

include small in
theorem toNat_newOffset (within : offset.toNat ≤ size.toNat) :
    (((offset + layout.align - 1) &&& ~~~(layout.align - 1)) + layout.size).toNat =
      roundUp offset.toNat layout.align.toNat + layout.size.toNat := by
  have aligned := @toNat_aligned size small offset layout within
  have bounded := layout.bounded
  have positive := layout.positive
  have below : roundUp offset.toNat layout.align.toNat ≤ offset.toNat + (layout.align.toNat - 1) := Nat.div_mul_le_self _ _
  rw [BitVec.toNat_add_of_lt (by rw [aligned]; omega),aligned]

include small in
/-- With room, the region is at the offset rounded up, and the offset behind it. -/
theorem alloc_fits (within : offset.toNat ≤ size.toNat) (fits : Fits size offset layout) : ∃ ptr next,
    alloc heap offset layout = (ptr,next) ∧ ptr ≠ 0 ∧ ptr.toNat = heap.base.toNat + roundUp offset.toNat layout.align.toNat ∧
      next.toNat = roundUp offset.toNat layout.align.toNat + layout.size.toNat := by
  have aligned := @toNat_aligned size small offset layout within
  have next := @toNat_newOffset size small offset layout within
  have room : roundUp offset.toNat layout.align.toNat + layout.size.toNat ≤ size.toNat := fits
  have inMemory := heap.inMemory
  have ptr : (heap.base + ((offset + layout.align - 1) &&& ~~~(layout.align - 1))).toNat =
      heap.base.toNat + roundUp offset.toNat layout.align.toNat := by
    rw [BitVec.toNat_add_of_lt (by rw [aligned]; omega),aligned]
  have notPast : ¬ size < ((offset + layout.align - 1) &&& ~~~(layout.align - 1)) + layout.size := by
    rw [BitVec.lt_def,next]
    omega
  refine ⟨_,_,if_neg notPast,fun null => ?_,ptr,next⟩
  have base : 0 < heap.base.toNat := Nat.pos_of_ne_zero fun zero => heap.nonNull (BitVec.eq_of_toNat_eq zero)
  have zero := congrArg BitVec.toNat null
  rw [ptr] at zero
  have none : (0 : Word).toNat = 0 := rfl
  omega

include small in
theorem alloc_full (within : offset.toNat ≤ size.toNat) (full : ¬ Fits size offset layout) :
    alloc heap offset layout = (0,offset) := by
  have next := @toNat_newOffset size small offset layout within
  refine if_pos ?_
  rw [BitVec.lt_def,next]
  exact Nat.lt_of_not_le full

/-! ## Every run -/

/-- The regions lie in the part of the array that the offset has passed. -/
structure Passed (heap : Heap size) (s : Word × List Block) : Prop where
  within : s.1.toNat ≤ size.toNat
  below : ∀ b ∈ s.2, heap.base.toNat ≤ b.start ∧ b.start + b.length ≤ heap.base.toNat + s.1.toNat

variable {s : Word × List Block}

include small in
/-- An allocation puts its region behind the others. Its pointer is aligned just where the array is. -/
theorem Passed.round (passed : Passed heap s) (layout : Layout) : ∃ ptr t, allocRound heap s layout = .ok (ptr,t) ∧
    Placed heap s layout ptr t ∧ Passed heap t ∧
      ((ptr ≠ 0 → ptr.toNat % layout.align.toNat = 0) ↔ BaseAligned heap s layout) := by
  obtain ⟨offset,blocks⟩ := s
  obtain ⟨within,below⟩ := passed
  by_cases fits : Fits size offset layout
  · obtain ⟨ptr,next,given,some',place,last⟩ := @alloc_fits size small heap offset layout within fits
    have higher := le_roundUp offset.toNat layout.positive
    have room : roundUp offset.toNat layout.align.toNat + layout.size.toNat ≤ size.toNat := fits
    have noted : noteBlock offset layout ptr next blocks =
        { start := ptr.toNat, length := layout.size.toNat } :: blocks := if_neg some'
    refine ⟨ptr,(next,{ start := ptr.toNat, length := layout.size.toNat } :: blocks),?_,
      ⟨fun _ => ?_,fun _ b member => ?_,fun null => ?_⟩,
      ⟨?_,fun b member => ?_⟩,?_⟩
    · exact recorded_ok_iff.mpr ⟨congrArg Except.ok given,noted.symm⟩
    · rw [place]
      omega
    · have bounds := below b member
      simp only [Apart,place] at bounds ⊢
      omega
    · exact absurd null some'
    · simp only [last]
      exact room
    · simp only [last]
      rcases List.mem_cons.mp member with rfl | old
      · simp only [place]
        omega
      · have bounds := below b old
        simp only at bounds
        omega
    · have multiple : layout.align.toNat ∣ roundUp offset.toNat layout.align.toNat := Nat.dvd_mul_left _ _
      rw [BaseAligned,place,← Nat.dvd_iff_mod_eq_zero,Nat.dvd_add_left multiple]
      exact ⟨fun aligned _ => aligned some',fun aligned _ => aligned fits⟩
  · have given := @alloc_full size small heap offset layout within fits
    refine ⟨0,(offset,blocks),recorded_ok_iff.mpr ⟨congrArg Except.ok given,rfl⟩,⟨?_,?_,fun _ => rfl⟩,⟨within,below⟩,?_⟩
    · intro some'
      exact absurd rfl some'
    · intro some'
      exact absurd rfl some'
    · refine ⟨fun _ room => absurd room fits,fun _ some' => absurd rfl some'⟩

theorem start_passed : Passed heap (0,[]) := ⟨Nat.zero_le _,fun _ member => absurd member List.not_mem_nil⟩

end

theorem Program.heapSize_small (p : Program) : p.heapSize.toNat < 2 ^ 63 := by
  cases p <;> decide

/-- For each of the programs, every place of its array and every sequence of layouts: the regions that are returned lie in the
    array and apart from each other, and a failure changes nothing. The pointers are all aligned, as the contract asks, just in
    the runs where the array lies at a multiple of each alignment for which there is room. -/
theorem allocator_contract_iff (p : Program) (heap : Heap p.heapSize) (layouts : List Layout) :
    Each (allocRound heap) (Placed heap) (0,[]) layouts ∧
      (Each (allocRound heap) (Contract heap) (0,[]) layouts ↔ Meets (allocRound heap) (BaseAligned heap) (0,[]) layouts) := by
  constructor
  · refine each_of_step (I := Passed heap) (fun s layout passed => ?_) start_passed
    obtain ⟨ptr,t,ran,placed,next,_⟩ := passed.round p.heapSize_small layout
    exact ⟨ptr,t,ran,placed,next⟩
  · refine each_iff_meets (I := Passed heap) (fun s layout ptr t passed ran => ?_) (fun s layout passed => ?_) start_passed
    · obtain ⟨ptr',t',ran',_,next,_⟩ := passed.round p.heapSize_small layout
      rw [ran] at ran'
      cases ran'
      exact next
    · obtain ⟨ptr,t,ran,placed,_,exact'⟩ := passed.round p.heapSize_small layout
      rw [← exact']
      constructor
      · rintro ⟨ptr',t',ran',contract⟩
        rw [ran] at ran'
        cases ran'
        exact contract.aligned
      · intro aligned
        exact ⟨ptr,t,ran,placed,aligned⟩

/-- The array of `lcl` at an address that is a multiple of 16. -/
def sixteenAligned : Heap Program.lcl.heapSize where
  base := 0x400010
  nonNull := by simp
  inMemory := by decide

/-- 64 bytes, aligned to 64. -/
def cacheLine : Layout where
  size := 64
  align := 64
  power := ⟨6,rfl⟩
  rounds := by decide

/-- The region is at the beginning of the array, which is no multiple of 64. -/
theorem allocator_not_aligned : alloc sixteenAligned 0 cacheLine = (0x400010,64) ∧
    ¬ ∀ (p : Program) (heap : Heap p.heapSize) (layouts : List Layout), Each (allocRound heap) (Contract heap) (0,[]) layouts := by
  have given : alloc sixteenAligned 0 cacheLine = (0x400010,64) := by decide
  refine ⟨given,fun always => ?_⟩
  obtain ⟨ptr,t,ran,contract,_⟩ := always .lcl sixteenAligned [cacheLine]
  have first := (recorded_ok_iff.mp ran).1
  rw [allocStep,given] at first
  have isPtr : 0x400010 = ptr := congrArg Prod.fst (Except.ok.inj first)
  subst isPtr
  have aligned := contract.aligned (by simp)
  simp [cacheLine] at aligned

end Sel4Linux.BumpAlloc
