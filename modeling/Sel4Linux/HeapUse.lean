import Sel4Linux.BumpAlloc
import Sel4Linux.Ipc
import Sel4Linux.Utf8

/-!
What the collections of a program take from its heap. The programs' allocators
never give a block back, so blocks add up over a program's whole life, also those
of vectors and strings that have been dropped since (`Heap`, `Heap.take`). A
vector that is full gets a block of twice the size beside the old one
(`growth`, `TableHeap.hold`).
-/
namespace Sel4Linux.HeapUse
open Sel4Linux.Bytes Sel4Linux.Utf8 Sel4Linux.Ipc Sel4Linux.BumpAlloc Sel4Linux.Runs
set_option linter.unusedSimpArgs false

/-- How much of a heap of `size` bytes has been handed out. -/
structure Heap (size : Nat) where
  offset : Nat
  within : offset ≤ size
  deriving DecidableEq

/-- A block that a collection asks for. -/
structure Ask where
  size : Nat
  align : Nat
  deriving DecidableEq

/-- Room for bytes. -/
def bytes (n : Nat) : Ask := { size := n, align := 1 }

variable {size : Nat}

/-- What is left for bytes. -/
def Heap.left (h : Heap size) : Nat := size - h.offset

/-- A collection without elements asks for nothing. Where a block cannot be had the program stops. -/
def Heap.take (h : Heap size) (ask : Ask) : Except Fault (Heap size) :=
  if ask.size = 0 then .ok h
  else if room : roundUp h.offset ask.align + ask.size ≤ size then
    .ok { offset := roundUp h.offset ask.align + ask.size, within := room }
  else .error .outOfMemory

def Heap.takeAll (h : Heap size) : List Ask → Except Fault (Heap size)
  | [] => .ok h
  | ask :: rest => do
    let h ← h.take ask
    h.takeAll rest

/-! ## Vectors -/

/-- `min_non_zero_cap`: the least capacity of a vector of bytes, and of one of larger elements up to 1024 bytes each. -/
def LEAST_BYTES : Nat := 8
def LEAST_ENTRIES : Nat := 4

/-- The capacity of a full vector once one more element has been pushed (`grow_amortized`). -/
def grown (least capacity : Nat) : Nat := max (2 * capacity) least

/-- The capacities that a vector goes through until it has room for `len` elements, in `fuel` steps at most. -/
def capacities (least : Nat) : Nat → Nat → Nat → List Nat
  | 0,_,_ => []
  | fuel + 1,capacity,len =>
    if len ≤ capacity then [] else grown least capacity :: capacities least fuel (grown least capacity) len

/-- The blocks of a vector of bytes while it grows. -/
def growth (capacity len : Nat) : List Ask := (capacities LEAST_BYTES len capacity len).map bytes

/-- `from_utf8_lossy` and `into_owned`: a block as long as the bytes, which has to grow where the replacements make the
    text longer. A piece that is appended never needs more than twice the capacity, or 8. -/
def lossyAsks (data : List Byte) : List Ask := bytes data.length :: growth data.length (lossy data).length

/-- A heap, with the capacity of one vector of entries in it, whose block is one of those handed out. -/
structure TableHeap (size entrySize : Nat) extends Heap size where
  capacity : Nat
  paid : capacity * entrySize ≤ size
  deriving DecidableEq

variable {entrySize : Nat}

/-- The program has used nothing yet. -/
def TableHeap.unused (size entrySize : Nat) : TableHeap size entrySize :=
  { offset := 0, within := Nat.zero_le _, capacity := 0, paid := by rw [Nat.zero_mul]; exact Nat.zero_le _ }

/-- The vector as it is, and the heap as other blocks leave it. -/
def TableHeap.beside (h : TableHeap size entrySize) (heap : Heap size) : TableHeap size entrySize :=
  { toHeap := heap, capacity := h.capacity, paid := h.paid }

def TableHeap.takes (h : TableHeap size entrySize) (asks : List Ask) : Except Fault (TableHeap size entrySize) := do
  let heap ← h.toHeap.takeAll asks
  .ok (h.beside heap)

/-- A push onto the full vector: a block for the entries, with those of words in them. -/
def TableHeap.grow (h : TableHeap size entrySize) : Except Fault (TableHeap size entrySize) :=
  let block := grown LEAST_ENTRIES h.capacity * entrySize
  if room : roundUp h.offset 8 + block ≤ size then
    .ok { offset := roundUp h.offset 8 + block, within := room, capacity := grown LEAST_ENTRIES h.capacity,
          paid := Nat.le_trans (Nat.le_add_left _ _) room }
  else .error .outOfMemory

/-- Pushes until the vector has `len` entries, growing `fuel` times at most. -/
def TableHeap.hold (h : TableHeap size entrySize) : Nat → Nat → Except Fault (TableHeap size entrySize)
  | 0,_ => .ok h
  | fuel + 1,len =>
    if len ≤ h.capacity then .ok h
    else do
      let h ← h.grow
      h.hold fuel len

/-- `spin::Lazy`: what owns the vector is made when it is first used, with three entries. Making it takes what
    `making` says before that. -/
def TableHeap.force (making : Heap size → Heap size) (h : TableHeap size entrySize) : Except Fault (TableHeap size entrySize) :=
  if h.capacity = 0 then (h.beside (making h.toHeap)).hold 3 3 else .ok h

/-! ## What can be had -/

section
variable {h k : Heap size}

theorem take_bytes (h : Heap size) (n : Nat) :
    h.take (bytes n) =
      if room : h.offset + n ≤ size then .ok { offset := h.offset + n, within := room } else .error .outOfMemory := by
  have same : roundUp h.offset 1 = h.offset := by simp [roundUp]
  unfold Heap.take bytes
  by_cases none' : n = 0
  · subst none'
    simp [h.within]
  · simp [none',same]

/-- Bytes can be had as long as some are left for them. -/
theorem take_bytes_iff {n : Nat} : (∃ k, h.take (bytes n) = .ok k) ↔ n ≤ h.left := by
  have within := h.within
  rw [take_bytes,Heap.left]
  constructor
  · rintro ⟨k,taken⟩
    split at taken
    · omega
    · cases taken
  · intro room
    rw [dif_pos (show h.offset + n ≤ size by omega)]
    exact ⟨_,rfl⟩

theorem takeAll_one (h : Heap size) (ask : Ask) : h.takeAll [ask] = h.take ask := by
  unfold Heap.takeAll
  cases h.take ask <;> rfl

theorem takeAll_cons_iff {ask : Ask} {rest : List Ask} :
    h.takeAll (ask :: rest) = .ok k ↔ ∃ u, h.take ask = .ok u ∧ u.takeAll rest = .ok k := by
  rw [Heap.takeAll,bind_ok_iff]

theorem take_bytes_le {n : Nat} (taken : h.take (bytes n) = .ok k) : n ≤ size :=
  Nat.le_trans (take_bytes_iff.mp ⟨k,taken⟩) (Nat.sub_le _ _)

theorem take_bytes_left {n : Nat} (taken : h.take (bytes n) = .ok k) : h.left = n + k.left := by
  have within := h.within
  rw [take_bytes] at taken
  split at taken
  · cases taken
    unfold Heap.left
    dsimp only
    omega
  · cases taken

/-- A vector of bytes that could grow is no longer than the heap. -/
theorem growth_le {fuel capacity len : Nat} (enough : len ≤ capacity + fuel) (fits : capacity ≤ size)
    (taken : h.takeAll ((capacities LEAST_BYTES fuel capacity len).map bytes) = .ok k) : len ≤ size := by
  induction fuel generalizing h capacity with
  | zero => omega
  | succ fuel ih =>
    unfold capacities at taken
    split at taken
    · omega
    · obtain ⟨u,first,later⟩ := takeAll_cons_iff.mp taken
      have larger : capacity < grown LEAST_BYTES capacity := by
        unfold grown LEAST_BYTES
        omega
      exact ih (by omega) (take_bytes_le first) later

end

section
variable {h k : TableHeap size entrySize}

theorem takes_ok_iff {asks : List Ask} : h.takes asks = .ok k ↔ ∃ heap, h.toHeap.takeAll asks = .ok heap ∧ k = h.beside heap := by
  simp only [TableHeap.takes,bind_ok_iff,Except.ok.injEq]
  exact ⟨fun ⟨heap,taken,same⟩ => ⟨heap,taken,same.symm⟩,fun ⟨heap,taken,same⟩ => ⟨heap,taken,same.symm⟩⟩

theorem takes_capacity {asks : List Ask} (taken : h.takes asks = .ok k) : k.capacity = h.capacity := by
  obtain ⟨heap,_,rfl⟩ := takes_ok_iff.mp taken
  rfl

theorem takes_bytes_iff {n : Nat} : (∃ k, h.takes [bytes n] = .ok k) ↔ n ≤ h.left := by
  rw [← take_bytes_iff]
  constructor
  · rintro ⟨k,taken⟩
    obtain ⟨heap,one,_⟩ := takes_ok_iff.mp taken
    rw [takeAll_one] at one
    exact ⟨heap,one⟩
  · rintro ⟨heap,one⟩
    exact ⟨_,takes_ok_iff.mpr ⟨heap,by rw [takeAll_one]; exact one,rfl⟩⟩

theorem takes_bytes_left {n : Nat} (taken : h.takes [bytes n] = .ok k) : h.left = n + k.left := by
  obtain ⟨heap,one,rfl⟩ := takes_ok_iff.mp taken
  rw [takeAll_one] at one
  exact take_bytes_left one

theorem grow_capacity (grew : h.grow = .ok k) : k.capacity = grown LEAST_ENTRIES h.capacity := by
  unfold TableHeap.grow at grew
  dsimp only at grew
  split at grew
  · cases grew
    rfl
  · cases grew

theorem lt_grown (capacity : Nat) : capacity < grown LEAST_ENTRIES capacity := by
  unfold grown LEAST_ENTRIES
  omega

/-- A vector keeps its block or gets a larger one, and has room for its entries in the end. -/
theorem hold_capacity {fuel len : Nat} (held : h.hold fuel len = .ok k) (enough : len ≤ h.capacity + fuel) :
    h.capacity ≤ k.capacity ∧ len ≤ k.capacity := by
  induction fuel generalizing h with
  | zero =>
    cases held
    exact ⟨Nat.le_refl _,enough⟩
  | succ fuel ih =>
    unfold TableHeap.hold at held
    split at held
    · next fits =>
      cases held
      exact ⟨Nat.le_refl _,fits⟩
    · obtain ⟨u,grew,later⟩ := bind_ok_iff.mp held
      have more := grow_capacity grew
      have larger := lt_grown h.capacity
      obtain ⟨least,fits⟩ := ih later (by omega)
      exact ⟨by omega,fits⟩

/-- A new entry at the end of the vector, with the blocks in it. -/
theorem push_capacity {len : Nat} {asks : List Ask} (used : (h.hold len len >>= fun u => u.takes asks) = .ok k) :
    h.capacity ≤ k.capacity ∧ len ≤ k.capacity := by
  obtain ⟨u,held,taken⟩ := bind_ok_iff.mp used
  rw [takes_capacity taken]
  exact hold_capacity held (Nat.le_add_left _ _)

/-- What is used lazily is there afterwards. -/
theorem force_capacity {making : Heap size → Heap size} (forced : h.force making = .ok k) :
    h.capacity ≤ k.capacity ∧ k.capacity ≠ 0 := by
  unfold TableHeap.force at forced
  split at forced
  · next new =>
    obtain ⟨_,three⟩ := hold_capacity forced (Nat.le_add_left 3 _)
    omega
  · next made =>
    cases forced
    exact ⟨Nat.le_refl _,made⟩

theorem force_made {making : Heap size → Heap size} (made : h.capacity ≠ 0) : h.force making = .ok h := if_neg made

end

/-! ## Where nothing can be had -/

/-- The one reason for which a heap stops a program. -/
def Full (e : Fault) : Prop := e = .outOfMemory

theorem blames_take (h : Heap size) (ask : Ask) : Blames (h.take ask) Full := by
  unfold Heap.take
  split
  · exact blames_ok
  · split
    · exact blames_ok
    · exact blames_error rfl

theorem blames_takeAll (h : Heap size) (asks : List Ask) : Blames (h.takeAll asks) Full := by
  induction asks generalizing h with
  | nil => exact blames_ok
  | cons ask rest ih => exact blames_bind (blames_take h ask) fun u _ => ih u

section
variable (h : TableHeap size entrySize)

theorem blames_takes (asks : List Ask) : Blames (h.takes asks) Full :=
  blames_bind (blames_takeAll h.toHeap asks) fun _ _ => blames_ok

theorem blames_grow : Blames h.grow Full := by
  unfold TableHeap.grow
  dsimp only
  split
  · exact blames_ok
  · exact blames_error rfl

theorem blames_hold (fuel len : Nat) : Blames (h.hold fuel len) Full := by
  induction fuel generalizing h with
  | zero => exact blames_ok
  | succ fuel ih =>
    unfold TableHeap.hold
    split
    · exact blames_ok
    · exact blames_bind (blames_grow h) fun u _ => ih u

theorem blames_force (making : Heap size → Heap size) : Blames (h.force making) Full := by
  unfold TableHeap.force
  split
  · exact blames_hold _ _ _
  · exact blames_ok

end

/-! ## The allocators -/

/-- A block can be had from a heap exactly when the allocator gives a pointer to it, and moves its offset in the same way. -/
theorem take_alloc {size : Word} (small : size.toNat < 2 ^ 63) (place : BumpAlloc.Heap size) {h k : Heap size.toNat} {offset : Word}
    (same : offset.toNat = h.offset) {layout : Layout} (some' : layout.size ≠ 0) :
    h.take { size := layout.size.toNat, align := layout.align.toNat } = .ok k ↔
      ∃ ptr next, alloc place offset layout = (ptr,next) ∧ ptr ≠ 0 ∧ next.toNat = k.offset := by
  have within : offset.toNat ≤ size.toNat := by
    rw [same]
    exact h.within
  have notZero : layout.size.toNat ≠ 0 := fun zero => some' (BitVec.eq_of_toNat_eq zero)
  unfold Heap.take
  rw [if_neg notZero]
  by_cases fits : Fits size offset layout
  · obtain ⟨ptr,next,given,there,_,last⟩ := @alloc_fits size small place offset layout within fits
    rw [same] at last
    have room : roundUp h.offset layout.align.toNat + layout.size.toNat ≤ size.toNat := by
      rw [← same]
      exact fits
    rw [dif_pos room]
    constructor
    · intro taken
      cases taken
      exact ⟨ptr,next,given,there,last⟩
    · rintro ⟨ptr',next',given',_,isNext⟩
      rw [given] at given'
      cases given'
      obtain ⟨offset',within'⟩ := k
      have equal : roundUp h.offset layout.align.toNat + layout.size.toNat = offset' := last.symm.trans isNext
      subst equal
      rfl
  · have full := @alloc_full size small place offset layout within fits
    rw [dif_neg (fun room => fits (by rw [← same] at room; exact room))]
    constructor
    · intro wrong
      cases wrong
    · rintro ⟨ptr,next,given,there,_⟩
      rw [full] at given
      cases given
      exact absurd rfl there

end Sel4Linux.HeapUse
