import Sel4Linux.Bytes

/-!
The IPC buffer of a thread (`crates/sel4-sys/src/ipc_buffer.rs`) and what the
kernel's message transfer does with it: the registers that the sender's message
info announces are copied, the receiver's other registers keep what they held.
Byte strings travel in consecutive registers, eight bytes each (`packMrs`,
`unpackMrs`); the client and the file service both use this packing.
-/
namespace Sel4Linux.Ipc
open Sel4Linux.Bytes
set_option linter.unusedSimpArgs false

/-- Message registers in the buffer. -/
def IPC_BUFFER_MSG_REGS : Nat := 120

/-- The IPC buffer without its padding. -/
structure IpcBuffer where
  tag : Word
  msg : Vector Word IPC_BUFFER_MSG_REGS
  userData : Word
  capsOrBadges : Vector Word 3
  receiveCnode : Word
  receiveIndex : Word
  receiveDepth : Word
  deriving DecidableEq

def IpcBuffer.new : IpcBuffer :=
  { tag := 0, msg := Vector.replicate _ 0, userData := 0, capsOrBadges := Vector.replicate _ 0, receiveCnode := 0,
    receiveIndex := 0, receiveDepth := 0 }

/-- `read_mr`: registers past the end read as 0. -/
def IpcBuffer.readMr (ib : IpcBuffer) (idx : Nat) : Word :=
  if inside : idx < IPC_BUFFER_MSG_REGS then ib.msg[idx] else 0

/-- `write_mr`: writes past the end are dropped. -/
def IpcBuffer.writeMr (ib : IpcBuffer) (idx : Nat) (val : Word) : IpcBuffer :=
  if inside : idx < IPC_BUFFER_MSG_REGS then { ib with msg := ib.msg.set idx val } else ib

/-- The words of the buffer in memory. -/
def IpcBuffer.words (ib : IpcBuffer) : List Word :=
  ib.tag :: ib.msg.toList ++ ib.userData :: ib.capsOrBadges.toList ++ [ib.receiveCnode,ib.receiveIndex,ib.receiveDepth]

/-- The word at a byte offset from the start of the buffer. -/
def IpcBuffer.wordAt (ib : IpcBuffer) (offset : Nat) : Option Word := if offset % 8 = 0 then ib.words[offset / 8]? else none

/-- `write_volatile` of a word at a byte offset from the start of the buffer. -/
def IpcBuffer.store (ib : IpcBuffer) (offset : Nat) (val : Word) : IpcBuffer :=
  if offset = 0 then { ib with tag := val }
  else if offset < 968 then ib.writeMr ((offset - 8) / 8) val
  else if offset = 968 then { ib with userData := val }
  else if offset < 1000 then { ib with capsOrBadges := ib.capsOrBadges.setIfInBounds ((offset - 976) / 8) val }
  else if offset = 1000 then { ib with receiveCnode := val }
  else if offset = 1008 then { ib with receiveIndex := val }
  else if offset = 1016 then { ib with receiveDepth := val }
  else ib

/-- The length field of a message info word. -/
def infoLength (info : Word) : Nat := (info &&& 0x7F#64).toNat

/-- The label field of a message info word. -/
def infoLabel (info : Word) : BitVec 32 := (info >>> 12).setWidth 32

/-- The number of extra capabilities in a message info word. -/
def infoExtraCaps (info : Word) : Nat := ((info >>> 7) &&& 0x1F#64).toNat

/-- The message transfer: `info` announces how many registers of `sender` reach `receiver`,
    never more than the buffer has. -/
def transfer (info : Word) (sender receiver : IpcBuffer) : IpcBuffer :=
  { receiver with
    msg := Vector.ofFn (fun i => if i.val < infoLength info then sender.msg[i] else receiver.msg[i]) }

variable (ib : IpcBuffer)

@[simp] theorem readMr_writeMr_self {idx : Nat} (inside : idx < IPC_BUFFER_MSG_REGS) (val : Word) :
    (ib.writeMr idx val).readMr idx = val := by
  simp [IpcBuffer.readMr,IpcBuffer.writeMr,inside]

theorem readMr_writeMr_ne {idx other : Nat} (val : Word) (apart : idx ≠ other) :
    (ib.writeMr idx val).readMr other = ib.readMr other := by
  unfold IpcBuffer.readMr IpcBuffer.writeMr
  split_ifs <;> simp [Vector.getElem_set,apart]

/-- Reading after a write, in one equation for simplification. -/
theorem readMr_writeMr (idx other : Nat) (val : Word) :
    (ib.writeMr idx val).readMr other = if other = idx ∧ idx < IPC_BUFFER_MSG_REGS then val else ib.readMr other := by
  by_cases same : other = idx
  · subst same
    by_cases inside : other < IPC_BUFFER_MSG_REGS
    · simp [inside]
    · simp [inside,IpcBuffer.writeMr]
  · simp [same,readMr_writeMr_ne ib val (Ne.symm same)]

/-- A register count below 128 survives the length field. -/
theorem infoLength_ofNat {n : Nat} (small : n < 128) : infoLength (BitVec.ofNat 64 n &&& 0x7F#64) = n := by
  have mask : ∀ m : Fin 128, infoLength (BitVec.ofNat 64 m.val &&& 0x7F#64) = m.val := by decide
  exact mask ⟨n,small⟩

theorem readMr_transfer (info : Word) (sender receiver : IpcBuffer) (idx : Nat) :
    (transfer info sender receiver).readMr idx =
      if idx < infoLength info then sender.readMr idx else receiver.readMr idx := by
  unfold IpcBuffer.readMr transfer
  by_cases inside : idx < IPC_BUFFER_MSG_REGS
  · simp [inside]
  · simp [inside]

/-! ## Byte strings in registers -/

/-- Registers that a byte string of length `len` takes. -/
def mrsFor (len : Nat) : Nat := (len + 7) / 8

theorem mrsFor_le {len n : Nat} (short : len ≤ 8 * n) : mrsFor len ≤ n := by rw [mrsFor]; omega

theorem lt_mrsFor_iff {i len : Nat} : i < mrsFor len ↔ 8 * i < len := by rw [mrsFor]; omega

/-- Writes a byte string into the registers from `start` on, with the number of registers used. -/
def packMrs (ib : IpcBuffer) (data : List Byte) (start : Nat) : Nat × IpcBuffer :=
  (mrsFor data.length,
    (List.range (mrsFor data.length)).foldl (fun ib i => ib.writeMr (start + i) (packWord data i)) ib)

/-- Reads `len` bytes from the registers from `start` on. -/
def unpackMrs (ib : IpcBuffer) (start len : Nat) : List Byte :=
  (List.range (mrsFor len)).flatMap fun i =>
    (List.range 8).filterMap fun j =>
      if i * 8 + j < len then some (byteAt (ib.readMr (start + i)) j) else none

private theorem readMr_fold (data : List Byte) (start k : Nat) : ∀ n,
    ((List.range n).foldl (fun ib i => ib.writeMr (start + i) (packWord data i)) ib).readMr k =
      if start ≤ k ∧ k < start + n ∧ k < IPC_BUFFER_MSG_REGS then packWord data (k - start) else ib.readMr k := by
  intro n
  induction n with
  | zero => simp; omega
  | succ n ih =>
    rw [List.range_succ,List.foldl_append,List.foldl_cons,List.foldl_nil,readMr_writeMr,ih]
    by_cases here : k = start + n
    · subst here
      by_cases inside : start + n < IPC_BUFFER_MSG_REGS
      · simp [inside]
      · simp [inside]
    · have same : (start ≤ k ∧ k < start + (n + 1) ∧ k < IPC_BUFFER_MSG_REGS) ↔
          (start ≤ k ∧ k < start + n ∧ k < IPC_BUFFER_MSG_REGS) := by omega
      simp [here,same]

theorem readMr_packMrs (data : List Byte) (start k : Nat) :
    (packMrs ib data start).2.readMr k =
      if start ≤ k ∧ k < start + mrsFor data.length ∧ k < IPC_BUFFER_MSG_REGS then packWord data (k - start)
      else ib.readMr k :=
  readMr_fold ib data start k _

private theorem row_length (w : Word) (base len : Nat) :
    ((List.range 8).filterMap fun j => if base + j < len then some (byteAt w j) else none) =
      (List.range (min 8 (len - base))).map (byteAt w) := by
  have cut : ∀ n, ((List.range n).filterMap fun j => if base + j < len then some (byteAt w j) else none) =
      (List.range (min n (len - base))).map (byteAt w) := by
    intro n
    induction n with
    | zero => simp
    | succ n ih =>
      rw [List.range_succ,List.filterMap_append,ih]
      by_cases inside : base + n < len
      · rw [show min (n + 1) (len - base) = n + 1 by omega,show min n (len - base) = n by omega,List.range_succ]
        simp [inside]
      · rw [show min (n + 1) (len - base) = min n (len - base) by omega]
        simp [inside]
  exact cut 8

private theorem rows_upto (start len : Nat) : ∀ n,
    ((List.range n).flatMap fun i =>
      (List.range 8).filterMap fun j => if i * 8 + j < len then some (byteAt (ib.readMr (start + i)) j) else none) =
      (List.range (min (n * 8) len)).map fun k => byteAt (ib.readMr (start + k / 8)) (k % 8) := by
  intro n
  induction n with
  | zero => simp
  | succ n ih =>
    rw [List.range_succ (n := n),List.flatMap_append,ih,List.flatMap_singleton,row_length]
    by_cases inside : n * 8 ≤ len
    · rw [show min ((n + 1) * 8) len = n * 8 + min 8 (len - n * 8) by omega,show min (n * 8) len = n * 8 by omega,
        List.range_add,List.map_append,List.map_map]
      congr 1
      apply List.map_congr_left
      intro j member
      have low : j < 8 := by have := List.mem_range.mp member; omega
      simp [show (n * 8 + j) / 8 = n by omega,show (n * 8 + j) % 8 = j by omega]
    · rw [show min ((n + 1) * 8) len = min (n * 8) len by omega,show min 8 (len - n * 8) = 0 by omega]
      simp

/-- Byte `k` is byte `k % 8` of the register `k / 8` places after the first. -/
theorem unpackMrs_eq (start len : Nat) :
    unpackMrs ib start len = (List.range len).map fun k => byteAt (ib.readMr (start + k / 8)) (k % 8) := by
  rw [unpackMrs,rows_upto,show min (mrsFor len * 8) len = len by unfold mrsFor; omega]

@[simp] theorem unpackMrs_length (start len : Nat) : (unpackMrs ib start len).length = len := by
  simp [unpackMrs_eq]

theorem unpackMrs_getElem? (start len k : Nat) (inside : k < len) :
    (unpackMrs ib start len)[k]? = some (byteAt (ib.readMr (start + k / 8)) (k % 8)) := by
  simp [unpackMrs_eq,inside]

/-- Registers that hold the words of a byte string give back its first bytes. -/
theorem unpackMrs_of_words {data : List Byte} {start len : Nat} (short : len ≤ data.length)
    (words : ∀ i < mrsFor len, ib.readMr (start + i) = packWord data i) : unpackMrs ib start len = data.take len := by
  apply List.ext_getElem?
  intro k
  by_cases inside : k < len
  · have word := words (k / 8) (lt_mrsFor_iff.mpr (by omega))
    rw [unpackMrs_getElem? ib start len k inside,word,byteAt_packWord _ _ _ (Nat.mod_lt _ (by omega)),
      List.getElem?_take,if_pos inside,show k / 8 * 8 + k % 8 = k by omega]
    simp [List.getD_eq_getElem?_getD,List.getElem?_eq_getElem (show k < data.length by omega)]
  · rw [List.getElem?_eq_none_iff.mpr (by simp; omega),List.getElem?_eq_none_iff.mpr (by simp; omega)]

/-! ## What stops a program -/

/-- Why a computation has no result. -/
inductive Fault where
  /-- The heap has no block of the requested size, and the panic handler halts the thread. -/
  | outOfMemory
  /-- `unwrap` of an error. -/
  | unwrap
  /-- A slice or an index out of range. -/
  | range
  /-- No reply to a request. -/
  | noReply
  deriving DecidableEq, Repr

def unwrap {ε α : Type} : Except ε α → Except Fault α
  | .ok a => .ok a
  | .error _ => .error .unwrap

/-- A block of `size` bytes from a heap of `heap` bytes that is still unused: whatever has been handed out before, a block
    larger than the heap cannot be had. What is left of a heap in the course of a run is counted beside the state. -/
def allocate (heap size : Nat) : Except Fault Unit := if size ≤ heap then .ok () else .error .outOfMemory

theorem allocate_ok_iff {heap size : Nat} {u : Unit} : allocate heap size = .ok u ↔ size ≤ heap := by
  unfold allocate
  split <;> simp_all

/-- What fits in a message fits in the heaps of the programs that exchange it, which have 1 MiB each. -/
theorem heap_room {n : Nat} (short : n ≤ 944) : n ≤ 0x100000 := Nat.le_trans short (by decide)

theorem unwrap_ok_iff {ε α : Type} {r : Except ε α} {a : α} : unwrap r = .ok a ↔ r = .ok a := by
  cases r <;> simp [unwrap]

end Sel4Linux.Ipc
