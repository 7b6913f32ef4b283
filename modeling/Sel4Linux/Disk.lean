import Sel4Linux.Files

/-!
The disk under the ext4 library: the cursor of `lwext4-task/src/imp.rs` over the
blocks of the ramdisk in `blk-task/src/lib.rs`. The cursor is kept as a block and
an offset, and transfers go block by block. Over any sequence of aligned
operations inside the capacity this is a flat array of bytes with one cursor
(`disk_flat`).
-/
namespace Sel4Linux.Disk
open Sel4Linux.Bytes Sel4Linux.Ext4 Sel4Linux.Files Sel4Linux.Runs
set_option linter.unusedSimpArgs false

/-! ## The ramdisk -/

def BLOCK_SIZE : Nat := 512
def RAMDISK_SIZE : Nat := 4 * 1024 * 1024

/-- Why a disk operation panics. -/
inductive Panic where
  /-- A failed `assert_eq!`. -/
  | assertion
  /-- A slice out of range. -/
  | range
  deriving DecidableEq, Repr

/-- `RamdiskBlkImpl`, with the buffer that it refers to. -/
structure RamdiskBlkImpl where
  data : List Byte
  sized : data.length = RAMDISK_SIZE

/-- `read_block`, with the caller's buffer afterwards. -/
def RamdiskBlkImpl.readBlock (blk : RamdiskBlkImpl) (blockId : Word) (buf : List Byte) : Except Panic (List Byte) :=
  let start := (blockId * BitVec.ofNat 64 BLOCK_SIZE).toNat
  if RAMDISK_SIZE < start then .error .range
  else
    let len := min (min buf.length BLOCK_SIZE) (RAMDISK_SIZE - start)
    .ok (splice buf 0 (chunk blk.data start len))

theorem splice_sized {data : List Byte} {start n : Nat} (sized : data.length = RAMDISK_SIZE) (inside : ¬ RAMDISK_SIZE < start)
    (buf : List Byte) : (splice data start (buf.take (min n (RAMDISK_SIZE - start)))).length = RAMDISK_SIZE := by
  rw [splice_length,sized]
  rw [List.length_take,sized]
  omega

def RamdiskBlkImpl.writeBlock (blk : RamdiskBlkImpl) (blockId : Word) (buf : List Byte) : Except Panic RamdiskBlkImpl :=
  let start := (blockId * BitVec.ofNat 64 BLOCK_SIZE).toNat
  if past : RAMDISK_SIZE < start then .error .range
  else
    let len := min (min buf.length BLOCK_SIZE) (RAMDISK_SIZE - start)
    .ok { data := splice blk.data start (buf.take len), sized := splice_sized blk.sized past buf }

def RamdiskBlkImpl.capacity (_ : RamdiskBlkImpl) : Word := BitVec.ofNat 64 RAMDISK_SIZE

/-! ## The cursor -/

structure Ext4Disk where
  blockId : Word
  offset : Word
  deriving DecidableEq, Repr

/-- `Ext4Disk::new`. -/
def Ext4Disk.new : Ext4Disk := { blockId := 0, offset := 0 }

def Ext4Disk.position (dev : Ext4Disk) : Word := dev.blockId * BitVec.ofNat 64 BLOCK_SIZE + dev.offset

/-- `set_position`. -/
def Ext4Disk.setPosition (_ : Ext4Disk) (pos : Word) : Ext4Disk :=
  { blockId := pos / BitVec.ofNat 64 BLOCK_SIZE, offset := pos % BitVec.ofNat 64 BLOCK_SIZE }

/-- `u64::checked_add_signed`. -/
def checkedAddSigned (a b : Word) : Option Word :=
  if 0 ≤ a.toNat + b.toInt ∧ a.toNat + b.toInt < 2 ^ 64 then some (a + b) else none

/-- `i64::checked_add`. -/
def checkedAdd (a b : Word) : Option Word :=
  if -(2 ^ 63) ≤ a.toInt + b.toInt ∧ a.toInt + b.toInt < 2 ^ 63 then some (a + b) else none

/-- `seek`: an unknown `whence` is logged and taken for `SEEK_SET`. -/
def Ext4Disk.seek (dev : Ext4Disk) (blk : RamdiskBlkImpl) (off : Word) (whence : BitVec 32) : Except Errno Word × Ext4Disk :=
  let size := blk.capacity
  let newPos :=
    if whence = 0 then some off
    else if whence = 1 then checkedAddSigned dev.position off
    else if whence = 2 then checkedAdd size off
    else some off
  match newPos with
  | none => (.error (-1#32),dev)
  | some newPos => if size.toNat < newPos.toNat then (.error (-1#32),dev) else (.ok newPos,dev.setPosition newPos)

/-- The loop of `read_one` over the first `n` blocks, with the buffer afterwards. -/
def readBlocks (blk : RamdiskBlkImpl) (blockId : Word) (n : Nat) (buf : List Byte) : Except Panic (List Byte) :=
  (List.range n).foldlM (fun buf i => do
    let block ← blk.readBlock (blockId + BitVec.ofNat 64 i) (chunk buf (i * BLOCK_SIZE) BLOCK_SIZE)
    .ok (splice buf (i * BLOCK_SIZE) block)) buf

/-- `read_one`, with the caller's buffer afterwards. -/
def Ext4Disk.readOne (dev : Ext4Disk) (blk : RamdiskBlkImpl) (buf : List Byte) : Except Panic (Word × List Byte × Ext4Disk) :=
  if buf.length % BLOCK_SIZE ≠ 0 then .error .assertion
  else if dev.offset ≠ 0 then .error .assertion
  else do
    let filled ← readBlocks blk dev.blockId (buf.length / BLOCK_SIZE) buf
    .ok (BitVec.ofNat 64 buf.length,filled,dev.setPosition (dev.position + BitVec.ofNat 64 buf.length))

/-- The loop of `write_one` over the first `n` blocks. -/
def writeBlocks (blk : RamdiskBlkImpl) (blockId : Word) (n : Nat) (buf : List Byte) : Except Panic RamdiskBlkImpl :=
  (List.range n).foldlM (fun blk i =>
    blk.writeBlock (blockId + BitVec.ofNat 64 i) (chunk buf (i * BLOCK_SIZE) BLOCK_SIZE)) blk

def Ext4Disk.writeOne (dev : Ext4Disk) (blk : RamdiskBlkImpl) (buf : List Byte) :
    Except Panic (Word × RamdiskBlkImpl × Ext4Disk) :=
  if buf.length % BLOCK_SIZE ≠ 0 then .error .assertion
  else if dev.offset ≠ 0 then .error .assertion
  else do
    let blk ← writeBlocks blk dev.blockId (buf.length / BLOCK_SIZE) buf
    .ok (BitVec.ofNat 64 buf.length,blk,dev.setPosition (dev.position + BitVec.ofNat 64 buf.length))

/-! ## Operations, on the disk and on a flat array -/

/-- What the library asks of the disk (`KernelDevOp`). -/
inductive DiskOp where
  | seek (off : Word) (whence : BitVec 32)
  | read (buf : List Byte)
  | write (buf : List Byte)
  deriving DecidableEq

/-- The result of an operation; a read has the buffer beside the byte count. -/
inductive DiskResult where
  | sought (result : Except Errno Word)
  | read (count : Word) (buf : List Byte)
  | written (count : Word)

/-- The cursor and the disk under it. -/
structure DiskState where
  dev : Ext4Disk
  blk : RamdiskBlkImpl

def DiskState.step (d : DiskState) : DiskOp → Except Panic (DiskResult × DiskState)
  | .seek off whence =>
    let (result,dev) := d.dev.seek d.blk off whence
    .ok (.sought result,{ d with dev := dev })
  | .read buf => do
    let (count,buf,dev) ← d.dev.readOne d.blk buf
    .ok (.read count buf,{ d with dev := dev })
  | .write buf => do
    let (count,blk,dev) ← d.dev.writeOne d.blk buf
    .ok (.written count,{ dev := dev, blk := blk })

/-- Bytes with a cursor. -/
structure Flat where
  bytes : List Byte
  cursor : Nat

/-- Where a seek goes: from the cursor, from the end or else from the start. -/
def Flat.target (f : Flat) (off : Word) (whence : BitVec 32) : Int :=
  (if whence = 1 then f.cursor else if whence = 2 then f.bytes.length else 0 : Nat) + off.toInt

def Flat.step (f : Flat) : DiskOp → Except Panic (DiskResult × Flat)
  | .seek off whence =>
    if f.target off whence < 0 ∨ f.bytes.length < f.target off whence then .ok (.sought (.error (-1#32)),f)
    else .ok (.sought (.ok (BitVec.ofInt 64 (f.target off whence))),{ f with cursor := (f.target off whence).toNat })
  | .read buf => .ok (.read (BitVec.ofNat 64 buf.length) (chunk f.bytes f.cursor buf.length),
      { f with cursor := f.cursor + buf.length })
  | .write buf => .ok (.written (BitVec.ofNat 64 buf.length),
      { bytes := splice f.bytes f.cursor buf, cursor := f.cursor + buf.length })

/-- Whole blocks inside the array; a seek inside it goes to the start of a block. -/
def Fits (f : Flat) : DiskOp → Prop
  | .seek off whence => 0 ≤ f.target off whence → f.target off whence ≤ f.bytes.length → f.target off whence % 512 = 0
  | .read buf | .write buf => buf.length % BLOCK_SIZE = 0 ∧ f.cursor + buf.length ≤ f.bytes.length

/-- The disk is the array, and its block is at the cursor with offset 0. -/
structure Encodes (d : DiskState) (f : Flat) : Prop where
  data : d.blk.data = f.bytes
  offset : d.dev.offset = 0
  cursor : d.dev.blockId.toNat * BLOCK_SIZE = f.cursor
  inside : f.cursor ≤ RAMDISK_SIZE

/-! ## Transfers -/

variable {blk : RamdiskBlkImpl} {blockId : Word} {buf : List Byte}

theorem size_small : RAMDISK_SIZE < 2 ^ 63 := by decide

/-- A block whose place fits a word starts where its number says. -/
theorem block_start_lt {n : Nat} (fits : 512 * blockId.toNat + 512 * n < 2 ^ 63) :
    ((blockId + BitVec.ofNat 64 n) * BitVec.ofNat 64 BLOCK_SIZE).toNat = 512 * blockId.toNat + 512 * n := by
  simp only [BLOCK_SIZE,BitVec.toNat_mul,BitVec.toNat_add,BitVec.toNat_ofNat]
  omega

/-- A block inside the disk starts where its number says. -/
theorem block_start {n : Nat} (inside : 512 * blockId.toNat + 512 * n ≤ RAMDISK_SIZE) :
    ((blockId + BitVec.ofNat 64 n) * BitVec.ofNat 64 BLOCK_SIZE).toNat = 512 * blockId.toNat + 512 * n :=
  block_start_lt (Nat.lt_of_le_of_lt inside size_small)

theorem chunk_append_chunk (c : List Byte) (p m n : Nat) : chunk c p m ++ chunk c (p + m) n = chunk c p (m + n) := by
  rw [chunk,chunk,chunk,List.take_add,List.drop_drop]

/-- A write behind another one is the end of one write. -/
theorem splice_splice {data a b : List Byte} {p : Nat} (inside : p + a.length ≤ data.length) :
    splice (splice data p a) (p + a.length) b = splice data p (a ++ b) := by
  have front : (data.take p ++ a).length = p + a.length := by simp; omega
  rw [splice,splice,splice,← front,List.take_left,← List.drop_drop,List.drop_left,front,List.drop_drop,List.length_append,
    List.append_assoc (data.take p)]
  congr 2
  omega

theorem splice_whole {buf new : List Byte} (same : new.length = buf.length) : splice buf 0 new = new := by
  simp [splice,same]

theorem splice_nil (data : List Byte) (p : Nat) : splice data p [] = data := by simp [splice]

theorem chunk_zero (c : List Byte) (p : Nat) : chunk c p 0 = [] := by simp [chunk]

section
variable {n : Nat} (inside : 512 * blockId.toNat + 512 * n + 512 ≤ RAMDISK_SIZE)
include inside

/-- A block inside the disk, read into a buffer of one block. -/
theorem readBlock_chunk {block : List Byte} (whole : block.length = 512) :
    blk.readBlock (blockId + BitVec.ofNat 64 n) block = .ok (chunk blk.data (512 * blockId.toNat + 512 * n) 512) := by
  have start := @block_start blockId n (by omega)
  have room : min (min block.length BLOCK_SIZE) (RAMDISK_SIZE - (512 * blockId.toNat + 512 * n)) = 512 := by
    rw [BLOCK_SIZE]
    omega
  rw [RamdiskBlkImpl.readBlock,start,if_neg (by omega)]
  simp only [room]
  rw [splice_whole]
  rw [chunk_length,blk.sized]
  omega

/-- A block inside the disk, written from a buffer of one block. -/
theorem writeBlock_data {block : List Byte} (whole : block.length = 512) :
    ∃ blk', blk.writeBlock (blockId + BitVec.ofNat 64 n) block = .ok blk' ∧
      blk'.data = splice blk.data (512 * blockId.toNat + 512 * n) block := by
  have start := @block_start blockId n (by omega)
  have past : ¬ RAMDISK_SIZE < ((blockId + BitVec.ofNat 64 n) * BitVec.ofNat 64 BLOCK_SIZE).toNat := by
    rw [start]
    omega
  refine ⟨_,by rw [RamdiskBlkImpl.writeBlock,dif_neg past],?_⟩
  simp only [start]
  rw [List.take_of_length_le]
  rw [BLOCK_SIZE]
  omega

end

/-- The loop reads the blocks behind each other. -/
theorem readBlocks_chunk {n : Nat} (inside : 512 * blockId.toNat + 512 * n ≤ RAMDISK_SIZE) (room : 512 * n ≤ buf.length) :
    readBlocks blk blockId n buf = .ok (splice buf 0 (chunk blk.data (512 * blockId.toNat) (512 * n))) := by
  induction n with
  | zero =>
    rw [Nat.mul_zero,chunk_zero,splice_nil]
    rfl
  | succ n ih =>
    rw [Nat.mul_succ] at inside room ⊢
    rw [← Nat.add_assoc] at inside
    have before := ih (Nat.le_of_add_right_le inside) (by omega)
    have front : (chunk blk.data (512 * blockId.toNat) (512 * n)).length = 512 * n := by
      rw [chunk_length,blk.sized]
      omega
    have filled : (splice buf 0 (chunk blk.data (512 * blockId.toNat) (512 * n))).length = buf.length :=
      splice_length (by omega)
    have block : (chunk (splice buf 0 (chunk blk.data (512 * blockId.toNat) (512 * n))) (512 * n) 512).length = 512 := by
      rw [chunk_length,filled]
      omega
    rw [readBlocks] at before ⊢
    rw [List.range_succ,List.foldlM_append,before,ok_bind,List.foldlM_cons,BLOCK_SIZE,Nat.mul_comm n 512,
      readBlock_chunk inside block,ok_bind,ok_bind,List.foldlM_nil]
    have next := @splice_splice buf (chunk blk.data (512 * blockId.toNat) (512 * n))
      (chunk blk.data (512 * blockId.toNat + 512 * n) 512) 0 (by omega)
    rw [Nat.zero_add,front,chunk_append_chunk] at next
    rw [next]
    rfl

/-- The loop writes the blocks behind each other. -/
theorem writeBlocks_data {n : Nat} (inside : 512 * blockId.toNat + 512 * n ≤ RAMDISK_SIZE) (room : 512 * n ≤ buf.length) :
    ∃ blk', writeBlocks blk blockId n buf = .ok blk' ∧
      blk'.data = splice blk.data (512 * blockId.toNat) (buf.take (512 * n)) := by
  induction n with
  | zero => exact ⟨blk,rfl,by rw [Nat.mul_zero,List.take_zero,splice_nil]⟩
  | succ n ih =>
    rw [Nat.mul_succ] at inside room ⊢
    rw [← Nat.add_assoc] at inside
    obtain ⟨mid,before,data⟩ := ih (Nat.le_of_add_right_le inside) (by omega)
    have block : (chunk buf (512 * n) 512).length = 512 := by
      rw [chunk_length]
      omega
    obtain ⟨last,wrote,data'⟩ := @writeBlock_data mid blockId n inside _ block
    refine ⟨last,?_,?_⟩
    · rw [writeBlocks] at before ⊢
      rw [List.range_succ,List.foldlM_append,before,ok_bind,List.foldlM_cons,BLOCK_SIZE,Nat.mul_comm n 512,wrote,ok_bind]
      rfl
    · have front : (buf.take (512 * n)).length = 512 * n := by
        rw [List.length_take]
        omega
      have next := @splice_splice blk.data (buf.take (512 * n)) (chunk buf (512 * n) 512) (512 * blockId.toNat)
        (by rw [front,blk.sized]; omega)
      rw [front,take_append_chunk] at next
      rw [data',data,next]

/-! ## The disk is a flat array -/

variable {d : DiskState} {f : Flat}

theorem Encodes.size (e : Encodes d f) : f.bytes.length = RAMDISK_SIZE := by rw [← e.data,d.blk.sized]

theorem Encodes.block (e : Encodes d f) : 512 * d.dev.blockId.toNat = f.cursor := by
  rw [← e.cursor,BLOCK_SIZE,Nat.mul_comm]

theorem Encodes.position (e : Encodes d f) : d.dev.position.toNat = f.cursor := by
  have small := size_small
  have inside := e.inside
  have block := e.block
  have zero : ∀ w : Word, w + 0 = w := fun w => by simp
  rw [Ext4Disk.position,e.offset,zero]
  simp only [BLOCK_SIZE,BitVec.toNat_mul,BitVec.toNat_ofNat]
  omega

theorem setPosition_aligned (dev : Ext4Disk) {p : Word} (aligned : p.toNat % 512 = 0) :
    (dev.setPosition p).offset = 0 ∧ (dev.setPosition p).blockId.toNat * BLOCK_SIZE = p.toNat := by
  constructor
  · apply BitVec.eq_of_toNat_eq
    simpa [Ext4Disk.setPosition,BLOCK_SIZE] using aligned
  · have literal : 512 % 2 ^ 64 = 512 := rfl
    simp only [Ext4Disk.setPosition,BLOCK_SIZE,BitVec.toNat_udiv,BitVec.toNat_ofNat,literal]
    omega

/-- After a transfer the cursor is behind it. -/
theorem setPosition_moved (e : Encodes d f) {n : Nat} (whole : n % BLOCK_SIZE = 0) (inside : f.cursor + n ≤ RAMDISK_SIZE) :
    (d.dev.setPosition (d.dev.position + BitVec.ofNat 64 n)).offset = 0 ∧
      (d.dev.setPosition (d.dev.position + BitVec.ofNat 64 n)).blockId.toNat * BLOCK_SIZE = f.cursor + n := by
  have small := size_small
  have block := e.block
  rw [BLOCK_SIZE] at whole
  have moved : (d.dev.position + BitVec.ofNat 64 n).toNat = f.cursor + n := by
    rw [BitVec.toNat_add,e.position,BitVec.toNat_ofNat]
    omega
  rw [← moved]
  exact setPosition_aligned _ (by omega)

/-- An offset added to a place on the disk lands outside of it just when the sum is negative or too large. -/
theorem add_outside_iff {a : Word} (small : a.toNat ≤ RAMDISK_SIZE) (off : Word) :
    RAMDISK_SIZE < (a + off).toNat ↔ (a.toNat : Int) + off.toInt < 0 ∨ (RAMDISK_SIZE : Int) < a.toNat + off.toInt := by
  have bound := off.isLt
  have size := size_small
  rw [BitVec.toNat_add,BitVec.toInt_eq_toNat_cond]
  split
  · omega
  · omega

theorem add_eq_ofInt (a off : Word) : a + off = BitVec.ofInt 64 (a.toNat + off.toInt) := by
  rw [BitVec.ofInt_add,BitVec.ofInt_toInt,BitVec.ofInt_natCast,BitVec.ofNat_toNat,BitVec.setWidth_eq]

/-- A seek to a sum that a checked addition has let pass. -/
theorem seek_sum {a off : Word} (e : Encodes d f) (small : a.toNat ≤ RAMDISK_SIZE) {t : Int} (sum : t = a.toNat + off.toInt) :
    (if d.blk.capacity.toNat < (a + off).toNat then (.error (-1#32),d.dev) else (.ok (a + off),d.dev.setPosition (a + off))) =
      if t < 0 ∨ f.bytes.length < t then ((.error (-1#32) : Except Errno Word),d.dev)
      else (.ok (BitVec.ofInt 64 t),d.dev.setPosition (BitVec.ofInt 64 t)) := by
  have capacity : d.blk.capacity.toNat = RAMDISK_SIZE := rfl
  have outside := add_outside_iff small off
  rw [capacity,e.size,sum,← add_eq_ofInt]
  simp only [outside]

/-- Every seek goes to its target, when this is on the disk. -/
theorem seek_target (e : Encodes d f) (off : Word) (whence : BitVec 32) : d.dev.seek d.blk off whence =
    if f.target off whence < 0 ∨ f.bytes.length < f.target off whence then (.error (-1#32),d.dev)
    else (.ok (BitVec.ofInt 64 (f.target off whence)),d.dev.setPosition (BitVec.ofInt 64 (f.target off whence))) := by
  have small := size_small
  have inside := e.inside
  have bound := BitVec.toInt_lt (x := off)
  have least := BitVec.le_toInt off
  by_cases current : whence = 1
  · subst current
    have sum : f.target off 1 = d.dev.position.toNat + off.toInt := by rw [Flat.target,if_pos rfl,e.position]
    rw [← seek_sum e (by rw [e.position]; exact inside) sum,Ext4Disk.seek,checkedAddSigned]
    by_cases range : 0 ≤ (d.dev.position.toNat : Int) + off.toInt ∧ d.dev.position.toNat + off.toInt < 2 ^ 64
    · simp only [if_neg (show ¬ (1 : BitVec 32) = 0 by decide),if_pos range,if_true]
    · have outside := (add_outside_iff (a := d.dev.position) (by rw [e.position]; exact inside) off).mpr (by
        rw [e.position] at range ⊢
        omega)
      have capacity : d.blk.capacity.toNat = RAMDISK_SIZE := rfl
      simp only [if_neg (show ¬ (1 : BitVec 32) = 0 by decide),if_neg range,if_true,capacity,if_pos outside]
  · by_cases last : whence = 2
    · subst last
      have capacity : d.blk.capacity.toNat = RAMDISK_SIZE := rfl
      have signed : d.blk.capacity.toInt = RAMDISK_SIZE := rfl
      have sum : f.target off 2 = d.blk.capacity.toNat + off.toInt := by rw [Flat.target,if_neg current,if_pos rfl,e.size]; rfl
      rw [← seek_sum e (Nat.le_refl _) sum,Ext4Disk.seek,checkedAdd]
      by_cases range : -(2 ^ 63) ≤ d.blk.capacity.toInt + off.toInt ∧ d.blk.capacity.toInt + off.toInt < 2 ^ 63
      · simp only [if_neg (show ¬ (2 : BitVec 32) = 0 by decide),if_neg current,if_pos range,if_true]
      · have outside := (add_outside_iff (a := d.blk.capacity) (Nat.le_refl _) off).mpr (by
          rw [signed] at range
          rw [capacity]
          omega)
        simp only [if_neg (show ¬ (2 : BitVec 32) = 0 by decide),if_neg current,if_neg range,if_true,capacity,if_pos outside]
    · have sum : f.target off whence = (0 : Word).toNat + off.toInt := by rw [Flat.target,if_neg current,if_neg last]; rfl
      have zero : 0 + off = off := by simp
      have set := seek_sum e (a := 0) (Nat.zero_le _) sum
      rw [zero] at set
      rw [← set,Ext4Disk.seek]
      simp only [if_neg current,if_neg last,ite_self]

theorem whole_blocks {n : Nat} (whole : n % BLOCK_SIZE = 0) : 512 * (n / BLOCK_SIZE) = n := by
  rw [BLOCK_SIZE] at whole ⊢
  omega

/-- An operation that fits does on the disk what it does on the array. -/
theorem step_encodes (e : Encodes d f) {op : DiskOp} (fits : Fits f op) :
    ∃ o d' f', d.step op = .ok (o,d') ∧ f.step op = .ok (o,f') ∧ Encodes d' f' := by
  cases op with
  | seek off whence =>
    simp only [DiskState.step,Flat.step,seek_target e]
    by_cases outside : f.target off whence < 0 ∨ f.bytes.length < f.target off whence
    · rw [if_pos outside,if_pos outside]
      exact ⟨_,_,_,rfl,rfl,e⟩
    · rw [if_neg outside,if_neg outside]
      have onDisk : 0 ≤ f.target off whence ∧ f.target off whence ≤ f.bytes.length := by omega
      have aligned := fits onDisk.1 onDisk.2
      have small := size_small
      have size := e.size
      have place : (BitVec.ofInt 64 (f.target off whence)).toNat = (f.target off whence).toNat := by
        rw [BitVec.toNat_ofInt]
        omega
      obtain ⟨offset,cursor⟩ := @setPosition_aligned d.dev (BitVec.ofInt 64 (f.target off whence)) (by rw [place]; omega)
      exact ⟨_,_,_,rfl,rfl,⟨e.data,offset,cursor.trans place,by show (f.target off whence).toNat ≤ _; omega⟩⟩
  | read buf =>
    obtain ⟨whole,inside⟩ := fits
    rw [e.size] at inside
    have blocks := whole_blocks whole
    have read := @readBlocks_chunk d.blk d.dev.blockId buf (buf.length / BLOCK_SIZE) (by rw [e.block,blocks]; exact inside)
      (Nat.le_of_eq blocks)
    rw [blocks,e.block,splice_whole (by rw [chunk_length,d.blk.sized]; omega),e.data] at read
    obtain ⟨offset,cursor⟩ := setPosition_moved e whole inside
    have stepped : d.step (.read buf) = .ok (.read (BitVec.ofNat 64 buf.length) (chunk f.bytes f.cursor buf.length),
        { d with dev := d.dev.setPosition (d.dev.position + BitVec.ofNat 64 buf.length) }) := by
      simp only [DiskState.step,Ext4Disk.readOne,whole,e.offset,read]
      rfl
    exact ⟨_,_,_,stepped,rfl,⟨e.data,offset,cursor,inside⟩⟩
  | write buf =>
    obtain ⟨whole,inside⟩ := fits
    rw [e.size] at inside
    have blocks := whole_blocks whole
    obtain ⟨blk,wrote,data⟩ := @writeBlocks_data d.blk d.dev.blockId buf (buf.length / BLOCK_SIZE)
      (by rw [e.block,blocks]; exact inside) (Nat.le_of_eq blocks)
    rw [blocks,e.block,List.take_length,e.data] at data
    obtain ⟨offset,cursor⟩ := setPosition_moved e whole inside
    have stepped : d.step (.write buf) = .ok (.written (BitVec.ofNat 64 buf.length),
        { dev := d.dev.setPosition (d.dev.position + BitVec.ofNat 64 buf.length), blk := blk }) := by
      simp only [DiskState.step,Ext4Disk.writeOne,whole,e.offset,wrote]
      rfl
    exact ⟨_,_,_,stepped,rfl,⟨data,offset,cursor,inside⟩⟩

/-- Over every sequence of operations that fit, from every content, the disk gives the results of the flat array. It has its
    bytes at the end, and its block number and offset are those of the cursor. -/
theorem disk_flat (blk : RamdiskBlkImpl) {ops : List DiskOp} (fit : Meets Flat.step Fits { bytes := blk.data, cursor := 0 } ops) :
    ∃ results d f, run DiskState.step { dev := .new, blk := blk } ops = .ok (results,d) ∧
      run Flat.step { bytes := blk.data, cursor := 0 } ops = .ok (results,f) ∧ Encodes d f := by
  have start : Encodes { dev := .new, blk := blk } { bytes := blk.data, cursor := 0 } := by
    refine ⟨rfl,rfl,?_,Nat.zero_le _⟩
    show 0 * BLOCK_SIZE = 0
    exact Nat.zero_mul _
  have keep : ∀ d f op, Encodes d f → Fits f op →
      ∃ o d' f', d.step op = .ok (o,d') ∧ f.step op = .ok (o,f') ∧ Encodes d' f' :=
    fun d f op e fits => step_encodes e fits
  exact run_simulates keep start fit

/-- A block of sevens. -/
def sevens : List Byte := List.replicate BLOCK_SIZE 7

theorem sevens_length : sevens.length = BLOCK_SIZE := List.length_replicate

/-- A block written at the front, and read back from the cursor behind it. -/
def blockOps : List DiskOp := [.write sevens,.seek (-512) 1,.read sevens]

theorem blockOps_fit (blk : RamdiskBlkImpl) : Meets Flat.step Fits { bytes := blk.data, cursor := 0 } blockOps := by
  have whole : sevens.length % BLOCK_SIZE = 0 := by rw [sevens_length]; rfl
  have room : 0 + sevens.length ≤ RAMDISK_SIZE := by rw [sevens_length]; decide
  have written : (splice blk.data 0 sevens).length = RAMDISK_SIZE := by
    rw [splice_length (by rw [blk.sized]; exact room),blk.sized]
  have back : Flat.target { bytes := splice blk.data 0 sevens, cursor := 0 + sevens.length } (-512) 1 = 0 := by
    rw [Flat.target,if_pos rfl,sevens_length]
    show ((0 + BLOCK_SIZE : Nat) : Int) + (-512 : Word).toInt = 0
    decide
  refine ⟨⟨whole,by rw [blk.sized]; exact room⟩,fun o t first => ?_⟩
  cases first
  refine ⟨fun _ _ => by rw [back]; rfl,fun o t second => ?_⟩
  have landed : ¬ ((0 : Int) < 0 ∨ (RAMDISK_SIZE : Int) < 0) := by omega
  simp only [Flat.step,back,written,if_neg landed] at second
  cases second
  exact ⟨⟨whole,by rw [written]; exact room⟩,fun _ _ _ => trivial⟩

/-- A disk of zeros. -/
def zeros : RamdiskBlkImpl := { data := List.replicate RAMDISK_SIZE 0, sized := List.length_replicate }

theorem disk_flat_block : ∃ results d f, run DiskState.step { dev := .new, blk := zeros } blockOps = .ok (results,d) ∧
    run Flat.step { bytes := zeros.data, cursor := 0 } blockOps = .ok (results,f) ∧ Encodes d f :=
  disk_flat zeros (blockOps_fit zeros)

end Sel4Linux.Disk
