import Sel4Linux.Disk
import Sel4Linux.Ipc

/-!
Transfers at the end of the ramdisk, from the cursor of `lwext4-task/src/imp.rs`
and from the message loop of `blk-task/src/main.rs`. A block that starts past
the end makes the ramdisk panic. A block that starts at the end is copied with
length 0, and the cursor counts it as transferred all the same. So a transfer
from a place that seek gives is a whole one just when it ends on the disk
(`transfers_whole_iff`).
-/
namespace Sel4Linux.DiskEnd
open Sel4Linux.Bytes Sel4Linux.Ext4 Sel4Linux.Files Sel4Linux.Disk Sel4Linux.Ipc Sel4Linux.Runs
set_option linter.unusedSimpArgs false

/-! ## The message loop -/

/-- The memory of the block task. -/
abbrev Memory := Word → Byte

/-- A buffer of one block, behind the address of a client. -/
def blockAt (mem : Memory) (addr : Word) : List Byte := (List.range BLOCK_SIZE).map fun k => mem (addr + BitVec.ofNat 64 k)

def store (mem : Memory) (addr : Word) (bytes : List Byte) : Memory := fun a => (bytes[(a - addr).toNat]?).getD (mem a)

def MSG_READ : Word := 2
def MSG_WRITE : Word := 3
def MSG_CAPACITY : Word := 4

/-- The loop of `MSG_READ` over the first `n` blocks. -/
def readAll (blk : RamdiskBlkImpl) (blockId bufAddr : Word) (n : Nat) (mem : Memory) : Except Panic Memory :=
  (List.range n).foldlM (fun mem i => do
    let offset := bufAddr + BitVec.ofNat 64 i * BitVec.ofNat 64 BLOCK_SIZE
    let block ← blk.readBlock (blockId + BitVec.ofNat 64 i) (blockAt mem offset)
    .ok (store mem offset block)) mem

/-- The loop of `MSG_WRITE` over the first `n` blocks. -/
def writeAll (blk : RamdiskBlkImpl) (blockId bufAddr : Word) (n : Nat) (mem : Memory) : Except Panic RamdiskBlkImpl :=
  (List.range n).foldlM (fun blk i =>
    blk.writeBlock (blockId + BitVec.ofNat 64 i) (blockAt mem (bufAddr + BitVec.ofNat 64 i * BitVec.ofNat 64 BLOCK_SIZE))) blk

/-- One message of the loop in `rust_entry`, with the IPC buffer that the reply is sent from. -/
def serve (blk : RamdiskBlkImpl) (mem : Memory) (label : Word) (ib : IpcBuffer) :
    Except Panic (IpcBuffer × RamdiskBlkImpl × Memory) :=
  if label = MSG_READ then do
    let mem ← readAll blk (ib.readMr 0) (ib.readMr 2) (ib.readMr 1).toNat mem
    .ok (ib.writeMr 0 0,blk,mem)
  else if label = MSG_WRITE then do
    let blk ← writeAll blk (ib.readMr 0) (ib.readMr 2) (ib.readMr 1).toNat mem
    .ok (ib.writeMr 0 0,blk,mem)
  else if label = MSG_CAPACITY then .ok (ib.writeMr 0 blk.capacity,blk,mem)
  else .ok (ib.writeMr 0 (-1),blk,mem)

/-! ## Blocks that fault -/

/-- The block starts on the disk or at its end, as its start is computed. -/
def Starts (blockId : Word) : Prop := (blockId * BitVec.ofNat 64 BLOCK_SIZE).toNat ≤ RAMDISK_SIZE

/-- `r` finishes if `ok` holds and is a slice out of range otherwise. -/
def Bounded {α : Type} (ok : Prop) (r : Except Panic α) : Prop := (ok ∧ ∃ a, r = .ok a) ∨ (¬ ok ∧ r = .error .range)

section
variable {α β : Type} {ok : Prop} {r : Except Panic α}

theorem Bounded.range_iff (b : Bounded ok r) : r ≠ .error .range ↔ ok := by
  rcases b with ⟨fine,a,rfl⟩ | ⟨bad,rfl⟩
  · simp [fine]
  · simp [bad]

theorem bounded_bind (b : Bounded ok r) {f : α → β} : Bounded ok (r >>= fun a => .ok (f a)) := by
  rcases b with ⟨fine,a,rfl⟩ | ⟨bad,rfl⟩
  · exact .inl ⟨fine,f a,rfl⟩
  · exact .inr ⟨bad,rfl⟩

/-- A loop over a range faults where the body does for one of its numbers. -/
theorem bounded_foldlM {ok : Nat → Prop} {body : β → Nat → Except Panic β} (each : ∀ b i, Bounded (ok i) (body b i)) (b : β)
    (n : Nat) : Bounded (∀ i < n, ok i) ((List.range n).foldlM body b) := by
  induction n with
  | zero => exact .inl ⟨fun i low => absurd low (Nat.not_lt_zero i),b,rfl⟩
  | succ n ih =>
    rw [List.range_succ,List.foldlM_append]
    rcases ih with ⟨before,mid,done⟩ | ⟨bad,failed⟩
    · rw [done,ok_bind,List.foldlM_cons]
      rcases each mid n with ⟨here,last,stepped⟩ | ⟨here,stepped⟩
      · refine .inl ⟨fun i low => ?_,last,by rw [stepped]; rfl⟩
        rcases Nat.lt_succ_iff_lt_or_eq.mp low with earlier | rfl
        · exact before i earlier
        · exact here
      · refine .inr ⟨fun all => here (all n (Nat.lt_succ_self n)),by rw [stepped]; rfl⟩
    · refine .inr ⟨fun all => bad (fun i low => all i (Nat.lt_succ_of_lt low)),by rw [failed]; rfl⟩

end

variable (blk : RamdiskBlkImpl)

theorem readBlock_bounded (blockId : Word) (buf : List Byte) : Bounded (Starts blockId) (blk.readBlock blockId buf) := by
  by_cases past : RAMDISK_SIZE < (blockId * BitVec.ofNat 64 BLOCK_SIZE).toNat
  · exact .inr ⟨Nat.not_le.mpr past,by rw [RamdiskBlkImpl.readBlock,if_pos past]⟩
  · exact .inl ⟨Nat.le_of_not_lt past,_,by rw [RamdiskBlkImpl.readBlock,if_neg past]⟩

theorem writeBlock_bounded (blockId : Word) (buf : List Byte) : Bounded (Starts blockId) (blk.writeBlock blockId buf) := by
  by_cases past : RAMDISK_SIZE < (blockId * BitVec.ofNat 64 BLOCK_SIZE).toNat
  · exact .inr ⟨Nat.not_le.mpr past,by rw [RamdiskBlkImpl.writeBlock,dif_pos past]⟩
  · exact .inl ⟨Nat.le_of_not_lt past,_,by rw [RamdiskBlkImpl.writeBlock,dif_neg past]⟩

/-- The first `n` blocks from a block on. -/
def AllStart (blockId : Word) (n : Nat) : Prop := ∀ i < n, Starts (blockId + BitVec.ofNat 64 i)

theorem readBlocks_bounded (blockId : Word) (n : Nat) (buf : List Byte) :
    Bounded (AllStart blockId n) (readBlocks blk blockId n buf) :=
  bounded_foldlM (fun _ _ => bounded_bind (readBlock_bounded blk _ _)) buf n

theorem writeBlocks_bounded (blockId : Word) (n : Nat) (buf : List Byte) :
    Bounded (AllStart blockId n) (writeBlocks blk blockId n buf) :=
  bounded_foldlM (fun blk _ => writeBlock_bounded blk _ _) blk n

theorem readAll_bounded (blockId bufAddr : Word) (n : Nat) (mem : Memory) :
    Bounded (AllStart blockId n) (readAll blk blockId bufAddr n mem) :=
  bounded_foldlM (fun _ _ => bounded_bind (readBlock_bounded blk _ _)) mem n

theorem writeAll_bounded (blockId bufAddr : Word) (n : Nat) (mem : Memory) :
    Bounded (AllStart blockId n) (writeAll blk blockId bufAddr n mem) :=
  bounded_foldlM (fun blk _ => writeBlock_bounded blk _ _) blk n

/-- A message faults just when it asks to read or write a block that starts past the end. -/
theorem serve_bounded (mem : Memory) (label : Word) (ib : IpcBuffer) :
    Bounded (label = MSG_READ ∨ label = MSG_WRITE → AllStart (ib.readMr 0) (ib.readMr 1).toNat) (serve blk mem label ib) := by
  rw [serve]
  by_cases read : label = MSG_READ
  · rw [if_pos read]
    simp only [read,true_or,true_implies]
    exact bounded_bind (readAll_bounded blk _ _ _ mem)
  · rw [if_neg read]
    by_cases write : label = MSG_WRITE
    · rw [if_pos write]
      simp only [write,or_true,true_implies]
      exact bounded_bind (writeAll_bounded blk _ _ _ mem)
    · rw [if_neg write]
      refine .inl ⟨fun either => absurd either (by simp [read,write]),?_⟩
      split
      · exact ⟨_,rfl⟩
      · exact ⟨_,rfl⟩

/-! ## Transfers from the cursor -/

/-- The first `n` bytes of `buf` are those of the disk from `pos` on. -/
def Transferred (disk buf : List Byte) (pos n : Nat) : Prop := ∀ k < n, ∃ byte, buf[k]? = some byte ∧ disk[pos + k]? = some byte

/-- A read faults on no slice, and the count that it reports has been read. -/
def ReadWhole (blk : RamdiskBlkImpl) (dev : Ext4Disk) (buf : List Byte) : Prop :=
  dev.readOne blk buf ≠ .error .range ∧
    ∀ n filled dev', dev.readOne blk buf = .ok (n,filled,dev') → Transferred blk.data filled dev.position.toNat n.toNat

/-- A write faults on no slice, and the count that it reports has been written. -/
def WroteWhole (blk : RamdiskBlkImpl) (dev : Ext4Disk) (buf : List Byte) : Prop :=
  dev.writeOne blk buf ≠ .error .range ∧
    ∀ n blk' dev', dev.writeOne blk buf = .ok (n,blk',dev') → Transferred blk'.data buf dev.position.toNat n.toNat

/-- A seek that succeeds leaves the cursor where it says, on the disk or at its end. -/
theorem seek_position {dev₀ dev : Ext4Disk} {off p : Word} {whence : BitVec 32} (sought : dev₀.seek blk off whence = (.ok p,dev)) :
    dev = dev₀.setPosition p ∧ p.toNat ≤ RAMDISK_SIZE := by
  rw [Ext4Disk.seek] at sought
  split at sought
  · cases sought
  · split at sought
    · cases sought
    · rename_i inside
      cases sought
      exact ⟨rfl,Nat.le_of_not_lt inside⟩

variable {blk} {dev₀ dev : Ext4Disk} {p : Word} {buf : List Byte} {n : Nat}

theorem setPosition_offset (dev : Ext4Disk) (p : Word) : (dev.setPosition p).offset = 0 ↔ p.toNat % BLOCK_SIZE = 0 := by
  rw [← BitVec.toNat_inj]
  simp [Ext4Disk.setPosition,BLOCK_SIZE]

theorem position_setPosition (dev : Ext4Disk) (p : Word) : (dev.setPosition p).position = p := by
  have literal : 512 % 2 ^ 64 = 512 := rfl
  have bound := p.isLt
  apply BitVec.eq_of_toNat_eq
  simp only [Ext4Disk.position,Ext4Disk.setPosition,BLOCK_SIZE,BitVec.toNat_add,BitVec.toNat_mul,BitVec.toNat_udiv,
    BitVec.toNat_umod,BitVec.toNat_ofNat,literal]
  omega

/-- Where the blocks from `start` on reach further than one block past the end, one of them starts past it. -/
theorem block_past {size start : Nat} (inside : 512 * start ≤ size) (beyond : size + 512 < 512 * start + 512 * n) :
    ∃ i < n, size < 512 * start + 512 * i ∧ 512 * start + 512 * i ≤ size + 512 := by
  refine ⟨(size - 512 * start) / 512 + 1,?_,?_,?_⟩
  · omega
  · omega
  · omega

/-- Blocks that all start on the disk or at its end reach at most one block past it. -/
theorem allStart_reach {blockId : Word} (inside : 512 * blockId.toNat ≤ RAMDISK_SIZE) (all : AllStart blockId n) :
    512 * blockId.toNat + 512 * n ≤ RAMDISK_SIZE + 512 := by
  apply Nat.le_of_not_lt
  intro beyond
  have room : RAMDISK_SIZE + 512 < 2 ^ 63 := by decide
  obtain ⟨i,low,past,near⟩ := block_past inside beyond
  have starts := all i low
  rw [Starts,block_start_lt (Nat.lt_of_le_of_lt near room)] at starts
  exact absurd starts (Nat.not_le.mpr past)

theorem allStart_inside {blockId : Word} (inside : 512 * blockId.toNat + 512 * n ≤ RAMDISK_SIZE) : AllStart blockId n := by
  intro i low
  have before : 512 * blockId.toNat + 512 * i ≤ RAMDISK_SIZE :=
    Nat.le_trans (Nat.add_le_add_left (Nat.mul_le_mul_left 512 (Nat.le_of_lt low)) _) inside
  rw [Starts,block_start before]
  exact before

/-- A transfer of bytes that are not all on the disk is none. -/
theorem not_transferred {disk : List Byte} {pos : Nat} (inside : pos ≤ disk.length) (beyond : disk.length < pos + n) :
    ¬ Transferred disk buf pos n := by
  intro whole
  obtain ⟨byte,_,onDisk⟩ := whole (disk.length - pos) (by omega)
  rw [Nat.add_sub_cancel' inside,List.getElem?_eq_none (Nat.le_refl _)] at onDisk
  cases onDisk

theorem transferred_chunk {disk : List Byte} {pos : Nat} (inside : pos + n ≤ disk.length) :
    Transferred disk (chunk disk pos n) pos n := by
  intro k low
  refine ⟨disk[pos + k],?_,List.getElem?_eq_getElem (by omega)⟩
  simp only [chunk,List.getElem?_take,low,if_true,List.getElem?_drop]
  exact List.getElem?_eq_getElem (by omega)

theorem transferred_splice {disk : List Byte} {pos : Nat} (inside : pos + buf.length ≤ disk.length) :
    Transferred (splice disk pos buf) buf pos buf.length := by
  intro k low
  have here : pos ≤ pos + k ∧ pos + k < pos + buf.length := by omega
  refine ⟨buf[k],List.getElem?_eq_getElem low,?_⟩
  rw [splice_getElem? inside,if_pos here,Nat.add_sub_cancel_left]
  exact List.getElem?_eq_getElem low

section
variable (aligned : dev.offset = 0) (block : 512 * dev.blockId.toNat = dev.position.toNat)
  (inside : dev.position.toNat ≤ RAMDISK_SIZE) (whole : buf.length % BLOCK_SIZE = 0)
include aligned whole

theorem readOne_aligned : dev.readOne blk buf = (readBlocks blk dev.blockId (buf.length / BLOCK_SIZE) buf >>= fun filled =>
    .ok (BitVec.ofNat 64 buf.length,filled,dev.setPosition (dev.position + BitVec.ofNat 64 buf.length))) := by
  rw [Ext4Disk.readOne,if_neg (by rw [whole]; decide),if_neg (by rw [aligned]; decide)]

theorem writeOne_aligned : dev.writeOne blk buf = (writeBlocks blk dev.blockId (buf.length / BLOCK_SIZE) buf >>= fun blk =>
    .ok (BitVec.ofNat 64 buf.length,blk,dev.setPosition (dev.position + BitVec.ofNat 64 buf.length))) := by
  rw [Ext4Disk.writeOne,if_neg (by rw [whole]; decide),if_neg (by rw [aligned]; decide)]

include block inside

omit aligned in
/-- Where all blocks start on the disk, the count of the buffer fits a word. -/
theorem length_fits (all : AllStart dev.blockId (buf.length / BLOCK_SIZE)) : (BitVec.ofNat 64 buf.length).toNat = buf.length := by
  have room : RAMDISK_SIZE + 512 < 2 ^ 64 := by decide
  have reach := allStart_reach (by rw [block]; exact inside) all
  rw [whole_blocks whole] at reach
  rw [BitVec.toNat_ofNat,Nat.mod_eq_of_lt]
  exact Nat.lt_of_le_of_lt (Nat.le_of_add_left_le reach) room

theorem readWhole_iff : ReadWhole blk dev buf ↔ dev.position.toNat + buf.length ≤ RAMDISK_SIZE := by
  have read := @readOne_aligned blk dev buf aligned whole
  have blocks := whole_blocks whole
  constructor
  · rintro ⟨unfaulted,counted⟩
    apply Nat.le_of_not_lt
    intro beyond
    rcases readBlocks_bounded blk dev.blockId (buf.length / BLOCK_SIZE) buf with ⟨all,filled,done⟩ | ⟨_,faulted⟩
    · rw [done,ok_bind] at read
      have transferred := counted _ _ _ read
      rw [length_fits block inside whole all] at transferred
      exact not_transferred (by rw [blk.sized]; exact inside) (by rw [blk.sized]; exact beyond) transferred
    · rw [faulted] at read
      exact unfaulted read
  · intro fits
    have done := @readBlocks_chunk blk dev.blockId buf (buf.length / BLOCK_SIZE) (by rw [block,blocks]; exact fits)
      (Nat.le_of_eq blocks)
    rw [blocks,block,splice_whole (by rw [chunk_length,blk.sized]; omega)] at done
    have count := length_fits block inside whole (allStart_inside (by rw [block,blocks]; exact fits))
    rw [done,ok_bind] at read
    refine ⟨by rw [read]; simp,fun n filled dev' counted => ?_⟩
    rw [read] at counted
    cases counted
    rw [count]
    exact transferred_chunk (by rw [blk.sized]; exact fits)

theorem wroteWhole_iff : WroteWhole blk dev buf ↔ dev.position.toNat + buf.length ≤ RAMDISK_SIZE := by
  have wrote := @writeOne_aligned blk dev buf aligned whole
  have blocks := whole_blocks whole
  constructor
  · rintro ⟨unfaulted,counted⟩
    apply Nat.le_of_not_lt
    intro beyond
    rcases writeBlocks_bounded blk dev.blockId (buf.length / BLOCK_SIZE) buf with ⟨all,blk',done⟩ | ⟨_,faulted⟩
    · rw [done,ok_bind] at wrote
      have transferred := counted _ _ _ wrote
      rw [length_fits block inside whole all] at transferred
      exact not_transferred (by rw [blk'.sized]; exact inside) (by rw [blk'.sized]; exact beyond) transferred
    · rw [faulted] at wrote
      exact unfaulted wrote
  · intro fits
    obtain ⟨blk',done,data⟩ := @writeBlocks_data blk dev.blockId buf (buf.length / BLOCK_SIZE)
      (by rw [block,blocks]; exact fits) (Nat.le_of_eq blocks)
    rw [blocks,block,List.take_length] at data
    have count := length_fits block inside whole (allStart_inside (by rw [block,blocks]; exact fits))
    rw [done,ok_bind] at wrote
    refine ⟨by rw [wrote]; simp,fun n blk'' dev' counted => ?_⟩
    rw [wrote] at counted
    cases counted
    rw [count,data]
    exact transferred_splice (by rw [blk.sized]; exact fits)

end

/-- An offset in a block stops the assertion, before anything is transferred. -/
theorem whole_unaligned (unaligned : dev.offset ≠ 0) : ReadWhole blk dev buf ∧ WroteWhole blk dev buf := by
  have read : dev.readOne blk buf = .error .assertion := by
    rw [Ext4Disk.readOne,if_pos unaligned,ite_self]
  have wrote : dev.writeOne blk buf = .error .assertion := by
    rw [Ext4Disk.writeOne,if_pos unaligned,ite_self]
  rw [ReadWhole,WroteWhole,read,wrote]
  simp

variable (blk) in
/-- A block number that is passed to the ramdisk, by a message too, makes a subtraction wrap and a slice fault just when the
    block starts past the end. From a cursor that a seek has set, a transfer of whole blocks faults on nothing and transfers
    what it reports just when the cursor is inside a block or the transfer ends on the disk. -/
theorem transfers_whole_iff :
    (∀ blockId buf, blk.readBlock blockId buf ≠ .error .range ↔ Starts blockId) ∧
    (∀ blockId buf, blk.writeBlock blockId buf ≠ .error .range ↔ Starts blockId) ∧
    (∀ mem label ib, serve blk mem label ib ≠ .error .range ↔
      (label = MSG_READ ∨ label = MSG_WRITE → AllStart (ib.readMr 0) (ib.readMr 1).toNat)) ∧
    ∀ dev₀ off whence p dev buf, Ext4Disk.seek dev₀ blk off whence = (.ok p,dev) → buf.length % BLOCK_SIZE = 0 →
      (ReadWhole blk dev buf ↔ p.toNat % BLOCK_SIZE ≠ 0 ∨ p.toNat + buf.length ≤ RAMDISK_SIZE) ∧
      (WroteWhole blk dev buf ↔ p.toNat % BLOCK_SIZE ≠ 0 ∨ p.toNat + buf.length ≤ RAMDISK_SIZE) := by
  refine ⟨fun blockId buf => (readBlock_bounded blk blockId buf).range_iff,
    fun blockId buf => (writeBlock_bounded blk blockId buf).range_iff,
    fun mem label ib => (serve_bounded blk mem label ib).range_iff,fun dev₀ off whence p dev buf sought whole => ?_⟩
  obtain ⟨rfl,inside⟩ := seek_position blk sought
  by_cases aligned : p.toNat % BLOCK_SIZE = 0
  · have offset := (setPosition_offset dev₀ p).mpr aligned
    have position := position_setPosition dev₀ p
    have block : 512 * (dev₀.setPosition p).blockId.toNat = (dev₀.setPosition p).position.toNat := by
      rw [position,← (setPosition_aligned dev₀ aligned).2,BLOCK_SIZE,Nat.mul_comm]
    rw [readWhole_iff offset block (by rw [position]; exact inside) whole,
      wroteWhole_iff offset block (by rw [position]; exact inside) whole,position]
    simp [aligned]
  · obtain ⟨read,wrote⟩ := @whole_unaligned blk (dev₀.setPosition p) buf (fun zero => aligned ((setPosition_offset dev₀ p).mp zero))
    simp [aligned,read,wrote]

/-- The cursor at the end of the disk. -/
def atEnd : Ext4Disk := { blockId := 8192, offset := 0 }

/-- A block at the end of the disk is read with length 0. -/
theorem readBlock_end (blk : RamdiskBlkImpl) (buf : List Byte) : blk.readBlock 8192 buf = .ok buf := by
  have start : ((8192 : Word) * BitVec.ofNat 64 BLOCK_SIZE).toNat = RAMDISK_SIZE := rfl
  simp only [RamdiskBlkImpl.readBlock,start,Nat.lt_irrefl,if_false,Nat.sub_self,Nat.min_zero,chunk_zero,splice_nil]

theorem readOne_end (blk : RamdiskBlkImpl) : atEnd.readOne blk sevens = .ok (512,sevens,{ blockId := 8193, offset := 0 }) := by
  have length : sevens.length = 512 := sevens_length
  have first : (8192 : Word) + BitVec.ofNat 64 0 = 8192 := rfl
  have block : chunk sevens (0 * BLOCK_SIZE) BLOCK_SIZE = sevens := by
    rw [Nat.zero_mul,chunk,List.drop_zero,List.take_of_length_le (Nat.le_of_eq sevens_length)]
  have read : readBlocks blk 8192 1 sevens = .ok sevens := by
    rw [readBlocks,List.range_one,List.foldlM_cons,first,block,readBlock_end,ok_bind,Nat.zero_mul,splice_whole rfl]
    rfl
  have one : sevens.length / BLOCK_SIZE = 1 := by rw [length]; rfl
  rw [readOne_aligned rfl (by rw [length]; rfl),one,length]
  show (readBlocks blk 8192 1 sevens >>= _) = _
  rw [read]
  rfl

/-- A seek to the end succeeds, and a read from there reports 512 bytes of which none has been read. The block behind it is a
    slice out of range. -/
theorem transfers_not_whole : Ext4Disk.new.seek zeros 0x400000 0 = (.ok 0x400000,atEnd) ∧ sevens.length % BLOCK_SIZE = 0 ∧
    atEnd.readOne zeros sevens = .ok (512,sevens,{ blockId := 8193, offset := 0 }) ∧
    ¬ Transferred zeros.data sevens atEnd.position.toNat 512 ∧ zeros.readBlock 8193 sevens = .error .range := by
  have length : sevens.length = 512 := sevens_length
  refine ⟨rfl,by rw [length]; rfl,readOne_end zeros,?_,rfl⟩
  exact not_transferred (by rw [zeros.sized]; decide) (by rw [zeros.sized]; decide)

/-- One block from the front of the disk is a whole transfer. -/
theorem transfers_whole_front : ReadWhole zeros (Ext4Disk.new.setPosition 0) sevens := by
  have front : (0 : Word).toNat + sevens.length ≤ RAMDISK_SIZE := by
    rw [sevens_length]
    decide
  have whole : sevens.length % BLOCK_SIZE = 0 := by
    rw [sevens_length]
    rfl
  exact ((transfers_whole_iff zeros).2.2.2 .new 0 0 0 (Ext4Disk.new.setPosition 0) sevens rfl whole).1.mpr (.inr front)

end Sel4Linux.DiskEnd
