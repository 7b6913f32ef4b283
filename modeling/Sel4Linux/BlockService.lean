import Sel4Linux.DiskEnd
import Sel4Linux.Refinement

/-!
The block task over whole runs (`blk-task/src/main.rs`). Messages ask for blocks
to be moved between the ramdisk and the memory of the task, one block after the
other; between two messages anyone may store bytes into the memory. As long as
the blocks asked for are on the disk, the task is a flat array of bytes from
which spans are copied and into which they are copied (`block_store`).
-/
namespace Sel4Linux.BlockService
open Sel4Linux.Bytes Sel4Linux.Ext4 Sel4Linux.Files Sel4Linux.Disk Sel4Linux.DiskEnd Sel4Linux.Ipc
open Sel4Linux.Runs Sel4Linux.Refinement
set_option linter.unusedSimpArgs false

/-! ## The loop of the task -/

/-- The task between two messages. -/
structure State where
  blk : RamdiskBlkImpl
  mem : Memory

inductive Event where
  /-- Bytes that arrive in the memory. -/
  | stored (addr : Word) (bytes : List Byte)
  | message (label : Word) (ib : IpcBuffer)

/-- A message is answered with the IPC buffer that it leaves. -/
def step (s : State) : Event → Except Panic (Option IpcBuffer × State)
  | .stored addr bytes => .ok (none,{ s with mem := store s.mem addr bytes })
  | .message label ib => do
    let (reply,blk,mem) ← serve s.blk s.mem label ib
    .ok (some reply,{ blk := blk, mem := mem })

/-! ## The flat disk -/

structure Flat where
  disk : List Byte
  mem : Memory

/-- The bytes of the memory from an address on. -/
def span (mem : Memory) (addr : Word) (n : Nat) : List Byte := (List.range n).map fun k => mem (addr + BitVec.ofNat 64 k)

/-- Where the blocks of a message start on the disk, and how many bytes they have. -/
def start (ib : IpcBuffer) : Nat := BLOCK_SIZE * (ib.readMr 0).toNat
def size (ib : IpcBuffer) : Nat := BLOCK_SIZE * (ib.readMr 1).toNat

def Flat.step (f : Flat) : Event → Except Panic (Option IpcBuffer × Flat)
  | .stored addr bytes => .ok (none,{ f with mem := store f.mem addr bytes })
  | .message label ib =>
    if label = MSG_READ then
      .ok (some (ib.writeMr 0 0),{ f with mem := store f.mem (ib.readMr 2) (chunk f.disk (start ib) (size ib)) })
    else if label = MSG_WRITE then
      .ok (some (ib.writeMr 0 0),{ f with disk := splice f.disk (start ib) (span f.mem (ib.readMr 2) (size ib)) })
    else if label = MSG_CAPACITY then .ok (some (ib.writeMr 0 (BitVec.ofNat 64 RAMDISK_SIZE)),f)
    else .ok (some (ib.writeMr 0 (-1)),f)

/-- The blocks that a message asks for are on the disk. -/
def Fits : Event → Prop
  | .stored _ _ => True
  | .message label ib => label = MSG_READ ∨ label = MSG_WRITE → start ib + size ib ≤ RAMDISK_SIZE

/-! ## Spans -/

variable {mem : Memory} {addr : Word}

theorem span_length (n : Nat) : (span mem addr n).length = n := by simp [span]

theorem span_append (m n : Nat) : span mem addr m ++ span mem (addr + BitVec.ofNat 64 m) n = span mem addr (m + n) := by
  simp only [span,List.range_add,List.map_append,List.map_map,List.append_cancel_left_eq]
  refine List.map_congr_left fun k _ => ?_
  rw [Function.comp_apply,BitVec.add_assoc,← BitVec.ofNat_add]

/-- Bytes stored behind others are stored with them. -/
theorem store_append {front back : List Byte} (fits : front.length + back.length ≤ 2 ^ 64) :
    store (store mem addr front) (addr + BitVec.ofNat 64 front.length) back = store mem addr (front ++ back) := by
  funext a
  have bound := a.isLt
  have bound' := addr.isLt
  have distance := BitVec.toNat_sub a addr
  have distance' := BitVec.toNat_sub a (addr + BitVec.ofNat 64 front.length)
  rw [BitVec.toNat_add,BitVec.toNat_ofNat] at distance'
  simp only [store]
  by_cases near : (a - addr).toNat < front.length
  · have beyond : back.length ≤ (a - (addr + BitVec.ofNat 64 front.length)).toNat := by omega
    rw [List.getElem?_append_left near,List.getElem?_eq_none beyond,List.getElem?_eq_getElem near]
    rfl
  · rw [List.getElem?_append_right (by omega),List.getElem?_eq_none (by omega : front.length ≤ (a - addr).toNat)]
    by_cases all : front.length = 2 ^ 64
    · omega
    · have same : (a - (addr + BitVec.ofNat 64 front.length)).toNat = (a - addr).toNat - front.length := by omega
      rw [same]
      rfl

theorem store_nil : store mem addr [] = mem := rfl

/-! ## The loops -/

variable {blk : RamdiskBlkImpl} {blockId bufAddr : Word}

theorem block_address (i : Nat) :
    bufAddr + BitVec.ofNat 64 i * BitVec.ofNat 64 BLOCK_SIZE = bufAddr + BitVec.ofNat 64 (BLOCK_SIZE * i) := by
  rw [Nat.mul_comm,BitVec.ofNat_mul]

theorem length_blockAt : (blockAt mem addr).length = 512 := by simp [blockAt,BLOCK_SIZE]

/-- The blocks that have been read are one span in the memory. -/
theorem readAll_flat {n : Nat} (inside : BLOCK_SIZE * blockId.toNat + BLOCK_SIZE * n ≤ RAMDISK_SIZE) :
    readAll blk blockId bufAddr n mem = .ok (store mem bufAddr (chunk blk.data (BLOCK_SIZE * blockId.toNat) (BLOCK_SIZE * n))) := by
  have size : BLOCK_SIZE = 512 := rfl
  have small := size_small
  induction n with
  | zero =>
    rw [Nat.mul_zero,chunk_zero,store_nil]
    rfl
  | succ n ih =>
    rw [size] at inside
    have next : 512 * blockId.toNat + 512 * n + 512 ≤ RAMDISK_SIZE := by rw [Nat.mul_succ,← Nat.add_assoc] at inside; exact inside
    have before := ih (by rw [size]; omega)
    have front : (chunk blk.data (BLOCK_SIZE * blockId.toNat) (BLOCK_SIZE * n)).length = BLOCK_SIZE * n := by
      rw [chunk_length,blk.sized,size]
      omega
    have room : BLOCK_SIZE * n + 512 ≤ RAMDISK_SIZE := Nat.le_trans (Nat.le_add_left _ (512 * blockId.toNat)) (by
      rw [← Nat.add_assoc]
      exact next)
    have last : (chunk blk.data (BLOCK_SIZE * blockId.toNat + BLOCK_SIZE * n) 512).length ≤ 512 := by
      rw [chunk_length]
      omega
    rw [readAll] at before ⊢
    rw [List.range_succ,List.foldlM_append,before,ok_bind]
    simp only [List.foldlM_cons,List.foldlM_nil,block_address]
    rw [readBlock_chunk next length_blockAt,ok_bind,ok_bind]
    have joined := @store_append mem bufAddr (chunk blk.data (BLOCK_SIZE * blockId.toNat) (BLOCK_SIZE * n))
      (chunk blk.data (BLOCK_SIZE * blockId.toNat + BLOCK_SIZE * n) 512) (by rw [front]; omega)
    rw [front,chunk_append_chunk] at joined
    exact congrArg Except.ok joined

/-- The blocks that have been written are one span on the disk. -/
theorem writeAll_flat {n : Nat} (inside : BLOCK_SIZE * blockId.toNat + BLOCK_SIZE * n ≤ RAMDISK_SIZE) :
    ∃ blk', writeAll blk blockId bufAddr n mem = .ok blk' ∧
      blk'.data = splice blk.data (BLOCK_SIZE * blockId.toNat) (span mem bufAddr (BLOCK_SIZE * n)) := by
  have size : BLOCK_SIZE = 512 := rfl
  induction n with
  | zero => exact ⟨blk,rfl,(splice_nil _ _).symm⟩
  | succ n ih =>
    rw [size] at inside
    have next : 512 * blockId.toNat + 512 * n + 512 ≤ RAMDISK_SIZE := by rw [Nat.mul_succ,← Nat.add_assoc] at inside; exact inside
    obtain ⟨mid,before,data⟩ := ih (by rw [size]; omega)
    have block : (blockAt mem (bufAddr + BitVec.ofNat 64 n * BitVec.ofNat 64 BLOCK_SIZE)).length = 512 := length_blockAt
    obtain ⟨last,wrote,data'⟩ := @writeBlock_data mid blockId n next _ block
    refine ⟨last,?_,?_⟩
    · rw [writeAll] at before ⊢
      rw [List.range_succ,List.foldlM_append,before,ok_bind]
      simp only [List.foldlM_cons,List.foldlM_nil,wrote,ok_bind]
      rfl
    · have joined :=
        @splice_splice blk.data (span mem bufAddr (BLOCK_SIZE * n)) (span mem (bufAddr + BitVec.ofNat 64 (BLOCK_SIZE * n)) 512)
        (BLOCK_SIZE * blockId.toNat) (by rw [span_length,blk.sized,size]; omega)
      rw [span_length,span_append] at joined
      rw [data',data,block_address]
      exact joined

/-! ## Runs -/

/-- The task and the flat disk. -/
structure Encodes (s : State) (f : Flat) : Prop where
  disk : s.blk.data = f.disk
  mem : s.mem = f.mem

theorem step_flat {s : State} {f : Flat} {e : Event} (encodes : Encodes s f) (fits : Fits e) :
    ∃ o s' f', step s e = .ok (o,s') ∧ f.step e = .ok (o,f') ∧ Encodes s' f' := by
  obtain ⟨blk,mem⟩ := s
  obtain ⟨disk,mem'⟩ := f
  obtain ⟨same,rfl⟩ := encodes
  cases e with
  | stored addr bytes => exact ⟨none,_,_,rfl,rfl,same,rfl⟩
  | message label ib =>
    rw [step,Flat.step,serve]
    by_cases read : label = MSG_READ
    · rw [if_pos read,if_pos read,readAll_flat (fits (.inl read))]
      refine ⟨_,_,_,rfl,rfl,same,?_⟩
      rw [← same]
      rfl
    · rw [if_neg read,if_neg read]
      by_cases write : label = MSG_WRITE
      · obtain ⟨blk',wrote,data⟩ := @writeAll_flat mem blk (ib.readMr 0) (ib.readMr 2) _ (fits (.inr write))
        rw [if_pos write,if_pos write,wrote]
        refine ⟨_,_,_,rfl,rfl,?_,rfl⟩
        rw [data]
        exact congrArg (splice · (start ib) (span mem (ib.readMr 2) (size ib))) same
      · rw [if_neg write,if_neg write]
        split
        · exact ⟨_,_,_,rfl,rfl,same,rfl⟩
        · exact ⟨_,_,_,rfl,rfl,same,rfl⟩

/-- A message writes the byte of the disk at `p`. -/
def Writes (p : Nat) : Event → Prop
  | .stored _ _ => False
  | .message label ib => label = MSG_WRITE ∧ start ib ≤ p ∧ p < start ib + size ib

theorem splice_apart {data bytes : List Byte} {pos p : Nat} (inside : pos + bytes.length ≤ data.length)
    (apart : ¬ (pos ≤ p ∧ p < pos + bytes.length)) : (splice data pos bytes)[p]? = data[p]? := by
  rw [splice_getElem? inside,if_neg apart]

/-- A step leaves the bytes of the disk that it does not write. -/
theorem step_kept {s t : State} {e : Event} {o : Option IpcBuffer} (fits : Fits e) (ran : step s e = .ok (o,t)) {p : Nat}
    (apart : ¬ Writes p e) : t.blk.data[p]? = s.blk.data[p]? := by
  obtain ⟨o',t',f',ran',flat,encodes⟩ := @step_flat s { disk := s.blk.data, mem := s.mem } e ⟨rfl,rfl⟩ fits
  rw [ran] at ran'
  cases ran'
  rw [encodes.disk]
  cases e with
  | stored addr bytes =>
    cases flat
    rfl
  | message label ib =>
    rw [Flat.step] at flat
    by_cases read : label = MSG_READ
    · rw [if_pos read] at flat
      cases flat
      rfl
    · rw [if_neg read] at flat
      by_cases write : label = MSG_WRITE
      · rw [if_pos write] at flat
        cases flat
        have inside := fits (.inr write)
        refine splice_apart ?_ fun near => apart ⟨write,?_⟩
        · rw [span_length,s.blk.sized]
          exact inside
        · rw [span_length] at near
          exact near
      · rw [if_neg write] at flat
        split at flat
        · cases flat
          rfl
        · cases flat
          rfl

theorem run_kept {s t : State} {events : List Event} {outs : List (Option IpcBuffer)} (fits : ∀ e ∈ events, Fits e)
    (ran : run step s events = .ok (outs,t)) {p : Nat} (apart : ∀ e ∈ events, ¬ Writes p e) : t.blk.data[p]? = s.blk.data[p]? :=
  @run_invariant_on _ _ _ _ step (fun u => u.blk.data[p]? = s.blk.data[p]?) (fun e => Fits e ∧ ¬ Writes p e)
    (fun _ _ _ _ same both first => (step_kept both.1 first both.2).trans same) _ _ _ _ rfl
    (fun e member => ⟨fits e member,apart e member⟩) ran

/-- What a message has written is on the disk. -/
theorem step_written {s t : State} {ib : IpcBuffer} {o : Option IpcBuffer} (fits : Fits (.message MSG_WRITE ib))
    (ran : step s (.message MSG_WRITE ib) = .ok (o,t)) {k : Nat} (inside : k < size ib) :
    t.blk.data[start ib + k]? = some (s.mem (ib.readMr 2 + BitVec.ofNat 64 k)) := by
  obtain ⟨o',t',f',ran',flat,encodes⟩ := @step_flat s { disk := s.blk.data, mem := s.mem } (.message MSG_WRITE ib) ⟨rfl,rfl⟩ fits
  rw [ran] at ran'
  cases ran'
  rw [Flat.step,if_neg (by decide),if_pos rfl] at flat
  cases flat
  have onDisk := fits (.inr rfl)
  rw [encodes.disk,splice_getElem? (by rw [span_length,s.blk.sized]; exact onDisk),if_pos (by rw [span_length]; omega),
    Nat.add_sub_cancel_left]
  simp [span,inside]

/--
Every sequence of messages for blocks that are on the disk, with anything stored
into the memory between them, is answered as by the flat disk and leaves its
bytes and its memory. What a message has written stays until a later message
writes over it.
-/
theorem block_store (blk : RamdiskBlkImpl) (mem : Memory) (events : List Event) (fits : ∀ e ∈ events, Fits e) :
    ∃ outs s f, run step { blk := blk, mem := mem } events = .ok (outs,s) ∧
      run Flat.step { disk := blk.data, mem := mem } events = .ok (outs,f) ∧ s.blk.data = f.disk ∧ s.mem = f.mem ∧
      (∀ p, (∀ e ∈ events, ¬ Writes p e) → s.blk.data[p]? = blk.data[p]?) ∧
      ∀ front ib back, events = front ++ .message MSG_WRITE ib :: back →
        ∃ outs' u, run step { blk := blk, mem := mem } front = .ok (outs',u) ∧
          ∀ k < size ib, (∀ e ∈ back, ¬ Writes (start ib + k) e) →
            s.blk.data[start ib + k]? = some (u.mem (ib.readMr 2 + BitVec.ofNat 64 k)) := by
  have meets : Meets Flat.step (fun _ e => Fits e) { disk := blk.data, mem := mem } events := by
    generalize ({ disk := blk.data, mem := mem } : Flat) = f
    induction events generalizing f with
    | nil => trivial
    | cons e rest ih =>
      exact ⟨fits e List.mem_cons_self,fun o g _ => ih (fun e' member => fits e' (List.mem_cons_of_mem e member)) g⟩
  obtain ⟨outs,s,f,ran,flat,encodes⟩ := run_simulates (fun s f e => step_flat)
    (⟨rfl,rfl⟩ : Encodes { blk := blk, mem := mem } { disk := blk.data, mem := mem }) meets
  refine ⟨outs,s,f,ran,flat,encodes.disk,encodes.mem,fun p apart => run_kept fits ran apart,?_⟩
  rintro front ib back rfl
  obtain ⟨outs',u,_,first,later,_⟩ := run_append_iff.mp ran
  obtain ⟨o,v,_,wrote,last,_⟩ := run_cons_iff.mp later
  refine ⟨outs',u,first,fun k inside apart => ?_⟩
  rw [run_kept (fun e member => fits e (by simp [member])) last apart]
  exact step_written (fits _ (by simp)) wrote inside

/-- A block that is written from the memory at 0x1000, and read back to 0x2000. -/
def blockEvents : List Event :=
  [.stored 0x1000 sevens,.message MSG_WRITE (((IpcBuffer.new.writeMr 0 3).writeMr 1 1).writeMr 2 0x1000),
    .message MSG_CAPACITY IpcBuffer.new,
    .message MSG_READ (((IpcBuffer.new.writeMr 0 3).writeMr 1 1).writeMr 2 0x2000)]

theorem block_store_back : (∀ e ∈ blockEvents, Fits e) ∧ ∃ outs s,
    run step { blk := zeros, mem := fun _ => 0 } blockEvents = .ok (outs,s) ∧ s.blk.data[3 * 512 + 5]? = some 7 := by
  have fits : ∀ e ∈ blockEvents, Fits e := by
    intro e member
    simp only [blockEvents,List.mem_cons,List.not_mem_nil,or_false] at member
    rcases member with rfl | rfl | rfl | rfl
    · trivial
    · exact fun _ => by decide +kernel
    · intro either
      exact absurd either (by decide)
    · exact fun _ => by decide +kernel
  obtain ⟨outs,s,f,ran,_,_,_,_,written⟩ := block_store zeros (fun _ => 0) blockEvents fits
  obtain ⟨outs',u,first,bytes⟩ := written [.stored 0x1000 sevens] _
    [.message MSG_CAPACITY IpcBuffer.new,.message MSG_READ (((IpcBuffer.new.writeMr 0 3).writeMr 1 1).writeMr 2 0x2000)] rfl
  have later : ∀ e ∈ [Event.message MSG_CAPACITY IpcBuffer.new,
      .message MSG_READ (((IpcBuffer.new.writeMr 0 3).writeMr 1 1).writeMr 2 0x2000)], ∀ p, ¬ Writes p e := by
    intro e member p
    simp only [List.mem_cons,List.not_mem_nil,or_false] at member
    rcases member with rfl | rfl
    · exact fun writes => absurd writes.1 (by decide)
    · exact fun writes => absurd writes.1 (by decide)
  have byte := bytes 5 (by decide +kernel) fun e member => later e member _
  cases first
  refine ⟨fits,outs,s,ran,?_⟩
  have place : start (((IpcBuffer.new.writeMr 0 3).writeMr 1 1).writeMr 2 0x1000) = 3 * 512 := by decide +kernel
  rw [place] at byte
  rw [byte]
  decide +kernel

end Sel4Linux.BlockService
