import Sel4Linux.Bytes
import Sel4Linux.Runs

/-!
Pipes (`lcl/src/fs/pipe.rs`): the two ends of a bounded queue of bytes. Over
every interleaving of writes and reads the bytes come out as they went in
(`pipe_fifo`).
-/
namespace Sel4Linux.Pipes
open Sel4Linux.Bytes Sel4Linux.Runs
set_option linter.unusedSimpArgs false

/-- `unwrap` on `None`. -/
inductive Panic where
  | unwrap
  deriving DecidableEq, Repr

structure PipeSender where
  maxSize : Word
  deriving DecidableEq, Repr

/-- Both ends, with the buffer that they share; the receiver has nothing else. -/
structure Pipe where
  sender : PipeSender
  buffer : List Byte
  deriving DecidableEq, Repr

def createPipe (maxSize : Word) : Pipe := { sender := { maxSize := maxSize }, buffer := [] }

/-- `write`: the free space is a subtraction of machine words. -/
def PipeSender.write (sender : PipeSender) (buffer data : List Byte) : Nat × List Byte :=
  let available := (sender.maxSize - BitVec.ofNat 64 buffer.length).toNat
  let toWrite := min data.length available
  (toWrite,(data.take toWrite).foldl (fun buffer byte => buffer ++ [byte]) buffer)

/-- The loop of `read` over the first `n` bytes of the caller's buffer: the buffer afterwards, and the pipe's. -/
def popInto : Nat → List Byte → List Byte → Except Panic (List Byte × List Byte)
  | 0, buf, buffer => .ok (buf,buffer)
  | _ + 1, [], buffer => .ok ([],buffer)
  | _ + 1, _ :: _, [] => .error .unwrap
  | n + 1, _ :: buf, byte :: buffer => do
    let (buf,buffer) ← popInto n buf buffer
    .ok (byte :: buf,buffer)

/-- `PipeReceiver::read`. -/
def read (buffer buf : List Byte) : Except Panic (Nat × List Byte × List Byte) := do
  let toRead := min buf.length buffer.length
  let (buf,buffer) ← popInto toRead buf buffer
  .ok (toRead,buf,buffer)

/-- `PipeReceiver::available`. -/
def available (buffer : List Byte) : Nat := buffer.length

/-! ## Runs -/

inductive PipeOp where
  | write (data : List Byte)
  | read (buf : List Byte)
  | available
  deriving DecidableEq, Repr

/-- The result of a call; a read has the caller's buffer beside its count. -/
inductive PipeResult where
  | written (n : Nat)
  | read (n : Nat) (buf : List Byte)
  | available (n : Nat)
  deriving DecidableEq, Repr

def Pipe.step (p : Pipe) : PipeOp → Except Panic (PipeResult × Pipe)
  | .write data =>
    let (n,buffer) := p.sender.write p.buffer data
    .ok (.written n,{ p with buffer := buffer })
  | .read buf => do
    let (n,buf,buffer) ← read p.buffer buf
    .ok (.read n buf,{ p with buffer := buffer })
  | .available => .ok (.available (available p.buffer),p)

/-- The bytes that a call has accepted. -/
def accepted : PipeOp → PipeResult → List Byte
  | .write data, .written n => data.take n
  | _, _ => []

/-- The bytes that a call has delivered. -/
def delivered : PipeOp → PipeResult → List Byte
  | .read _, .read n buf => buf.take n
  | _, _ => []

/-- What a call returns: a write accepts what there is space for, and a read returns what there is, in front of the rest of its
    buffer. -/
inductive Counts (maxSize : Word) (buffer : List Byte) : PipeOp → PipeResult → Prop where
  | write (data : List Byte) : Counts maxSize buffer (.write data) (.written (min data.length (maxSize.toNat - buffer.length)))
  | read (buf : List Byte) : Counts maxSize buffer (.read buf) (.read (min buf.length buffer.length)
      (buffer.take (min buf.length buffer.length) ++ buf.drop (min buf.length buffer.length)))
  | available : Counts maxSize buffer .available (.available buffer.length)

/-- The capacity stays what it was made with, and what is buffered fits it. -/
structure Within (maxSize : Word) (p : Pipe) : Prop where
  capacity : p.sender.maxSize = maxSize
  fits : p.buffer.length ≤ maxSize.toNat

/-! ## One call -/

variable {maxSize : Word} {p : Pipe}

theorem push_all (buffer data : List Byte) : data.foldl (fun buffer byte => buffer ++ [byte]) buffer = buffer ++ data := by
  induction data generalizing buffer with
  | nil => rw [List.foldl_nil,List.append_nil]
  | cons byte rest ih => rw [List.foldl_cons,ih,List.append_assoc,List.singleton_append]

/-- The free space does not wrap where the buffer is within the capacity. -/
theorem write_eq (within : Within maxSize p) (data : List Byte) : p.sender.write p.buffer data =
    (min data.length (maxSize.toNat - p.buffer.length),
      p.buffer ++ data.take (min data.length (maxSize.toNat - p.buffer.length))) := by
  have free : (maxSize - BitVec.ofNat 64 p.buffer.length).toNat = maxSize.toNat - p.buffer.length := by
    have bound := maxSize.isLt
    have fits := within.fits
    rw [BitVec.toNat_sub,BitVec.toNat_ofNat]
    omega
  simp only [PipeSender.write,within.capacity,free,push_all]

/-- The loop moves the front of the pipe to the front of the buffer. -/
theorem popInto_eq {n : Nat} {buf buffer : List Byte} (room : n ≤ buf.length) (filled : n ≤ buffer.length) :
    popInto n buf buffer = .ok (buffer.take n ++ buf.drop n,buffer.drop n) := by
  induction n generalizing buf buffer with
  | zero => rfl
  | succ n ih =>
    cases buf with
    | nil => exact absurd room (Nat.not_succ_le_zero n)
    | cons old buf =>
      cases buffer with
      | nil => exact absurd filled (Nat.not_succ_le_zero n)
      | cons byte buffer =>
        rw [popInto,ih (Nat.le_of_succ_le_succ room) (Nat.le_of_succ_le_succ filled)]
        rfl

theorem read_eq (buffer buf : List Byte) : read buffer buf = .ok (min buf.length buffer.length,
    buffer.take (min buf.length buffer.length) ++ buf.drop (min buf.length buffer.length),
    buffer.drop (min buf.length buffer.length)) := by
  rw [read,popInto_eq (Nat.min_le_left _ _) (Nat.min_le_right _ _)]
  rfl

theorem step_write (within : Within maxSize p) (data : List Byte) : p.step (.write data) =
    .ok (.written (min data.length (maxSize.toNat - p.buffer.length)),
      { p with buffer := p.buffer ++ data.take (min data.length (maxSize.toNat - p.buffer.length)) }) := by
  rw [Pipe.step,write_eq within]

theorem step_read (p : Pipe) (buf : List Byte) : p.step (.read buf) =
    .ok (.read (min buf.length p.buffer.length)
      (p.buffer.take (min buf.length p.buffer.length) ++ buf.drop (min buf.length p.buffer.length)),
      { p with buffer := p.buffer.drop (min buf.length p.buffer.length) }) := by
  rw [Pipe.step,read_eq,ok_bind]

/-- Every call returns, with the counts that it should have, and stays within the capacity. -/
theorem step_counts (within : Within maxSize p) (op : PipeOp) :
    ∃ o t, p.step op = .ok (o,t) ∧ Counts maxSize p.buffer op o ∧ Within maxSize t := by
  have fits := within.fits
  cases op with
  | write data =>
    refine ⟨_,_,step_write within data,.write data,within.capacity,?_⟩
    simp only [List.length_append,List.length_take]
    omega
  | read buf =>
    refine ⟨_,_,step_read p buf,.read buf,within.capacity,?_⟩
    simp only [List.length_drop]
    omega
  | available => exact ⟨_,_,rfl,.available,within⟩

/-- A call puts what it accepts behind the content and delivers what is in front. -/
theorem step_fifo {t : Pipe} {op : PipeOp} {o : PipeResult} (within : Within maxSize p) (stepped : p.step op = .ok (o,t)) :
    p.buffer ++ accepted op o = delivered op o ++ t.buffer := by
  cases op with
  | write data =>
    rw [step_write within] at stepped
    cases stepped
    simp only [accepted,delivered,List.nil_append]
  | read buf =>
    rw [step_read] at stepped
    cases stepped
    have front : (p.buffer.take (min buf.length p.buffer.length)).length = min buf.length p.buffer.length := by
      rw [List.length_take]
      omega
    simp only [accepted,delivered,List.append_nil]
    rw [List.take_left' front,List.take_append_drop]
  | available =>
    cases stepped
    simp only [accepted,delivered,List.append_nil,List.nil_append]

/-! ## Every interleaving -/

theorem createPipe_within (maxSize : Word) : Within maxSize (createPipe maxSize) := ⟨rfl,Nat.zero_le _⟩

theorem step_within {t : Pipe} {op : PipeOp} {o : PipeResult} (within : Within maxSize p) (stepped : p.step op = .ok (o,t)) :
    Within maxSize t := by
  obtain ⟨o',t',stepped',_,next⟩ := step_counts within op
  rw [stepped] at stepped'
  cases stepped'
  exact next

/-- On a new pipe every interleaving of calls goes through, each with the counts that it should have and with no more
    buffered than the capacity. What the reads have delivered, followed by what is still buffered, is what the writes have
    accepted. -/
theorem pipe_fifo (maxSize : Word) (ops : List PipeOp) :
    Each Pipe.step (fun p op o t => Counts maxSize p.buffer op o ∧ p.buffer.length ≤ maxSize.toNat ∧
      t.buffer.length ≤ maxSize.toNat)
      (createPipe maxSize) ops ∧
    ∃ outs p, run Pipe.step (createPipe maxSize) ops = .ok (outs,p) ∧
      (List.zipWith delivered ops outs).flatten ++ p.buffer = (List.zipWith accepted ops outs).flatten := by
  have each : Each Pipe.step (fun p op o t => Counts maxSize p.buffer op o ∧ p.buffer.length ≤ maxSize.toNat ∧
      t.buffer.length ≤ maxSize.toNat) (createPipe maxSize) ops := by
    refine each_of_step (I := Within maxSize) (fun p op within => ?_) (createPipe_within maxSize)
    obtain ⟨o,t,stepped,counts,next⟩ := step_counts within op
    exact ⟨o,t,stepped,⟨counts,within.fits,next.fits⟩,next⟩
  obtain ⟨outs,p,ran⟩ := each_ran each
  have conserved := run_conserves (I := Within maxSize) Pipe.buffer accepted delivered
    (fun p op o t within stepped => ⟨step_fifo within stepped,step_within within stepped⟩) (createPipe_within maxSize) ran
  rw [createPipe,List.nil_append] at conserved
  exact ⟨each,outs,p,ran,conserved.symm⟩

/-- A full pipe of 3 bytes takes no more, and a read of 2 makes room. -/
example : (run Pipe.step (createPipe 3) [.write [1,2,3,4],.write [5],.read [0,0],.write [6],.read [0,0,0]]).map Prod.fst =
    .ok [.written 3,.written 0,.read 2 [1,2],.written 1,.read 2 [3,6,0]] := by decide

end Sel4Linux.Pipes
