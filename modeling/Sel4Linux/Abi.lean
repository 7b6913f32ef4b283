import Sel4Linux.Ipc

/-!
The system call boundary of a thread (`crates/sel4-sys/src/lib.rs`,
`crates/sel4-sys/src/syscalls.rs`). The kernel takes the message info from RSI,
the first four message registers from R10, R8, R9 and R15 and the others from
the IPC buffer, and gives its results back the same way. The wrappers set and
read these registers by hand: what they carry over is settled exactly for those
that send (`message_presented_iff`) and those that receive
(`result_reported_iff`).
-/
namespace Sel4Linux.Abi
open Sel4Linux.Bytes Sel4Linux.Ipc
set_option linter.unusedSimpArgs false

def SYS_CALL : Word := -1
def SYS_REPLY_RECV : Word := -2
def SYS_SEND : Word := -3
def SYS_NBSEND : Word := -4
def SYS_RECV : Word := -5
def SYS_REPLY : Word := -6
def SYS_NBRECV : Word := -8

/-- The registers that cross the boundary. -/
structure Cpu where
  rax : Word
  rdx : Word
  rdi : Word
  rsi : Word
  r10 : Word
  r8 : Word
  r9 : Word
  r12 : Word
  r13 : Word
  r15 : Word
  deriving DecidableEq

/-- What the kernel makes of registers and buffer before it returns. -/
abbrev Trap := Cpu → IpcBuffer → Cpu × IpcBuffer

/-- A thread at the boundary, with what it has presented to the kernel so far. -/
structure Machine where
  cpu : Cpu
  ib : IpcBuffer
  entries : List (Cpu × IpcBuffer)

/-- MR `i` as the convention has it. -/
def mrOf (cpu : Cpu) (ib : IpcBuffer) : Nat → Word
  | 0 => cpu.r10
  | 1 => cpu.r8
  | 2 => cpu.r9
  | 3 => cpu.r15
  | i => ib.readMr i

structure Presented where
  info : Word
  mrs : List Word
  deriving DecidableEq

/-- The message that registers and buffer stand for. -/
def presented (entry : Cpu × IpcBuffer) : Presented :=
  { info := entry.1.rsi, mrs := (List.range (infoLength entry.1.rsi)).map (mrOf entry.1 entry.2) }

/-- Writes the words of `mrs` from index `start` up to `stop` into the message registers of these numbers. -/
def fillMrs (ib : IpcBuffer) (mrs : List Word) (start stop : Nat) : IpcBuffer :=
  (List.range' start (stop - start)).foldl (fun ib i => ib.writeMr i (mrs.getD i 0)) ib

variable (K : Trap) (m : Machine)

/-- `syscall` with the registers loaded. -/
def Machine.trap (cpu : Cpu) : Machine :=
  let (out,ib) := K cpu m.ib
  { cpu := out, ib := ib, entries := m.entries ++ [(cpu,m.ib)] }

/-! ## Raw calls -/

/-- `sys_send1`: nothing but the number and one argument is set. -/
def sysSend1 (sys a0 : Word) : (Word × Word) × Machine :=
  let m := m.trap K { m.cpu with rdx := sys, rdi := a0 }
  ((m.cpu.rax,m.cpu.rdi),m)

/-- `sys_send2`: nothing but the number and two arguments is set. -/
def sysSend2 (sys a0 a1 : Word) : (Word × Word × Word) × Machine :=
  let m := m.trap K { m.cpu with rdx := sys, rdi := a0, rsi := a1 }
  ((m.cpu.rax,m.cpu.rdi,m.cpu.rsi),m)

/-- What `seL4_syscall` returns, without the components that are always 0. -/
structure Returned where
  tag : Word
  badge : Word
  mr0 : Word
  mr1 : Word
  mr2 : Word
  mr3 : Word

def sel4Syscall (sys arg0 arg1 arg2 arg3 arg4 arg5 arg6 arg7 : Word) : Returned × Machine :=
  let m := m.trap K { m.cpu with
    rdx := sys, rdi := arg0, rsi := arg1, r10 := arg2, r8 := arg3, r9 := arg4, r12 := arg5, r13 := arg6, r15 := arg7 }
  ({ tag := m.cpu.rsi, badge := m.cpu.rdi, mr0 := m.cpu.r10, mr1 := m.cpu.r8, mr2 := m.cpu.r9, mr3 := m.cpu.r15 },m)

/-- `seL4_syscall_with_buf`: MR4 to MR9 go through the buffer. -/
def sel4SyscallWithBuf (sys arg0 arg1 arg2 arg3 arg4 arg5 arg6 arg7 mr4 mr5 mr6 mr7 mr8 mr9 : Word) :
    Returned × Machine :=
  let ib := (((((m.ib.writeMr 4 mr4).writeMr 5 mr5).writeMr 6 mr6).writeMr 7 mr7).writeMr 8 mr8).writeMr 9 mr9
  sel4Syscall K { m with ib := ib } sys arg0 arg1 arg2 arg3 arg4 arg5 arg6 arg7

/-- MR4 to MR9 stored behind `msg`, the byte offset of MR0. -/
def storeMrs (ib : IpcBuffer) (msg : Nat) (mr4 mr5 mr6 mr7 mr8 mr9 : Word) : IpcBuffer :=
  (((((ib.store (msg + 32) mr4).store (msg + 40) mr5).store (msg + 48) mr6).store (msg + 56) mr7).store (msg + 64) mr8).store
    (msg + 72) mr9

/-- `seL4_syscall_with_caps`: so many of the capabilities, and MR4 to MR9, go through the buffer. -/
def sel4SyscallWithCaps (sys arg0 arg1 arg2 arg3 arg4 arg5 arg6 arg7 mr4 mr5 mr6 mr7 mr8 mr9 : Word) (numCaps : Nat)
    (cap0 cap1 cap2 : Word) : Returned × Machine :=
  let ib := if 1 ≤ numCaps then m.ib.store 976 cap0 else m.ib
  let ib := if 2 ≤ numCaps then ib.store 984 cap1 else ib
  let ib := if 3 ≤ numCaps then ib.store 992 cap2 else ib
  sel4Syscall K { m with ib := storeMrs ib 8 mr4 mr5 mr6 mr7 mr8 mr9 } sys arg0 arg1 arg2 arg3 arg4 arg5 arg6 arg7

/-! ## Wrappers -/

def sel4Send (dest info : Word) : (Word × Word) × Machine :=
  let ((_status,tag,badge),m) := sysSend2 K m SYS_SEND dest info
  ((tag,badge),m)

def sel4NBSend (dest info : Word) : (Word × Word) × Machine :=
  let ((_status,tag,badge),m) := sysSend2 K m SYS_NBSEND dest info
  ((tag,badge),m)

/-- `seL4_Call`: the error and the tag. -/
def sel4Call (dest info : Word) : (Word × Word) × Machine :=
  let ((_status,tag,_badge),m) := sysSend2 K m SYS_CALL dest info
  ((tag >>> 12,tag),m)

/-- `seL4_Reply`: the message info is the one argument. -/
def sel4Reply (info : Word) : Machine := (sysSend1 K m SYS_REPLY info).2

/-- `seL4_Recv`: the tag and the badge; MR0 to MR3 go into the buffer. -/
def sel4Recv (src : Word) : (Word × Word) × Machine :=
  let m := m.trap K { m.cpu with rdx := SYS_RECV, rdi := src, rsi := 0 }
  let ib := (((m.ib.writeMr 0 m.cpu.r10).writeMr 1 m.cpu.r8).writeMr 2 m.cpu.r9).writeMr 3 m.cpu.r15
  ((m.cpu.rsi,m.cpu.rdi),{ m with ib := ib })

def sel4NBRecv (src : Word) : (Word × Word) × Machine :=
  let ((tag,badge,_),m) := sysSend2 K m SYS_NBRECV src 0
  ((tag,badge),m)

/-- `seL4_ReplyRecv`: the source takes the place of MR0. -/
def sel4ReplyRecv (dest info src : Word) : (Word × Word) × Machine :=
  let m := m.trap K { m.cpu with rdx := SYS_REPLY_RECV, rdi := dest, rsi := info, r10 := src }
  ((m.cpu.rdi,m.cpu.rsi),m)

def capInvoke (dest : Word) (label : BitVec 32) (mrs : List Word) : Word × Machine :=
  let info := (label.setWidth 64 <<< 12) ||| BitVec.ofNat 64 mrs.length
  let (r,m) := sel4SyscallWithBuf K { m with ib := fillMrs m.ib mrs 10 (min mrs.length 120) } SYS_CALL dest info
    (mrs.getD 0 0) (mrs.getD 1 0) (mrs.getD 2 0) 0 0 (mrs.getD 3 0)
    (mrs.getD 4 0) (mrs.getD 5 0) (mrs.getD 6 0) (mrs.getD 7 0) (mrs.getD 8 0) (mrs.getD 9 0)
  (r.tag >>> 12,m)

def capInvokeWithExtra (dest : Word) (label : BitVec 32) (mrs extraCaps : List Word) : Word × Machine :=
  let info := (label.setWidth 64 <<< 12) ||| (BitVec.ofNat 64 extraCaps.length <<< 7) ||| BitVec.ofNat 64 mrs.length
  let (r,m) := sel4SyscallWithCaps K m SYS_CALL dest info (mrs.getD 0 0) (mrs.getD 1 0) (mrs.getD 2 0) 0 0 (mrs.getD 3 0)
    (mrs.getD 4 0) (mrs.getD 5 0) (mrs.getD 6 0) (mrs.getD 7 0) (mrs.getD 8 0) (mrs.getD 9 0)
    extraCaps.length (extraCaps.getD 0 0) (extraCaps.getD 1 0) (extraCaps.getD 2 0)
  (r.tag >>> 12,m)

/-! ## What the kernel gets -/

theorem mrOf_buffer {i : Nat} (high : 4 ≤ i) (cpu : Cpu) (ib : IpcBuffer) : mrOf cpu ib i = ib.readMr i := by
  obtain ⟨j,rfl⟩ : ∃ j, i = j + 4 := ⟨i - 4,by omega⟩
  rfl

theorem mrOf_register {i : Nat} (low : i < 4) (cpu : Cpu) (ib ib' : IpcBuffer) : mrOf cpu ib i = mrOf cpu ib' i := by
  interval_cases i <;> rfl

private theorem readMr_fold (ib : IpcBuffer) (mrs : List Word) (start k : Nat) : ∀ n,
    ((List.range' start n).foldl (fun ib i => ib.writeMr i (mrs.getD i 0)) ib).readMr k =
      if start ≤ k ∧ k < start + n ∧ k < IPC_BUFFER_MSG_REGS then mrs.getD k 0 else ib.readMr k := by
  intro n
  induction n with
  | zero => simp; omega
  | succ n ih =>
    rw [List.range'_concat,List.foldl_append,List.foldl_cons,List.foldl_nil,readMr_writeMr,ih]
    by_cases here : k = start + 1 * n
    · subst here
      by_cases inside : start + 1 * n < IPC_BUFFER_MSG_REGS
      · rw [if_pos ⟨rfl,inside⟩,if_pos ⟨by omega,by omega,inside⟩]
      · rw [if_neg (fun wrong => inside wrong.2),if_neg (fun wrong => inside wrong.2.2),
          if_neg (fun wrong => inside wrong.2.2)]
    · have same : (start ≤ k ∧ k < start + (n + 1) ∧ k < IPC_BUFFER_MSG_REGS) ↔
          (start ≤ k ∧ k < start + n ∧ k < IPC_BUFFER_MSG_REGS) := by omega
      rw [if_neg (fun wrong => here wrong.1)]
      simp only [same]

theorem readMr_fillMrs (ib : IpcBuffer) (mrs : List Word) (start stop k : Nat) :
    (fillMrs ib mrs start stop).readMr k =
      if start ≤ k ∧ k < stop ∧ k < IPC_BUFFER_MSG_REGS then mrs.getD k 0 else ib.readMr k := by
  rw [fillMrs,readMr_fold]
  by_cases order : start ≤ stop
  · rw [show start + (stop - start) = stop by omega]
  · rw [if_neg (by omega),if_neg (by omega)]

/-- A message is presented when RSI holds its info word and every register of it is in its place. -/
theorem presented_iff {cpu : Cpu} {ib : IpcBuffer} {info : Word} {mrs : List Word}
    (announced : mrs.length = infoLength info) :
    presented (cpu,ib) = ⟨info,mrs⟩ ↔ cpu.rsi = info ∧ ∀ i < mrs.length, mrOf cpu ib i = mrs.getD i 0 := by
  simp only [presented,Presented.mk.injEq]
  constructor
  · rintro ⟨sameInfo,same⟩
    refine ⟨sameInfo,?_⟩
    intro i inside
    rw [← same] at inside ⊢
    have inRange : i < infoLength cpu.rsi := by simpa using inside
    simp [List.getD_eq_getElem?_getD,inRange]
  · rintro ⟨rfl,places⟩
    refine ⟨rfl,?_⟩
    apply List.ext_getElem
    · simp [announced]
    · intro i _ inside
      have place := places i inside
      simpa [List.getD_eq_getElem?_getD,List.getElem?_eq_getElem inside] using place

/-- Once a message has been written into the buffer, only its first four registers are at stake. -/
theorem filled_presented_iff {cpu : Cpu} {ib : IpcBuffer} {info : Word} {mrs : List Word}
    (announced : mrs.length = infoLength info) (fits : mrs.length ≤ 120) :
    presented (cpu,fillMrs ib mrs 0 mrs.length) = ⟨info,mrs⟩ ↔
      cpu.rsi = info ∧ ∀ i < 4, i < mrs.length → mrOf cpu ib i = mrs.getD i 0 := by
  rw [presented_iff announced]
  refine and_congr_right fun _ => ?_
  constructor
  · intro places i low inside
    rw [mrOf_register low cpu ib (fillMrs ib mrs 0 mrs.length)]
    exact places i inside
  · intro places i inside
    by_cases low : i < 4
    · rw [mrOf_register low cpu _ ib]
      exact places i low inside
    · rw [mrOf_buffer (by omega),readMr_fillMrs,if_pos ⟨by omega,inside,Nat.lt_of_lt_of_le inside fits⟩]

/-- A wrapper that carries a message, with what else it takes. -/
inductive SendCall where
  | send (dest : Word)
  | nbSend (dest : Word)
  | call (dest : Word)
  | reply
  | replyRecv (dest src : Word)
  deriving DecidableEq

def SendCall.run (info : Word) : SendCall → Machine
  | .send dest => (sel4Send K m dest info).2
  | .nbSend dest => (sel4NBSend K m dest info).2
  | .call dest => (sel4Call K m dest info).2
  | .reply => sel4Reply K m info
  | .replyRecv dest src => (sel4ReplyRecv K m dest info src).2

def SendCall.loads (cpu : Cpu) (info : Word) : SendCall → Cpu
  | .send dest => { cpu with rdx := SYS_SEND, rdi := dest, rsi := info }
  | .nbSend dest => { cpu with rdx := SYS_NBSEND, rdi := dest, rsi := info }
  | .call dest => { cpu with rdx := SYS_CALL, rdi := dest, rsi := info }
  | .reply => { cpu with rdx := SYS_REPLY, rdi := info }
  | .replyRecv dest src => { cpu with rdx := SYS_REPLY_RECV, rdi := dest, rsi := info, r10 := src }

theorem run_entries (c : SendCall) (info : Word) :
    (c.run K m info).entries = m.entries ++ [(c.loads m.cpu info,m.ib)] := by
  cases c <;> rfl

/-- The call presents the message to the kernel, in a single system call. -/
def Presents (c : SendCall) (info : Word) (mrs : List Word) : Prop :=
  ∃ entry, (c.run K m info).entries = m.entries ++ [entry] ∧ presented entry = ⟨info,mrs⟩

theorem presents_iff {c : SendCall} {info : Word} {mrs : List Word} {cpu : Cpu} {ib : IpcBuffer}
    {entries : List (Cpu × IpcBuffer)} (announced : mrs.length = infoLength info) (fits : mrs.length ≤ 120) :
    Presents K ⟨cpu,fillMrs ib mrs 0 mrs.length,entries⟩ c info mrs ↔
      (c.loads cpu info).rsi = info ∧ ∀ i < 4, i < mrs.length → mrOf (c.loads cpu info) ib i = mrs.getD i 0 := by
  rw [← filled_presented_iff announced fits]
  constructor
  · rintro ⟨entry,entered,isMessage⟩
    rw [run_entries] at entered
    rwa [← List.singleton_inj.mp (List.append_cancel_left entered)] at isMessage
  · intro isMessage
    exact ⟨_,run_entries K _ c info,isMessage⟩

/-- The messages that a call carries whatever is left in the registers that it does not load. -/
def SendCall.Carries (mrs : List Word) : SendCall → Prop
  | .send _ | .nbSend _ | .call _ => mrs = []
  | .reply => False
  | .replyRecv _ src => mrs = [] ∨ mrs = [src]

def Cpu.filled (w : Word) : Cpu :=
  { rax := w, rdx := w, rdi := w, rsi := w, r10 := w, r8 := w, r9 := w, r12 := w, r13 := w, r15 := w }

private theorem succ_ne (w : Word) : w + 1 ≠ w := by bv_omega

/-- For every call, message and buffer: after the message has been written into the buffer, the call
    presents exactly this message, whatever the registers held before, exactly when the message is
    one of those that the call carries. -/
theorem message_presented_iff (c : SendCall) (info : Word) (mrs : List Word) (ib : IpcBuffer)
    (announced : mrs.length = infoLength info) (fits : mrs.length ≤ 120) :
    (∀ cpu entries, Presents K ⟨cpu,fillMrs ib mrs 0 mrs.length,entries⟩ c info mrs) ↔ c.Carries mrs := by
  simp only [presents_iff K announced fits]
  constructor
  · intro always
    cases c with
    | reply => exact succ_ne info (always (Cpu.filled (info + 1)) []).1
    | replyRecv dest src =>
      cases mrs with
      | nil => exact .inl rfl
      | cons w rest =>
        have first : src = w := (always (Cpu.filled 0) []).2 0 (by omega) (by simp)
        cases rest with
        | nil => exact .inr (by rw [first])
        | cons v rest => exact absurd ((always (Cpu.filled (v + 1)) []).2 1 (by omega) (by simp)) (succ_ne v)
    | _ =>
      cases mrs with
      | nil => rfl
      | cons w rest => exact absurd ((always (Cpu.filled (w + 1)) []).2 0 (by omega) (by simp)) (succ_ne w)
  · intro carries cpu entries
    cases c with
    | reply => exact carries.elim
    | replyRecv dest src =>
      refine ⟨rfl,?_⟩
      intro i low inside
      rcases carries with rfl | rfl
      · simp at inside
      · obtain rfl : i = 0 := by simpa using inside
        rfl
    | _ =>
      refine ⟨rfl,?_⟩
      intro i low inside
      rw [carries] at inside
      simp at inside

/-- A reply of one register that happens to name the source of the receive. -/
theorem message_presented_source : [7#64].length = infoLength 1 ∧ [7#64].length ≤ 120 ∧
    ((∀ cpu entries, Presents (fun cpu ib => (cpu,ib)) ⟨cpu,fillMrs IpcBuffer.new [7#64] 0 1,entries⟩
      (.replyRecv 3 7) 1 [7#64]) ↔ SendCall.Carries [7#64] (.replyRecv 3 7)) :=
  ⟨rfl,by decide,message_presented_iff _ _ _ _ _ rfl (by decide)⟩

/-- A call with the request number 1 in MR0, made while R10 holds 0: the kernel gets 0. -/
theorem call_loses_request : ¬ Presents (fun cpu ib => (cpu,ib)) ⟨Cpu.filled 0,fillMrs IpcBuffer.new [1#64] 0 1,[]⟩
    (.call 100) 1 [1#64] := by
  intro presents
  have short : [1#64].length ≤ 120 := by decide
  obtain ⟨_,places⟩ := (presents_iff _ (show [1#64].length = infoLength 1 from rfl) short).mp presents
  exact absurd (places 0 (by omega) (by decide)) (by decide)

/-! ## What the caller gets -/

/-- A wrapper that gives back a message, with its arguments. -/
inductive RecvCall where
  | recv (src : Word)
  | nbRecv (src : Word)
  | replyRecv (dest info src : Word)
  | call (dest info : Word)
  deriving DecidableEq

def RecvCall.run : RecvCall → (Word × Word) × Machine
  | .recv src => sel4Recv K m src
  | .nbRecv src => sel4NBRecv K m src
  | .replyRecv dest info src => sel4ReplyRecv K m dest info src
  | .call dest info => sel4Call K m dest info

/-- The pair that stands for what the kernel returned: tag and badge, for a call the error and the tag. -/
def RecvCall.pair (ret : Cpu) : RecvCall → Word × Word
  | .call .. => (ret.rsi >>> 12,ret.rsi)
  | _ => (ret.rsi,ret.rdi)

/-- When the kernel returns registers `ret` and buffer `ib`, the caller gets the pair that stands for
    them and can read MR0 to MR3 in its buffer. -/
def Reported (c : RecvCall) (ret : Cpu) (ib : IpcBuffer) : Prop :=
  let after := c.run (fun _ _ => (ret,ib)) m
  after.1 = c.pair ret ∧ ∀ i < 4, after.2.ib.readMr i = mrOf ret ib i

/-- MR0 to MR3 are already in the buffer. -/
def Stored (ret : Cpu) (ib : IpcBuffer) : Prop := ∀ i < 4, ib.readMr i = mrOf ret ib i

/-- What has to hold of the kernel's results for a wrapper to report them. -/
def RecvCall.Needs (ret : Cpu) (ib : IpcBuffer) : RecvCall → Prop
  | .recv _ => True
  | .nbRecv _ => ret.rax = ret.rsi ∧ Stored ret ib
  | .replyRecv .. | .call .. => ret.rdi = ret.rsi ∧ Stored ret ib

/-- For all registers and buffers that the kernel may return: `seL4_Recv` reports them, the other
    wrappers exactly when what they take for the tag is equal to it and the registers are in the
    buffer already. -/
theorem result_reported_iff (c : RecvCall) (ret : Cpu) (ib : IpcBuffer) : Reported m c ret ib ↔ c.Needs ret ib := by
  cases c with
  | recv src =>
    refine iff_of_true ⟨rfl,?_⟩ trivial
    intro i low
    rcases (by omega : i = 0 ∨ i = 1 ∨ i = 2 ∨ i = 3) with rfl | rfl | rfl | rfl
    all_goals simp [RecvCall.run,sel4Recv,Machine.trap,readMr_writeMr,IPC_BUFFER_MSG_REGS,mrOf]
  | nbRecv src =>
    have pair : ((ret.rax,ret.rdi) = (ret.rsi,ret.rdi)) ↔ ret.rax = ret.rsi := by simp
    exact and_congr pair Iff.rfl
  | replyRecv dest info src =>
    have pair : ((ret.rdi,ret.rsi) = (ret.rsi,ret.rdi)) ↔ ret.rdi = ret.rsi := by
      rw [Prod.mk.injEq]
      exact ⟨And.left,fun same => ⟨same,same.symm⟩⟩
    exact and_congr pair Iff.rfl
  | call dest info =>
    have pair : ((ret.rdi >>> 12,ret.rdi) = (ret.rsi >>> 12,ret.rsi)) ↔ ret.rdi = ret.rsi := by
      rw [Prod.mk.injEq]
      exact ⟨And.right,fun same => ⟨by rw [same],same⟩⟩
    exact and_congr pair Iff.rfl

/-- A reply of one register 7 to a caller without a badge: the call returns the tag 0, and MR0 reads as 0. -/
theorem call_loses_reply :
    sel4Call (fun cpu ib => ({ cpu with rdi := 0, rsi := 1, r10 := 7 },ib)) ⟨Cpu.filled 0,IpcBuffer.new,[]⟩ 100 1 =
      ((0,0),⟨{ Cpu.filled 0 with rdx := SYS_CALL, rdi := 0, rsi := 1, r10 := 7 },IpcBuffer.new,
        [({ Cpu.filled 0 with rdx := SYS_CALL, rdi := 100, rsi := 1 },IpcBuffer.new)]⟩) ∧
    ¬ Reported ⟨Cpu.filled 0,IpcBuffer.new,[]⟩ (.call 100 1) { Cpu.filled 0 with rsi := 1, r10 := 7 } IpcBuffer.new := by
  refine ⟨rfl,?_⟩
  rintro ⟨pair,_⟩
  have tag : (0 : Word) = 1 := congrArg Prod.snd pair
  exact absurd tag (by decide)

/-! ## Capability invocations -/

/-- The info word that capability invocations pack. -/
def packedInfo (label : BitVec 32) (caps n : Nat) : Word :=
  (label.setWidth 64 <<< 12) ||| (BitVec.ofNat 64 caps <<< 7) ||| BitVec.ofNat 64 n

theorem packedInfo_toNat (label : BitVec 32) {caps n : Nat} (few : caps < 32) (short : n < 128) :
    (packedInfo label caps n).toNat = label.toNat * 4096 + caps * 128 + n := by
  have bound := label.isLt
  have first : (label.setWidth 64 <<< 12).toNat = 2 ^ 12 * label.toNat := by
    rw [BitVec.toNat_shiftLeft,BitVec.toNat_setWidth,Nat.shiftLeft_eq]
    omega
  have second : (BitVec.ofNat 64 caps <<< 7).toNat = caps * 128 := by
    rw [BitVec.toNat_shiftLeft,BitVec.toNat_ofNat,Nat.shiftLeft_eq]
    omega
  have third : (BitVec.ofNat 64 n).toNat = n := by rw [BitVec.toNat_ofNat,Nat.mod_eq_of_lt (by omega)]
  have upper : 2 ^ 12 * label.toNat ||| caps * 128 = 2 ^ 7 * (label.toNat * 32 + caps) := by
    rw [← Nat.two_pow_add_eq_or_of_lt (by omega)]
    omega
  rw [packedInfo,BitVec.toNat_or,BitVec.toNat_or,first,second,third,upper,← Nat.two_pow_add_eq_or_of_lt (by omega)]
  omega

theorem packedInfo_fields (label : BitVec 32) {caps n : Nat} (few : caps < 32) (short : n < 128) :
    infoLabel (packedInfo label caps n) = label ∧ infoLength (packedInfo label caps n) = n ∧
      infoExtraCaps (packedInfo label caps n) = caps := by
  have value := packedInfo_toNat label few short
  have bound := label.isLt
  have seven : ∀ k, k &&& 127 = k % 128 := fun k => Nat.and_two_pow_sub_one_eq_mod k 7
  have five : ∀ k, k &&& 31 = k % 32 := fun k => Nat.and_two_pow_sub_one_eq_mod k 5
  refine ⟨?_,?_,?_⟩
  · apply BitVec.eq_of_toNat_eq
    rw [infoLabel,BitVec.toNat_setWidth,BitVec.toNat_ushiftRight,value,Nat.shiftRight_eq_div_pow]
    omega
  · rw [infoLength,BitVec.toNat_and,value]
    change _ &&& 127 = n
    rw [seven]
    omega
  · rw [infoExtraCaps,BitVec.toNat_and,BitVec.toNat_ushiftRight,value,Nat.shiftRight_eq_div_pow]
    change _ &&& 31 = caps
    rw [five]
    omega

theorem infoLength_label (label : BitVec 32) {n : Nat} (small : n < 128) :
    infoLength ((label.setWidth 64 <<< 12) ||| BitVec.ofNat 64 n) = n := by
  have without : (label.setWidth 64 <<< 12) ||| BitVec.ofNat 64 n = packedInfo label 0 n := by simp [packedInfo]
  rw [without]
  exact (packedInfo_fields label (by decide) small).2.1

/-- Unlike the plain wrappers, `cap_invoke` presents its message in full. -/
theorem capInvoke_presents (dest : Word) (label : BitVec 32) {mrs : List Word} (fits : mrs.length ≤ 120) :
    ∃ entry, (capInvoke K m dest label mrs).2.entries = m.entries ++ [entry] ∧ entry.1.rdi = dest ∧
      presented entry = ⟨(label.setWidth 64 <<< 12) ||| BitVec.ofNat 64 mrs.length,mrs⟩ := by
  refine ⟨_,rfl,rfl,?_⟩
  rw [presented_iff (infoLength_label label (by omega)).symm]
  refine ⟨rfl,?_⟩
  intro i inside
  by_cases register : i < 4
  · rcases (by omega : i = 0 ∨ i = 1 ∨ i = 2 ∨ i = 3) with rfl | rfl | rfl | rfl
    all_goals rfl
  · have position : i < IPC_BUFFER_MSG_REGS := Nat.lt_of_lt_of_le inside fits
    rw [mrOf_buffer (by omega)]
    by_cases low : i < 10
    · rcases (by omega : i = 4 ∨ i = 5 ∨ i = 6 ∨ i = 7 ∨ i = 8 ∨ i = 9) with rfl | rfl | rfl | rfl | rfl | rfl
      all_goals simp [readMr_writeMr,IPC_BUFFER_MSG_REGS]
    · simp only [readMr_writeMr,readMr_fillMrs]
      rw [if_neg (by omega),if_neg (by omega),if_neg (by omega),if_neg (by omega),if_neg (by omega),if_neg (by omega),
        if_pos ⟨by omega,by omega,position⟩]

end Sel4Linux.Abi
