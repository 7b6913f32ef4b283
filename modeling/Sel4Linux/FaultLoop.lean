import Sel4Linux.Emulation
import Sel4Linux.Slots
import Sel4Linux.Tcb

/-!
The fault loop of the root task (`test_busybox` in `root-task/src/main.rs`). A
round takes the fault message of a thread, maps the page it misses or answers
its syscall, and lets a thread go on. One guest thread runs at a time: a fork
stops the parent and starts the prepared child thread in its place, and the end
of the child brings the parent back. What the kernel answers in a round, and
what the guest has done to memory and registers before it, comes with the round.
-/
namespace Sel4Linux.FaultLoop
open Sel4Linux.Bytes Sel4Linux.Ipc Sel4Linux.TaskMem Sel4Linux.Client Sel4Linux.Slots Sel4Linux.Tcb Sel4Linux.Emulation
open Sel4Linux.Runs
set_option linter.unusedSimpArgs false

/-- `init_slots`. -/
def CNODE : Word := 2
def VSPACE : Word := 3

/-- `ObjectType`. -/
def FRAME_4K : Word := 8
def PAGE_TABLE : Word := 10

/-- `CapRights::ALL`. -/
def ALL_RIGHTS : Word := 15

/-- `child_pid`. -/
def CHILD_PID : Word := 42

def MAX_FAULTS : Nat := 100000

/-- What stays as it is while the loop runs. -/
structure Setup where
  bi : BootInfo
  busyboxTcb : Word
  childTcbSlot : Word
  utFound : Nat

/-- The loop's variables on memory and on fork. -/
structure Process where
  brkCur : Word
  mmapCur : Word
  activeTcb : Word
  isChild : Bool
  parentRegs : Option Regs
  parentBrk : Word
  parentMmap : Word
  deriving DecidableEq

/-- The state between two rounds; `left` once the loop has been left. -/
structure State (ω : Type) where
  faultCount : Nat
  childExited : Bool
  process : Process
  allocator : ObjectAllocator
  lcl : Lcl ω
  left : Bool

/-- A step of the loop that reaches outside: an invocation with the error that the kernel answers, a
    reply to the faulting thread, a page filled with zeros. -/
inductive Action where
  | invoke (inv : Invocation) (err : Word)
  | reply (info : Word)
  | zero (page : Word)
  deriving DecidableEq

/-- What a round gets: the fault message, the registers of the threads, the kernel's error for each
    invocation of the round in order, the memory as the guest has left it, and what COM1 gives. -/
structure Round where
  tag : Word
  ib : IpcBuffer
  readRegisters : Word → Word × Regs
  answers : Nat → Word
  mem : Mem
  port : List (Word × Byte)

/-- How the handling of a fault goes on: with the end of the round, with the next round, or out of the loop. -/
inductive Flow where
  | next (alreadyResumed : Bool)
  | again
  | leave

/-- A handled fault. -/
structure Handled (ω : Type) where
  actions : List Action
  mem : Mem
  state : State ω
  flow : Flow

/-- A served syscall, before RAX and RIP are written. -/
structure Served (ω : Type) where
  retVal : Word
  resumed : Bool
  actions : List Action
  mem : Mem
  state : State ω

/-- What a round has done. -/
structure Output where
  actions : List Action
  mem : Mem

variable {ω : Type} (cfg : Setup) (K : Kernel ω) (s : State ω) (r : Round)

/-- `OBJ_ALLOCATOR.lock().alloc().unwrap()`. -/
def takeSlot : Except Stop (Word × State ω) :=
  match s.allocator.alloc with
  | (some slot,allocator) => .ok (slot,{ s with allocator := allocator })
  | (none,_) => .error (.fault .unwrap)

/-- 4096 zero bytes from `page` on. -/
def zeroPage (mem : Mem) (page : Word) : Mem := fun a => if pageVaddr a = page then 0 else mem a

/-! ## Page faults -/

/-- `kill_child`: after the actions `done`, the faulting thread gets its reply, the first thread is
    suspended and the loop is left. -/
def killChild (done : List Action) : Handled ω :=
  { actions := done ++ [.reply 0,.invoke (tcbSuspend cfg.busyboxTcb) (r.answers done.length)], mem := r.mem, state := s,
    flow := .leave }

/-- The page is mapped: it is filled with zeros. -/
def fillPage (done : List Action) (page : Word) : Handled ω :=
  { actions := done ++ [.zero page], mem := zeroPage r.mem page, state := s, flow := .next false }

/-- The first attempt at a page has failed: a page table is mapped before the second one. -/
def mapWithTable (done : List Action) (page : Word) (map : Invocation) : Except Stop (Handled ω) :=
  match cfg.bi.findFreeUntyped 12 with
  | none => .ok (killChild cfg s r done)
  | some (ptUt,_) => do
    let (ptSlot,s) ← takeSlot s
    let done := done ++ [.invoke (untypedRetype ptUt PAGE_TABLE 12 CNODE CNODE 64 ptSlot 1) (r.answers 2)]
    if r.answers 2 = 0 then
      let done := done ++ [.invoke (pageTableMap ptSlot VSPACE (page &&& ~~~0x1FFFFF#64) 0) (r.answers 3),
        .invoke map (r.answers 4)]
      if r.answers 4 = 0 then .ok (fillPage s r done page) else .ok (killChild cfg s r done)
    else .ok (killChild cfg s r done)

/-- VMFault: MR1 is the address. -/
def vmFault : Except Stop (Handled ω) :=
  let page := pageVaddr (r.ib.readMr 1)
  if page < 0x1000 then .ok (killChild cfg s r [])
  else
    match cfg.bi.findFreeUntyped 12 with
    | none => .ok { actions := [], mem := r.mem, state := s, flow := .next false }
    | some (ut,_) => do
      let (frameSlot,s) ← takeSlot s
      let done := [Action.invoke (untypedRetype ut FRAME_4K 12 CNODE CNODE 64 frameSlot 1) (r.answers 0)]
      if r.answers 0 = 0 then
        let map := frameMap frameSlot VSPACE page ALL_RIGHTS 0
        let done := done ++ [.invoke map (r.answers 1)]
        if r.answers 1 = 0 then .ok (fillPage s r done page) else mapWithTable cfg s r done page map
      else .ok { actions := done, mem := r.mem, state := s, flow := .next false }

/-! ## Other faults -/

/-- CapFault: a `syscall` instruction at MR0 becomes a breakpoint, and the first thread goes on. -/
def capFault : Handled ω :=
  let faultIp := r.ib.readMr 0
  if faultIp ≠ 0 ∧ faultIp ≠ BitVec.allOnes 64 ∧ r.mem faultIp = 0x0F ∧ r.mem (faultIp + 1) = 0x05 then
    let regs := (r.readRegisters cfg.busyboxTcb).2
    { actions := [.invoke (tcbWriteRegisters cfg.busyboxTcb true 0 20 regs.toList) (r.answers 0)],
      mem := storeBytes r.mem faultIp [0xCC,0x90], state := s, flow := .next true }
  else { actions := [], mem := r.mem, state := s, flow := .next false }

/-- UserException: the first thread is suspended for good. -/
def userException : Handled ω :=
  { actions := [.invoke (tcbSuspend cfg.busyboxTcb) (r.answers 0)], mem := r.mem,
    state := { s with childExited := true }, flow := .next true }

/-! ## Syscalls on processes and memory -/

/-- A fork: the caller's registers and cursors are saved, the child thread is the active one. -/
def Process.fork (p : Process) (regs : Regs) : Process :=
  { p with activeTcb := cfg.childTcbSlot, isChild := true, parentRegs := some regs, parentBrk := p.brkCur,
           parentMmap := p.mmapCur }

/-- The end of a child: the first thread is the active one again, with the saved cursors. -/
def Process.restore (p : Process) : Process :=
  { p with brkCur := p.parentBrk, mmapCur := p.parentMmap, activeTcb := cfg.busyboxTcb, isChild := false,
           parentRegs := none }

/-- `mmap_cur += len.max(0x1000)` with the length rounded up to pages. -/
def Process.mmap (p : Process) (length : Word) : Process :=
  let len := (length + 0xFFF) &&& ~~~0xFFF#64
  { p with mmapCur := p.mmapCur + (if len < 0x1000 then 0x1000 else len) }

/-- `brk_cur = rdi`, unless the break is only asked for. -/
def Process.brk (p : Process) (rdi : Word) : Process := if rdi = 0 then p else { p with brkCur := rdi }

/-- The caller's frame after a syscall: RAX is the result, RIP is past the instruction. -/
def afterSyscall (regs : Regs) (retVal : Word) : Regs := setResult regs ((generalRegisters regs).rip + 2) retVal

/-- clone and fork. -/
def forkCall (regs : Regs) : Served ω :=
  if 2 ≤ cfg.utFound then
    { retVal := CHILD_PID, resumed := true, mem := r.mem, state := { s with process := s.process.fork cfg regs },
      actions :=
        [.invoke (tcbWriteRegisters cfg.childTcbSlot false 0 20 (afterSyscall regs 0).toList) (r.answers 0),
          .invoke (tcbResume cfg.childTcbSlot) (r.answers 1)] }
  else { retVal := negative 38, resumed := false, actions := [], mem := r.mem, state := s }

/-- The end of a child: the active thread is suspended, the first one goes on after its fork. -/
def endChild : Except Stop (Served ω) :=
  match s.process.parentRegs with
  | none => .error (.fault .unwrap)
  | some pRegs =>
    .ok { retVal := 0, resumed := true, mem := r.mem, state := { s with process := s.process.restore cfg },
          actions :=
            [.invoke (tcbSuspend s.process.activeTcb) (r.answers 0),
              .invoke (tcbWriteRegisters cfg.busyboxTcb false 0 18 (afterSyscall pRegs CHILD_PID).toList) (r.answers 1),
              .invoke (tcbResume cfg.busyboxTcb) (r.answers 2)] }

/-- execve: the command is run by the loop itself, and a child ends with it. -/
def execveCall : Except Stop (Served ω) :=
  if s.process.isChild then endChild cfg s r
  else .ok { retVal := 0, resumed := false, actions := [], mem := r.mem, state := s }

/-- exit and exit_group. -/
def exitCall : Except Stop (Served ω) :=
  if s.process.isChild then endChild cfg s r
  else .ok { retVal := 0, resumed := true, actions := [.invoke (tcbSuspend s.process.activeTcb) (r.answers 0)], mem := r.mem,
             state := { s with childExited := true } }

def wait4Call (rsi : Word) : Served ω :=
  if s.process.isChild then { retVal := negative 10, resumed := false, actions := [], mem := r.mem, state := s }
  else { retVal := CHILD_PID, resumed := false, actions := [], state := s,
         mem := if rsi = 0 then r.mem else storeBytes r.mem rsi [0,0,0,0] }

def mmapCall (rsi : Word) : Served ω :=
  { retVal := s.process.mmapCur, resumed := false, actions := [], mem := r.mem,
    state := { s with process := s.process.mmap rsi } }

def brkCall (rdi : Word) : Served ω :=
  { retVal := (s.process.brk rdi).brkCur, resumed := false, actions := [], mem := r.mem,
    state := { s with process := s.process.brk rdi } }

/-- arch_prctl: sets or reports the thread's segment base, word 18 of its frame. -/
def archPrctlCall (regs : Regs) (rdi rsi : Word) : Served ω :=
  if rdi = 0x1002 then
    { retVal := 0, resumed := false, actions := [.invoke (tcbSetTLSBase s.process.activeTcb rsi) (r.answers 0)], mem := r.mem,
      state := s }
  else if rdi = 0x1003 then
    { retVal := 0, resumed := false, actions := [], mem := storeBytes r.mem rsi (leBytes (fsBase regs)), state := s }
  else { retVal := 0, resumed := false, actions := [], mem := r.mem, state := s }

/-- The syscalls on processes and memory, and all others. -/
inductive Request where
  | mmap (length : Word)
  | brk (addr : Word)
  | fork
  | execve
  | exit (code : Word)
  | wait4 (status : Word)
  | archPrctl (code addr : Word)
  | other
  deriving DecidableEq

/-- The syscall that the registers ask for. -/
def request (regs : Regs) : Request :=
  let rdi := (generalRegisters regs).rdi
  let rsi := (generalRegisters regs).rsi
  match (generalRegisters regs).rax.toNat with
  | 9 => .mmap rsi
  | 12 => .brk rdi
  | 56 | 57 => .fork
  | 59 => .execve
  | 60 | 231 => .exit rdi
  | 61 => .wait4 rsi
  | 158 => .archPrctl rdi rsi
  | _ => .other

/-- The answer to a syscall. -/
def serve (regs : Regs) : Except Stop (Served ω) :=
  match request regs with
  | .mmap length => .ok (mmapCall s r length)
  | .brk addr => .ok (brkCall s r addr)
  | .fork => .ok (forkCall cfg s r regs)
  | .execve => execveCall cfg s r
  | .exit _ => exitCall cfg s r
  | .wait4 status => .ok (wait4Call s r status)
  | .archPrctl code addr => .ok (archPrctlCall s r regs code addr)
  | .other => do
    let caller := generalRegisters regs
    let (retVal,w) ← emulate K ⟨s.lcl,r.mem,r.port⟩ caller.rax caller.rdi caller.rsi caller.rdx
    .ok { retVal := retVal, resumed := false, actions := [], mem := w.mem, state := { s with lcl := w.lcl } }

/-- The array of registers as the branch of a syscall leaves it: word 18 keeps up with the segment base that
    arch_prctl sets. -/
def regsAfter (regs : Regs) : Regs :=
  match request regs with
  | .archPrctl code addr => if code = 0x1002 then setWord regs 18 addr else regs
  | _ => regs

/-- UnknownSyscall: unless another thread goes on, the active one gets its result and its reply. -/
def unknownSyscall : Except Stop (Handled ω) :=
  let (err,regs) := r.readRegisters s.process.activeTcb
  if err ≠ 0 then .ok { actions := [], mem := r.mem, state := s, flow := .again }
  else do
    let served ← serve cfg K s r regs
    if served.resumed then
      .ok { actions := served.actions, mem := served.mem, state := served.state, flow := .next true }
    else
      let written :=
        tcbWriteRegisters served.state.process.activeTcb false 0 18 (afterSyscall (regsAfter regs) served.retVal).toList
      .ok { actions := served.actions ++ [.invoke written (r.answers served.actions.length),.reply 0], mem := served.mem,
            state := served.state, flow := .next true }

/-! ## The loop -/

/-- `label & 0xf`. -/
def faultType (tag : Word) : Nat := ((tag >>> 12).setWidth 32 &&& 0xF#32).toNat

/-- The handling of a fault by its type. -/
def handle : Except Stop (Handled ω) :=
  match faultType r.tag with
  | 4 | 5 => vmFault cfg s r
  | 1 => .ok (capFault cfg s r)
  | 2 => unknownSyscall cfg K s r
  | 3 => .ok (userException cfg s r)
  | _ => .ok { actions := [], mem := r.mem, state := s, flow := .next false }

/-- A round of the loop. -/
def faultRound (s : State ω) (r : Round) : Except Stop (Output × State ω) :=
  if s.left then .error .left
  else
    let s := { s with faultCount := s.faultCount + 1 }
    if MAX_FAULTS < s.faultCount then .ok (⟨[],r.mem⟩,{ s with left := true })
    else do
      let h ← handle cfg K s r
      match h.flow with
      | .again => .ok (⟨h.actions,h.mem⟩,h.state)
      | .leave => .ok (⟨h.actions,h.mem⟩,{ h.state with left := true })
      | .next resumed =>
        if h.state.childExited then .ok (⟨h.actions,h.mem⟩,{ h.state with left := true })
        else if resumed then .ok (⟨h.actions,h.mem⟩,h.state)
        else .ok (⟨h.actions ++ [.reply 0],h.mem⟩,h.state)

/-- The state in which the loop starts. -/
def start (allocator : ObjectAllocator) (lcl : Lcl ω) : State ω :=
  { faultCount := 0, childExited := false, allocator := allocator, lcl := lcl, left := false,
    process := { brkCur := 0x07000000, mmapCur := 0x10000000, activeTcb := cfg.busyboxTcb, isChild := false,
                 parentRegs := none, parentBrk := 0x07000000, parentMmap := 0x10000000 } }

end Sel4Linux.FaultLoop
