import Sel4Linux.FsClient
import Sel4Linux.TaskMem

/-!
A task of the Linux layer (`lcl/src/task/mod.rs`) and the syscalls that need
nothing but the task: memory (`mm.rs`), threads (`thread.rs`), system information
(`sys.rs`) and signals (`signal.rs`). A syscall gets the task as it is and gives
it back with the result.
-/
namespace Sel4Linux.Task
open Sel4Linux.Bytes Sel4Linux.Utf8 Sel4Linux.TaskMem Sel4Linux.Client
open Sel4Linux.Ext4 (Errno)
set_option linter.unusedSimpArgs false

def DEF_HEAP_ADDR : Word := 0x70000000

structure SignalAction where
  handler : Word
  flags : BitVec 32
  mask : Word
  deriving DecidableEq

structure TaskSignal where
  pending : Word
  mask : Word
  actions : List SignalAction
  deriving DecidableEq

def TaskSignal.new : TaskSignal := { pending := 0, mask := 0, actions := List.replicate 65 ⟨0,0,0⟩ }

/-- `Sel4Task`, with the end of the heap and the page tables of its memory. -/
structure Sel4Task where
  pid : Word
  tid : Word
  tcb : Word
  exit : Option (BitVec 32)
  clearChildTid : Word
  entry : Word
  taskVmEnd : Word
  mem : TaskMemInfo
  heap : Word
  mappedPt : List Word
  signal : TaskSignal

/-- `Sel4Task::new`, with the number and the slot that it takes. -/
def Sel4Task.new (tid tcb : Word) : Sel4Task :=
  { pid := tid, tid := tid, tcb := tcb, exit := none, clearChildTid := 0, entry := 0, taskVmEnd := 0,
    mem := TaskMemInfo.default, heap := DEF_HEAP_ADDR, mappedPt := [], signal := TaskSignal.new }

abbrev TaskMap := Word → Option Sel4Task

def TaskMap.insert (map : TaskMap) (tid : Word) (task : Sel4Task) : TaskMap := fun other =>
  if other = tid then some task else map other

variable (task : Sel4Task)

/-- `write_bytes`, which never fails. -/
def Sel4Task.write (addr : Word) (data : List Byte) : Sel4Task :=
  { task with mem := (task.mem.writeBytes addr data).2 }

/-- `map_blank_page_simple` for each of some pages. -/
def Sel4Task.mapBlank (pages : List Word) : Sel4Task := { task with mem := task.mem.mapBlankPages pages }

def Sel4Task.clearMapped : Sel4Task := { task with mem := task.mem.clearPages, mappedPt := [] }

def Sel4Task.exitWith (code : BitVec 32) : Sel4Task :=
  let task := { task with exit := some code }
  if task.clearChildTid = 0 then task else task.write task.clearChildTid [0,0,0,0]

/-! ## Memory -/

def sysBrk (newBrk : Word) : SysResult × Sel4Task :=
  if newBrk = 0 then (.ok task.heap,task)
  else
    let oldHeap := task.heap
    let task := { task with heap := newBrk }
    let stop := pageVaddr (newBrk + BitVec.ofNat 64 (PAGE_SIZE - 1))
    (.ok newBrk,if oldHeap < newBrk then task.mapBlank (pageRange (pageVaddr oldHeap) stop) else task)

def sysMmap (addr length _prot : Word) : SysResult × Sel4Task :=
  let pages := (length + BitVec.ofNat 64 (PAGE_SIZE - 1)) / BitVec.ofNat 64 PAGE_SIZE
  let start :=
    if addr = 0 then task.mem.findFreeArea task.taskVmEnd 0x100000 (pages * BitVec.ofNat 64 PAGE_SIZE) else pageVaddr addr
  (.ok start,task.mapBlank ((List.range pages.toNat).map fun i => start + BitVec.ofNat 64 (i * PAGE_SIZE)))

def sysMunmap (addr length : Word) : SysResult × Sel4Task :=
  let stop := pageVaddr (addr + length + BitVec.ofNat 64 (PAGE_SIZE - 1))
  (.ok 0,{ task with mem := task.mem.removePages (pageRange (pageVaddr addr) stop) })

/-! ## Threads and system information -/

def sysGetpid : SysResult × Sel4Task := (.ok task.pid,task)

def sysSetTidAddress (addr : Word) : SysResult × Sel4Task := (.ok task.tid,{ task with clearChildTid := addr })

/-- `sys_exit` and `sys_exit_group`. -/
def sysExit (exitCode : BitVec 32) : SysResult × Sel4Task := (.ok 0,task.exitWith (exitCode <<< 8))

def sysUname (bufAddr : Word) : SysResult × Sel4Task :=
  (.ok 0,task.write bufAddr (utsField ['L','i','n','u','x'] ++ utsField ['l','c','l'] ++
    utsField ['6','.','1','.','0','-','l','c','l'] ++ utsField ['#','1',' ','S','M','P',' ','x','8','6','_','6','4'] ++
    utsField ['x','8','6','_','6','4'] ++ utsField []))

/-- `sys_gettimeofday` and `sys_clock_gettime`: two words of zeros. -/
def sysZeroTime (addr : Word) : SysResult × Sel4Task := (.ok 0,(task.write addr (leBytes 0)).write (addr + 8) (leBytes 0))

/-! ## Signals -/

def sysSigprocmask (how : BitVec 32) (setAddr oldAddr : Word) : SysResult × Sel4Task :=
  let mask := task.signal.mask
  let task := if oldAddr = 0 then task else task.write oldAddr (leBytes mask)
  if setAddr = 0 then (.ok 0,task)
  else
    let newMask := packWord ((task.mem.readBytes setAddr (List.replicate 8 0)).getD (List.replicate 8 0)) 0
    match how.toNat with
    | 0 => (.ok 0,{ task with signal := { task.signal with mask := mask ||| newMask } })
    | 1 => (.ok 0,{ task with signal := { task.signal with mask := mask &&& ~~~newMask } })
    | 2 => (.ok 0,{ task with signal := { task.signal with mask := newMask } })
    | _ => (.error 22,task)

/-- `sys_rt_sigaction`; `raw` gives the 32 bytes that are read from the address of an action. -/
def sysRtSigaction (raw : List SignalAction → Nat → List Byte) (sig actAddr oldactAddr : Word) : SysResult × Sel4Task :=
  if sig = 0 ∨ 64 < sig then (.error 22,task)
  else
    let index := (sig - 1).toNat
    let task := if oldactAddr = 0 then task else task.write oldactAddr (raw task.signal.actions index)
    if actAddr = 0 then (.ok 0,task)
    else
      let buf := (task.mem.readBytes actAddr (List.replicate 32 0)).getD (List.replicate 32 0)
      let actions := task.signal.actions.modify index fun action => { action with handler := packWord buf 0 }
      (.ok 0,{ task with signal := { task.signal with actions := actions } })

def sysRtSigreturn : SysResult × Sel4Task := (.ok 0,task)

def sysKill (map : TaskMap) (pid sig : Word) : SysResult × TaskMap :=
  match map pid with
  | none => (.error 3,map)
  | some target =>
    if sig = 0 then (.ok 0,map)
    else
      let pending := if sig ≤ 64 then target.signal.pending ||| (1 <<< (sig - 1).toNat) else target.signal.pending
      (.ok 0,map.insert pid { target with signal := { target.signal with pending := pending } })

end Sel4Linux.Task
