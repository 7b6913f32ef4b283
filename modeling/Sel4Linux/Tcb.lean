import Sel4Linux.Abi
import Mathlib.Tactic.IntervalCases

/-!
Threads as the root task and the Linux layer drive them
(`crates/sel4-sys/src/syscalls.rs`): register frames in the order that the kernel
gives to `seL4_TCB_ReadRegisters` and `seL4_TCB_WriteRegisters`, and the
invocations that write frames, stop threads and map pages for them.
-/
namespace Sel4Linux.Tcb
open Sel4Linux.Bytes
set_option linter.unusedSimpArgs false

/-- The general registers of a thread, in the order of the kernel's `frameRegisters`. -/
structure Frame where
  rip : Word
  rsp : Word
  rflags : Word
  rax : Word
  rbx : Word
  rcx : Word
  rdx : Word
  rsi : Word
  rdi : Word
  rbp : Word
  r8 : Word
  r9 : Word
  r10 : Word
  r11 : Word
  r12 : Word
  r13 : Word
  r14 : Word
  r15 : Word
  deriving DecidableEq

/-- `[usize; 20]`: a frame with the two segment bases. -/
abbrev Regs := Vector Word 20

/-- The general registers that the first 18 words stand for. -/
def generalRegisters (regs : Regs) : Frame :=
  { rip := regs[0], rsp := regs[1], rflags := regs[2], rax := regs[3], rbx := regs[4], rcx := regs[5], rdx := regs[6],
    rsi := regs[7], rdi := regs[8], rbp := regs[9], r8 := regs[10], r9 := regs[11], r10 := regs[12], r11 := regs[13],
    r12 := regs[14], r13 := regs[15], r14 := regs[16], r15 := regs[17] }

def fsBase (regs : Regs) : Word := regs[18]

def word (regs : Regs) (i : Nat) : Word := regs[i]?.getD 0

def setWord (regs : Regs) (i : Nat) (value : Word) : Regs := regs.setIfInBounds i value

theorem word_setWord_ne (regs : Regs) {i j : Nat} (apart : i ≠ j) (value : Word) :
    word (setWord regs i value) j = word regs j := by
  rw [word,setWord,Vector.getElem?_setIfInBounds_ne apart,word]

/-- `regs[3] = rax; regs[0] = rip`. -/
def setResult (regs : Regs) (rip rax : Word) : Regs := (regs.set 3 rax).set 0 rip

theorem generalRegisters_setResult (regs : Regs) (rip rax : Word) :
    generalRegisters (setResult regs rip rax) = { generalRegisters regs with rip := rip, rax := rax } := by
  simp [generalRegisters,setResult,Vector.getElem_set]

/-- Words 0 and 15 of a frame are RIP and R13. -/
theorem generalRegisters_setWord (regs : Regs) (first fifteenth : Word) :
    generalRegisters (setWord (setWord regs 0 first) 15 fifteenth) =
      { generalRegisters regs with rip := first, r13 := fifteenth } := by
  simp [generalRegisters,setWord,Vector.getElem_setIfInBounds]

/-- Word 18 of a frame is no general register. -/
theorem generalRegisters_setBase (regs : Regs) (base : Word) : generalRegisters (setWord regs 18 base) = generalRegisters regs := by
  simp [generalRegisters,setWord,Vector.getElem_setIfInBounds]

def Frame.words (f : Frame) : List Word :=
  [f.rip,f.rsp,f.rflags,f.rax,f.rbx,f.rcx,f.rdx,f.rsi,f.rdi,f.rbp,f.r8,f.r9,f.r10,f.r11,f.r12,f.r13,f.r14,f.r15]

/-- A frame with segment bases of 0. -/
def Frame.regs (f : Frame) : Regs := ⟨(f.words ++ [0,0]).toArray,rfl⟩

/-- A frame of zeros. -/
def Frame.blank : Frame := generalRegisters (Vector.replicate 20 0)

theorem words_generalRegisters (regs : Regs) : (generalRegisters regs).words = regs.toList.take 18 := by
  refine List.ext_getElem (by simp [Frame.words]) ?_
  intro i inWords inRegs
  have small : i < 18 := inWords
  simp only [List.getElem_take,Vector.getElem_toList]
  interval_cases i <;> rfl

theorem words_injective {f g : Frame} (same : f.words = g.words) : f = g := by
  cases f
  cases g
  simpa [Frame.words] using same

/-- A capability invocation: the message of `cap_invoke` and `cap_invoke_with_extra`. -/
structure Invocation where
  dest : Word
  label : BitVec 32
  mrs : List Word
  extraCaps : List Word
  deriving DecidableEq

/-- `seL4_TCB_WriteRegisters`. -/
def tcbWriteRegisters (tcb : Word) (resume : Bool) (archFlags count : BitVec 8) (regFrame : List Word) : Invocation :=
  let flags : Word := (if resume then 1 else 0) ||| (archFlags.setWidth 64 <<< 8)
  let n := min regFrame.length count.toNat
  { dest := tcb, label := 3, mrs := flags :: BitVec.ofNat 64 n :: regFrame.take n, extraCaps := [] }

/-- `seL4_TCB_Suspend`. -/
def tcbSuspend (tcb : Word) : Invocation := { dest := tcb, label := 11, mrs := [], extraCaps := [] }

/-- `seL4_TCB_Resume`. -/
def tcbResume (tcb : Word) : Invocation := { dest := tcb, label := 12, mrs := [], extraCaps := [] }

/-- `seL4_TCB_SetTLSBase`. -/
def tcbSetTLSBase (tcb tlsBase : Word) : Invocation := { dest := tcb, label := 15, mrs := [tlsBase], extraCaps := [] }

/-- `seL4_Untyped_Retype`. -/
def untypedRetype (untyped objType sizeBits rootCnode nodeIndex nodeDepth nodeOffset numObjects : Word) : Invocation :=
  { dest := untyped, label := 1, mrs := [objType,sizeBits,nodeIndex,nodeDepth,nodeOffset,numObjects],
    extraCaps := [rootCnode] }

/-- `seL4_Frame_Map`. -/
def frameMap (frame vspace vaddr rights attr : Word) : Invocation :=
  { dest := frame, label := 41, mrs := [vaddr,rights,attr], extraCaps := [vspace] }

/-- `seL4_PageTable_Map`. -/
def pageTableMap (pt vspace vaddr attr : Word) : Invocation :=
  { dest := pt, label := 37, mrs := [vaddr,attr], extraCaps := [vspace] }

/-- `seL4_PageDirectory_Map`. -/
def pageDirectoryMap (pd vspace vaddr attr : Word) : Invocation :=
  { dest := pd, label := 35, mrs := [vaddr,attr], extraCaps := [vspace] }

/-- `seL4_PDPT_Map`. -/
def pdptMap (pdpt vspace vaddr attr : Word) : Invocation :=
  { dest := pdpt, label := 33, mrs := [vaddr,attr], extraCaps := [vspace] }

/-- `seL4_TCB_Configure`. -/
def tcbConfigure (tcb faultEp cspaceRoot cspaceRootData vspaceRoot ipcBufferAddr ipcBufferCap : Word) : Invocation :=
  { dest := tcb, label := 5, mrs := [faultEp,cspaceRootData,0,ipcBufferAddr],
    extraCaps := [cspaceRoot,vspaceRoot,ipcBufferCap] }

/-- `seL4_TCB_SetSchedParams`. -/
def tcbSetSchedParams (tcb authority : Word) (mcp priority : BitVec 8) : Invocation :=
  { dest := tcb, label := 8, mrs := [mcp.setWidth 64,priority.setWidth 64], extraCaps := [authority] }

inductive ObjectType where
  | untyped
  | tcb
  | endpoint
  | notification
  | cnode
  | pdpt
  | pml4
  | hugePage
  | frame4k
  | largePage
  | pageTable
  | pageDirectory
  | ioPageTable
  deriving DecidableEq

/-- `as usize`. -/
def ObjectType.number : ObjectType → Word
  | .untyped => 0
  | .tcb => 1
  | .endpoint => 2
  | .notification => 3
  | .cnode => 4
  | .pdpt => 5
  | .pml4 => 6
  | .hugePage => 7
  | .frame4k => 8
  | .largePage => 9
  | .pageTable => 10
  | .pageDirectory => 11
  | .ioPageTable => 12

/-- `size_bits`, 0 for the kinds of variable size. -/
def ObjectType.sizeBits : ObjectType → Word
  | .untyped | .cnode => 0
  | .tcb => 11
  | .endpoint => 4
  | .notification => 5
  | .hugePage => 30
  | .largePage => 21
  | .pdpt | .pml4 | .frame4k | .pageTable | .pageDirectory | .ioPageTable => 12

/-- The registers that the kernel takes from the message of `seL4_TCB_WriteRegisters`: MR1 says how many. -/
def Invocation.frame (inv : Invocation) : List Word := (inv.mrs.drop 2).take (inv.mrs.getD 1 0).toNat

/-- The kernel gets as many registers as the frame has, up to `count`. -/
theorem frame_writeRegisters (tcb : Word) (resume : Bool) (archFlags count : BitVec 8) (regFrame : List Word) :
    (tcbWriteRegisters tcb resume archFlags count regFrame).frame = regFrame.take count.toNat := by
  have small : min regFrame.length count.toNat < 2 ^ 64 :=
    Nat.lt_of_le_of_lt (Nat.min_le_right _ _) (Nat.lt_trans count.isLt (by decide))
  have words : (BitVec.ofNat 64 (min regFrame.length count.toNat)).toNat = min regFrame.length count.toNat := by
    rw [BitVec.toNat_ofNat,Nat.mod_eq_of_lt small]
  simp only [Invocation.frame,tcbWriteRegisters,List.drop_succ_cons,List.drop_zero,List.getD_cons_succ,
    List.getD_cons_zero,words]
  rw [List.take_take,Nat.min_self]
  rcases Nat.le_total regFrame.length count.toNat with short | long
  · rw [Nat.min_eq_left short,List.take_length,List.take_of_length_le short]
  · rw [Nat.min_eq_right long]

end Sel4Linux.Tcb
