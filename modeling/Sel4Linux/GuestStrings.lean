import Sel4Linux.FileSyscalls
import Sel4Linux.MemImage

/-!
Strings that the guest hands over (`read_cstr_from_task`, once in `syscall/fs.rs`
and once in `syscall/exec.rs`). The loop takes one byte a turn and never more
than 4097 turns, whatever the memory is (`cstrLoop_ends`); a string written with
its end behind it is read back (`guest_string`).
-/
namespace Sel4Linux.GuestStrings
open Sel4Linux.Bytes Sel4Linux.Utf8 Sel4Linux.TaskMem Sel4Linux.Overlay Sel4Linux.MemImage Sel4Linux.FileSyscalls
set_option linter.unusedSimpArgs false

/-- The loop as it is written, for `turns` turns: nothing when they do not suffice. Every turn reads one byte. -/
def cstrLoop (task : TaskMemInfo) : Nat → List Byte → Word → Option (List Byte)
  | 0, _, _ => none
  | turns + 1, bytes, a =>
    match task.readBytes a [0] with
    | some (b :: _) =>
      if b = 0 then some bytes
      -- the limit is looked at behind the push, so one byte more than 4096 can be there
      else if 4096 < (bytes ++ [b]).length then some (bytes ++ [b])
      else cstrLoop task turns (bytes ++ [b]) (a + 1)
    | _ => some bytes

variable (task : TaskMemInfo)

theorem cstrBytes_succ (room : Nat) (a : Word) : cstrBytes task (room + 1) a =
    match byteOf task a with
    | some b => if b = 0 then [] else b :: cstrBytes task room (a + 1)
    | none => [] := by
  rw [cstrBytes,readBytes_one]
  cases byteOf task a <;> rfl

theorem cstrBytes_length (room : Nat) (a : Word) : (cstrBytes task room a).length ≤ room := by
  induction room generalizing a with
  | zero => simp [cstrBytes]
  | succ room ih =>
    rw [cstrBytes_succ]
    split
    · split
      · simp
      · simpa using ih (a + 1)
    · simp

/-- With a turn for each byte that still goes in, the loop ends with what it has and the bytes from `a` on. -/
theorem cstrLoop_eq {turns room : Nat} {bytes : List Byte} (a : Word) (filled : bytes.length + room = 4096)
    (enough : room < turns) : cstrLoop task turns bytes a = some (bytes ++ cstrBytes task (room + 1) a) := by
  induction room generalizing turns bytes a with
  | zero =>
    obtain ⟨turns,rfl⟩ := Nat.exists_eq_add_of_lt enough
    rw [cstrBytes_succ,cstrLoop,readBytes_one]
    cases byteOf task a with
    | none => simp
    | some b =>
      by_cases nul : b = 0
      · simp [nul]
      · simp only [Option.map_some,if_neg nul]
        simp [cstrBytes,show bytes.length = 4096 by omega]
  | succ room ih =>
    obtain ⟨turns,rfl⟩ := Nat.exists_eq_add_of_lt enough
    rw [cstrBytes_succ,cstrLoop,readBytes_one]
    cases byteOf task a with
    | none => simp
    | some b =>
      by_cases nul : b = 0
      · simp [nul]
      · have more := @ih (room + 1 + turns) (bytes ++ [b]) (a + 1) (by simp; omega) (by omega)
        simp only [Option.map_some,if_neg nul]
        rw [if_neg (by simp; omega),more,List.append_assoc,List.singleton_append]

/-- 4097 turns are enough for every memory. -/
theorem cstrLoop_ends {turns : Nat} (enough : 4097 ≤ turns) (addr : Word) :
    cstrLoop task turns [] addr = some (cstrBytes task 4097 addr) :=
  @cstrLoop_eq task turns 4096 [] addr rfl enough

variable {task}

/-- A memory with a string and a zero behind it. -/
theorem cstrBytes_of_reads {s : List Byte} {addr : Word} {room : Nat} (noNul : 0 ∉ s) (short : s.length < room)
    (there : Reads (byteOf task) addr (s ++ [0])) : cstrBytes task room addr = s := by
  induction s generalizing addr room with
  | nil =>
    obtain ⟨room,rfl⟩ := Nat.exists_eq_add_of_lt short
    have zero : byteOf task addr = some 0 := by simpa using there 0 (by simp)
    simp [cstrBytes_succ,zero]
  | cons b s ih =>
    obtain ⟨room,rfl⟩ := Nat.exists_eq_add_of_lt short
    obtain ⟨notHere,notLater⟩ : ¬ (0 = b) ∧ 0 ∉ s := by simpa using noNul
    have first : byteOf task addr = some b := by simpa using there 0 (by simp)
    obtain ⟨_,behind⟩ := reads_append_iff.mp (show Reads (byteOf task) addr ([b] ++ (s ++ [0])) from there)
    have rest := @ih (addr + BitVec.ofNat 64 [b].length) (s.length + 1 + room) notLater (by omega) behind
    rw [List.length_cons,cstrBytes_succ,first]
    simp only [if_neg (Ne.symm notHere)]
    exact congrArg (b :: ·) rest

theorem reads_writeBytes (addr : Word) {data : List Byte} (fits : data.length ≤ 2 ^ 64) :
    Reads (byteOf (task.writeBytes addr data).2) addr data := fun _ inside => byteOf_written addr fits inside

/-- The end goes behind the string and leaves it alone. -/
theorem reads_terminated (addr : Word) {data : List Byte} (fits : data.length + 1 ≤ 2 ^ 64) :
    Reads (byteOf ((task.writeBytes addr data).2.writeBytes (addr + BitVec.ofNat 64 data.length) [0]).2) addr (data ++ [0]) := by
  refine reads_append_iff.mpr ⟨?_,reads_writeBytes _ (by simp)⟩
  intro i inside
  have before := @reads_writeBytes task addr data (by omega) i inside
  rw [List.getElem?_eq_getElem inside] at before ⊢
  refine byteOf_kept _ (by simp) before ?_
  have apart : (addr + BitVec.ofNat 64 i - (addr + BitVec.ofNat 64 data.length)).toNat = 2 ^ 64 - (data.length - i) := by
    rw [toNat_sub_advance _ _ (by omega),toNat_sub_start (by omega),if_neg (by omega)]
    omega
  rw [apart,List.length_singleton]
  omega

/-- A string without zeros, of at most 4096 bytes, is what the syscalls see of it; and of any memory they see a string in
    4097 turns. -/
theorem guest_string (task : TaskMemInfo) (addr : Word) (s : Str) (short : s.len ≤ 4096) (noNul : 0 ∉ s.bytes) :
    readCstrFromTask ((task.writeBytes addr s.bytes).2.writeBytes (addr + BitVec.ofNat 64 s.len) [0]).2 addr = s ∧
    ∀ (other : TaskMemInfo) (a : Word) (turns : Nat), 4097 ≤ turns → ∃ bytes, cstrLoop other turns [] a = some bytes ∧
      bytes.length ≤ 4097 ∧ readCstrFromTask other a = Str.fromUtf8Lossy bytes := by
  have length : s.bytes.length ≤ 4096 := short
  refine ⟨?_,fun other a turns enough => ⟨_,cstrLoop_ends other enough a,cstrBytes_length other 4097 a,rfl⟩⟩
  have there := @reads_terminated task addr s.bytes (by omega)
  rw [readCstrFromTask,Str.len,cstrBytes_of_reads noNul (by omega) there,Str.fromUtf8Lossy_self]

theorem guest_string_two_pages :
    (ascii ['/','a']).len ≤ 4096 ∧ 0 ∉ (ascii ['/','a']).bytes ∧
    readCstrFromTask ((TaskMemInfo.default.writeBytes 0xFFF (ascii ['/','a']).bytes).2.writeBytes
      (0xFFF + BitVec.ofNat 64 (ascii ['/','a']).len) [0]).2 0xFFF = ascii ['/','a'] :=
  ⟨by decide,by decide,(guest_string TaskMemInfo.default 0xFFF (ascii ['/','a']) (by decide) (by decide)).1⟩

end Sel4Linux.GuestStrings
