import Sel4Linux.Bytes
import Sel4Linux.Runs
import Sel4Linux.Slices

/-!
The tool that prepares the kernel's ELF file for the boot loaders
(`add_boot_notes` in `tools/add-pvh-note.py`, up to the file being written back).
It puts a multiboot header behind the program headers and a note header in
front of them; only the first insertion is made up for in the offsets of the
segments. The headers come through (`headers_kept`), the bytes that they select
exactly when every one of them is where its header looks for it, or is equal to
what has come to lie there (`segments_kept_iff`).
-/
namespace Sel4Linux.BootNotes
open Sel4Linux.Bytes Sel4Linux.Runs Sel4Linux.Slices
set_option linter.unusedSimpArgs false

/-! ## Numbers in a file -/

/-- What ends the tool before it has written anything. -/
inductive Failure where
  /-- `sys.exit`. -/
  | exit
  /-- `IndexError`. -/
  | index
  /-- `struct.error`: a read or a write beyond the end, or a number that does not fit. -/
  | struct
  deriving DecidableEq

/-- The number of `width` bytes, at most eight, from `pos` on. -/
def number (data : List Byte) (pos width : Nat) : Nat := (packWord (slice data pos (pos + width)) 0).toNat

/-- A number as `width` bytes, least significant first. -/
def packed (width v : Nat) : List Byte := (leBytes (BitVec.ofNat 64 v)).take width

def unpackFrom (width : Nat) (data : List Byte) (pos : Nat) : Except Failure Nat :=
  if pos + width ≤ data.length then .ok (number data pos width) else .error .struct

def pack (width v : Nat) : Except Failure (List Byte) := if v < 256 ^ width then .ok (packed width v) else .error .struct

def packInto (width : Nat) (data : List Byte) (pos v : Nat) : Except Failure (List Byte) := do
  let bytes ← pack width v
  if pos + width ≤ data.length then .ok (assign data pos (pos + width) bytes) else .error .struct

/-! ## The tool -/

/-- The fields of the ELF header that the tool reads. -/
structure Header where
  phoff : Nat
  phentsize : Nat
  phnum : Nat
  entry : Nat
  machine : Nat

/-- Where the program header `i` is. -/
def Header.place (h : Header) (i : Nat) : Nat := h.phoff + i * h.phentsize

def readHeader (data : List Byte) : Except Failure Header := do
  let phoff ← unpackFrom 8 data 32
  let phentsize ← unpackFrom 2 data 54
  let phnum ← unpackFrom 2 data 56
  let entry ← unpackFrom 8 data 24
  let machine ← unpackFrom 2 data 18
  .ok { phoff := phoff, phentsize := phentsize, phnum := phnum, entry := entry, machine := machine }

/-- `mbi_data_off`: behind the program headers, at a multiple of four. -/
def Header.mbiDataOff (h : Header) : Nat := Nat.ldiff (h.phoff + h.phnum * h.phentsize + 3) 3

/-- `range(0, min(32768, len(data)), 4)`. -/
def scanned (data : List Byte) : List Nat := (List.range ((min 32768 data.length + 3) / 4)).map fun i => 4 * i

/-- A multiboot magic number in the first 8 KB; the scan looks at the first 32 KB. -/
def findMagic (data : List Byte) : List Nat → Except Failure Bool
  | [] => .ok false
  | i :: rest => do
    let v ← unpackFrom 4 data i
    if (v = 0xE85250D6 ∨ v = 0x1BADB002) ∧ i < 8192 then .ok true else findMagic data rest

/-- The multiboot header: magic, flags, checksum, four addresses and the entry. -/
def multiboot (entry : Nat) : List Byte :=
  packed 4 0x1BADB002 ++ packed 4 0x00010003 ++ packed 4 (2 ^ 32 - (0x1BADB002 + 0x00010003)) ++ packed 4 0x200000 ++
    packed 4 0x200000 ++ packed 4 (0x200000 + 0xA00000) ++ packed 4 (0x200000 + 0xA00000) ++ packed 4 (entry % 2 ^ 32)

/-- Adds the length of the multiboot header to `p_offset` of the PT_LOAD headers among `rest`. -/
def shiftOffsets (h : Header) (data : List Byte) : List Nat → Except Failure (List Byte)
  | [] => .ok data
  | i :: rest => do
    let type ← unpackFrom 4 data (h.place i)
    if type = 1 then do
      let old ← unpackFrom 8 data (h.place i + 8)
      let data ← packInto 8 data (h.place i + 8) (old + (multiboot h.entry).length)
      shiftOffsets h data rest
    else shiftOffsets h data rest

/-- Step 1: whether the multiboot header was put in, and the file. -/
def injectMultiboot (h : Header) (data : List Byte) : Except Failure (Bool × List Byte) := do
  let mbFound ← findMagic data (scanned data)
  if mbFound = false ∧ h.mbiDataOff < 8100 then do
    let data ← shiftOffsets h (assign data h.mbiDataOff h.mbiDataOff (multiboot h.entry)) (List.range h.phnum)
    .ok (true,data)
  else .ok (false,data)

/-- Step 2: EM_X86_64 becomes EM_386. -/
def patchMachine (h : Header) (data : List Byte) : Except Failure (Bool × List Byte) :=
  if h.machine = 0x3e then do
    let data ← packInto 2 data 18 3
    .ok (true,data)
  else .ok (false,data)

/-- Whether there is a PT_NOTE header. -/
def findNote (h : Header) (data : List Byte) : List Nat → Except Failure Bool
  | [] => .ok false
  | i :: rest => do
    let type ← unpackFrom 4 data (h.place i)
    if type = 4 then .ok true else findNote h data rest

/-- The note with the 32-bit entry, `entry32 & 0xFFFFFFFF`. -/
def noteOf (entry32 : Int) : List Byte :=
  packed 4 4 ++ packed 4 4 ++ packed 4 18 ++ [0x58,0x65,0x6E,0] ++ packed 4 (entry32 % 2 ^ 32).toNat

/-- `while len(data) % 4: data.append(0)`. -/
def padded (data : List Byte) : List Byte := ljust data ((data.length + 3) / 4 * 4) 0

/-- The program header of the note. -/
def noteHeader (noteOffset : Nat) : List Byte :=
  packed 4 4 ++ packed 4 4 ++ packed 8 noteOffset ++ packed 8 0 ++ packed 8 0 ++ packed 8 20 ++ packed 8 20 ++ packed 8 4

/-- Step 3: the note at the end, its header in front of the others. -/
def addNote (h : Header) (entry32 : Int) (data : List Byte) : Except Failure (Bool × List Byte) := do
  let hasNote ← findNote h data (List.range h.phnum)
  if hasNote = true then .ok (false,data)
  else do
    let noteOffset := (padded data).length
    let data := padded data ++ noteOf entry32
    let _ ← pack 8 noteOffset
    let data ← packInto 2 (assign data h.phoff h.phoff (noteHeader noteOffset)) 56 (h.phnum + 1)
    .ok (true,data)

/-- `add_boot_notes`: what is written back to the file, if anything. -/
def addBootNotes (entry32 : Int) (data : List Byte) : Except Failure (Option (List Byte)) :=
  if data.take 4 ≠ [0x7F,0x45,0x4C,0x46] then .error .exit
  else match data[4]? with
    | none => .error .index
    | some elfClass =>
      if elfClass ≠ 2 then .error .exit
      else do
        let h ← readHeader data
        let (injected,data) ← injectMultiboot h data
        let (machined,data) ← patchMachine h data
        let (noted,data) ← addNote h entry32 data
        .ok (if injected ∨ machined ∨ noted then some data else none)

/-! ## Reading and writing numbers -/

/-- A number that fits, written over the bytes of another. -/
def setNumber (width : Nat) (data : List Byte) (pos v : Nat) : List Byte := assign data pos (pos + width) (packed width v)

theorem length_packed {width : Nat} (narrow : width ≤ 8) (v : Nat) : (packed width v).length = width := by
  rw [packed,List.length_take,leBytes_length,Nat.min_eq_left narrow]

theorem unpackFrom_ok_iff {width : Nat} {data : List Byte} {pos v : Nat} :
    unpackFrom width data pos = .ok v ↔ pos + width ≤ data.length ∧ v = number data pos width := by
  rw [unpackFrom]
  by_cases inside : pos + width ≤ data.length
  · simp [inside,eq_comm]
  · simp [inside]

theorem packInto_ok_iff {width : Nat} {data : List Byte} {pos v : Nat} {after : List Byte} :
    packInto width data pos v = .ok after ↔
      v < 256 ^ width ∧ pos + width ≤ data.length ∧ after = setNumber width data pos v := by
  rw [packInto,pack]
  by_cases small : v < 256 ^ width
  · by_cases inside : pos + width ≤ data.length
    · simp [small,inside,setNumber,eq_comm]
    · simp [small,inside]
  · simp [small]

theorem number_congr {xs ys : List Byte} {p q width : Nat} (same : ∀ k < width, xs[p + k]? = ys[q + k]?) :
    number xs p width = number ys q width := by rw [number,number,slice_congr same]

section
variable {width : Nat} {data : List Byte} {pos v : Nat} (narrow : width ≤ 8) (inside : pos + width ≤ data.length)
include narrow inside

theorem length_setNumber : (setNumber width data pos v).length = data.length := by
  have length := length_packed narrow v
  have same := @length_assign _ data pos (packed width v) (by omega)
  rwa [length] at same

theorem getElem?_setNumber (i : Nat) : (setNumber width data pos v)[i]? =
    if pos ≤ i ∧ i < pos + width then (packed width v)[i - pos]? else data[i]? := by
  have length := length_packed narrow v
  have same := @getElem?_assign _ data pos (packed width v) (by omega) i
  rwa [length] at same

theorem number_setNumber (small : v < 256 ^ width) : number (setNumber width data pos v) pos width = v := by
  have length := length_packed narrow v
  have all : slice (setNumber width data pos v) pos (pos + width) = packed width v := by
    have same : slice (setNumber width data pos v) pos (pos + width) = slice (packed width v) 0 (0 + width) := by
      refine slice_congr fun k low => ?_
      rw [getElem?_setNumber narrow inside,if_pos (by omega),Nat.add_sub_cancel_left,Nat.zero_add]
    rw [same,slice,Nat.zero_add,List.drop_zero,List.take_of_length_le (by omega)]
  have bound : v < 2 ^ (8 * width) := by rwa [Nat.pow_mul]
  have fits : v < 2 ^ 64 := Nat.lt_of_lt_of_le bound (Nat.pow_le_pow_right Nat.two_pos (by omega))
  have isV : (BitVec.ofNat 64 v).toNat = v := by rw [BitVec.toNat_ofNat,Nat.mod_eq_of_lt fits]
  rw [number,all,packed,packWord_take_leBytes (by rw [isV]; exact bound),isV]

theorem setNumber_append (behind : List Byte) :
    setNumber width (data ++ behind) pos v = setNumber width data pos v ++ behind := by
  have length := length_packed narrow v
  have same := @assign_append _ data pos (packed width v) (by omega) behind
  rwa [length] at same

/-- A field that is only set on a condition. -/
theorem length_setNumber_if (c : Prop) [Decidable c] : (if c then setNumber width data pos v else data).length = data.length := by
  split
  · exact length_setNumber narrow inside
  · rfl

theorem getElem?_setNumber_if {c : Prop} [Decidable c] {q : Nat} (outside : ¬ (c ∧ pos ≤ q ∧ q < pos + width)) :
    (if c then setNumber width data pos v else data)[q]? = data[q]? := by
  split
  · rw [getElem?_setNumber narrow inside,if_neg (fun covered => outside ⟨‹_›,covered⟩)]
  · rfl

end

theorem setNumber_insert {width pos v place : Nat} {data inserted : List Byte} (narrow : width ≤ 8)
    (before : pos + width ≤ place) (within : place ≤ data.length) :
    setNumber width (assign data place place inserted) pos v = assign (setNumber width data pos v) place place inserted := by
  have length := length_packed narrow v
  have same := @assign_insert _ data pos place (packed width v) inserted (by omega) within
  rwa [length] at same

theorem number_insert {data inserted : List Byte} {pos width place : Nat} (before : pos + width ≤ place)
    (within : place ≤ data.length) :
    number (assign data place place inserted) pos width = number data pos width := by
  refine number_congr fun k low => ?_
  rw [getElem?_insert inserted within,if_pos (by omega)]

/-! ## What the tool finds out -/

/-- The fields of a file of at least 64 bytes. -/
def headerOf (data : List Byte) : Header :=
  { phoff := number data 32 8, phentsize := number data 54 2, phnum := number data 56 2, entry := number data 24 8,
    machine := number data 18 2 }

theorem readHeader_eq {data : List Byte} (long : 64 ≤ data.length) : readHeader data = .ok (headerOf data) := by
  have read : ∀ pos width, pos + width ≤ 64 → unpackFrom width data pos = .ok (number data pos width) :=
    fun pos width inside => unpackFrom_ok_iff.mpr ⟨by omega,rfl⟩
  simp [readHeader,read,headerOf,bind,Except.bind]

/-- One of the two magic numbers is in the first 8 KB, at a multiple of four. -/
def hasMagic (data : List Byte) : Bool :=
  (scanned data).any fun i => (number data i 4 == 0xE85250D6 || number data i 4 == 0x1BADB002) && decide (i < 8192)

theorem findMagic_eq {data : List Byte} {found : Bool} {rest : List Nat} (ran : findMagic data rest = .ok found) :
    found = rest.any fun i => (number data i 4 == 0xE85250D6 || number data i 4 == 0x1BADB002) && decide (i < 8192) := by
  induction rest with
  | nil =>
    cases ran
    rfl
  | cons i rest ih =>
    obtain ⟨v,isV,ran⟩ := bind_ok_iff.mp ran
    obtain ⟨_,rfl⟩ := unpackFrom_ok_iff.mp isV
    by_cases hit : (number data i 4 = 0xE85250D6 ∨ number data i 4 = 0x1BADB002) ∧ i < 8192
    · rw [if_pos hit] at ran
      cases ran
      simp [hit.1,hit.2]
    · rw [if_neg hit] at ran
      have miss : ((number data i 4 == 0xE85250D6 || number data i 4 == 0x1BADB002) && decide (i < 8192)) = false := by
        simpa using hit
      rw [List.any_cons,miss,Bool.false_or]
      exact ih ran

/-- A scan without a find has read four bytes at each place. -/
theorem findMagic_inside {data : List Byte} {rest : List Nat} (ran : findMagic data rest = .ok false) :
    ∀ i ∈ rest, i + 4 ≤ data.length := by
  induction rest with
  | nil => simp
  | cons i rest ih =>
    obtain ⟨v,isV,ran⟩ := bind_ok_iff.mp ran
    obtain ⟨inside,rfl⟩ := unpackFrom_ok_iff.mp isV
    split at ran
    · cases ran
    · exact List.forall_mem_cons.mpr ⟨inside,ih ran⟩

/-- A file below 32 KB that has been scanned to its end has a multiple of four bytes. -/
theorem multiple_of_four {data : List Byte} (ran : findMagic data (scanned data) = .ok false) (short : data.length < 32768) :
    data.length % 4 = 0 := by
  by_contra uneven
  have last := findMagic_inside ran (4 * (data.length / 4))
    (List.mem_map.mpr ⟨data.length / 4,List.mem_range.mpr (by omega),rfl⟩)
  omega

/-- There is no PT_NOTE header. -/
def lacksNote (h : Header) (data : List Byte) : Bool := (List.range h.phnum).all fun i => number data (h.place i) 4 != 4

theorem findNote_eq {h : Header} {data : List Byte} {found : Bool} {rest : List Nat} (ran : findNote h data rest = .ok found) :
    found = !rest.all fun i => number data (h.place i) 4 != 4 := by
  induction rest with
  | nil =>
    cases ran
    rfl
  | cons i rest ih =>
    obtain ⟨v,isV,ran⟩ := bind_ok_iff.mp ran
    obtain ⟨_,rfl⟩ := unpackFrom_ok_iff.mp isV
    by_cases hit : number data (h.place i) 4 = 4
    · rw [if_pos hit] at ran
      cases ran
      simp [hit]
    · rw [if_neg hit] at ran
      have miss : (number data (h.place i) 4 != 4) = true := by simpa using hit
      rw [List.all_cons,miss,Bool.true_and]
      exact ih ran

/-- The multiboot header is put in. -/
def injects (data : List Byte) : Bool := !hasMagic data && decide ((headerOf data).mbiDataOff < 8100)

theorem mbiDataOff_eq (h : Header) : h.mbiDataOff = (h.phoff + h.phnum * h.phentsize + 3) / 4 * 4 := ldiff_mask _ 2

/-! ## Well-formed files -/

/-- An ELF64 file with its program headers behind the ELF header, and with the bytes of its loadable segments. -/
structure WellFormed (data : List Byte) : Prop where
  size : 64 ≤ data.length
  magic : data.take 4 = [0x7F,0x45,0x4C,0x46]
  elf64 : data[4]? = some 2
  entries : (headerOf data).phnum = 0 ∨ (headerOf data).phentsize = 56
  behind : (headerOf data).phnum = 0 ∨ 64 ≤ (headerOf data).phoff
  table : (headerOf data).phoff + (headerOf data).phnum * (headerOf data).phentsize ≤ data.length
  segments : ∀ i < (headerOf data).phnum, number data ((headerOf data).place i) 4 = 1 →
    number data ((headerOf data).place i + 8) 8 + number data ((headerOf data).place i + 32) 8 ≤ data.length

/-- A table of program headers of 56 bytes between the ELF header and `stop`. -/
structure Table (h : Header) (stop : Nat) : Prop where
  entries : h.phentsize = 56
  behind : 64 ≤ h.phoff
  ends : h.phoff + h.phnum * 56 ≤ stop

theorem Table.inside {h : Header} {stop i : Nat} (table : Table h stop) (low : i < h.phnum) :
    64 ≤ h.place i ∧ h.place i + 56 ≤ stop := by
  have behind := table.behind
  have ends := table.ends
  have row : (i + 1) * 56 ≤ h.phnum * 56 := Nat.mul_le_mul_right 56 low
  rw [Header.place,table.entries]
  omega

theorem Table.apart {h : Header} {stop i j : Nat} (table : Table h stop) (other : i ≠ j) :
    h.place i + 56 ≤ h.place j ∨ h.place j + 56 ≤ h.place i := by
  rw [Header.place,Header.place,table.entries]
  omega

/-! ## Step 1: offsets -/

/-- The offsets of the PT_LOAD headers among `rest`, moved by the length of the multiboot header. -/
def shifted (h : Header) (data : List Byte) (rest : List Nat) : List Byte :=
  rest.foldl (fun data i => if number data (h.place i) 4 = 1 then
    setNumber 8 data (h.place i + 8) (number data (h.place i + 8) 8 + 32) else data) data

@[simp] theorem length_multiboot (entry : Nat) : (multiboot entry).length = 32 := by
  simp [multiboot,length_packed]

/-- `shiftOffsets` changed the offsets it was to change, by 32, and nothing else. -/
structure Shifted (h : Header) (rest : List Nat) (before after : List Byte) : Prop where
  length : after.length = before.length
  others : ∀ q, (∀ i ∈ rest, number before (h.place i) 4 = 1 → q < h.place i + 8 ∨ h.place i + 16 ≤ q) →
    after[q]? = before[q]?
  offsets : ∀ i ∈ rest, number before (h.place i) 4 = 1 →
    number after (h.place i + 8) 8 = number before (h.place i + 8) 8 + 32

/-- One header's offset in front of the rest. -/
theorem shifted_cons {h : Header} {stop i : Nat} {rest : List Nat} {data after : List Byte} (table : Table h stop)
    (inFile : stop ≤ data.length) (low : i < h.phnum) (fresh : i ∉ rest) (load : number data (h.place i) 4 = 1)
    (small : number data (h.place i + 8) 8 + 32 < 256 ^ 8)
    (later : Shifted h rest (setNumber 8 data (h.place i + 8) (number data (h.place i + 8) 8 + 32)) after) :
    Shifted h (i :: rest) data after := by
  obtain ⟨_,ends⟩ := table.inside low
  have narrow : 8 ≤ 8 := Nat.le_refl 8
  have inside : h.place i + 8 + 8 ≤ data.length := by omega
  obtain ⟨old,isOld⟩ : ∃ old, old = number data (h.place i + 8) 8 := ⟨_,rfl⟩
  rw [← isOld] at small later
  have away : ∀ q width, (q + width ≤ h.place i + 8 ∨ h.place i + 16 ≤ q) →
      number (setNumber 8 data (h.place i + 8) (old + 32)) q width = number data q width := by
    intro q width apart
    refine number_congr fun k low => ?_
    rw [getElem?_setNumber narrow inside,if_neg (by omega)]
  have type : ∀ j, number (setNumber 8 data (h.place i + 8) (old + 32)) (h.place j) 4 = number data (h.place j) 4 := by
    intro j
    by_cases same : j = i
    · exact away _ _ (by subst same; omega)
    · have apart := table.apart same
      exact away _ _ (by omega)
  refine ⟨later.length.trans (length_setNumber narrow inside),?_,?_⟩
  · intro q outside
    have here := outside i (by simp) load
    rw [later.others q fun j member isLoad => outside j (List.mem_cons_of_mem _ member) (by rwa [type] at isLoad),
      getElem?_setNumber narrow inside,if_neg (by omega)]
  · refine List.forall_mem_cons.mpr ⟨fun _ => ?_,fun j member isLoad => ?_⟩
    · have kept : number after (h.place i + 8) 8 = number (setNumber 8 data (h.place i + 8) (old + 32)) (h.place i + 8) 8 := by
        refine number_congr fun k low => later.others _ fun j member _ => ?_
        have apart := table.apart (fun same : i = j => fresh (same ▸ member))
        omega
      rw [kept,number_setNumber narrow inside small,isOld]
    · have apart := table.apart (fun same : i = j => fresh (same ▸ member))
      rw [later.offsets j member (by rw [type]; exact isLoad),away _ _ (by omega)]

/-- With the multiboot header behind the table, the offsets are changed as they would be without it. -/
theorem shiftOffsets_spec {h : Header} {stop : Nat} {rest : List Nat} {data after : List Byte} (table : Table h stop)
    (inFile : stop ≤ data.length) (low : ∀ i ∈ rest, i < h.phnum) (distinct : rest.Nodup)
    (ran : shiftOffsets h (assign data stop stop (multiboot h.entry)) rest = .ok after) :
    after = assign (shifted h data rest) stop stop (multiboot h.entry) ∧ Shifted h rest data (shifted h data rest) := by
  induction rest generalizing data with
  | nil =>
    cases ran
    exact ⟨rfl,rfl,fun _ _ => rfl,by simp⟩
  | cons i rest ih =>
    obtain ⟨_,ends⟩ := table.inside (low i (by simp))
    obtain ⟨fresh,distinct⟩ := List.nodup_cons.mp distinct
    have low' : ∀ j ∈ rest, j < h.phnum := fun j member => low j (List.mem_cons_of_mem _ member)
    obtain ⟨type,isType,ran⟩ := bind_ok_iff.mp ran
    obtain ⟨_,rfl⟩ := unpackFrom_ok_iff.mp isType
    rw [number_insert (by omega) inFile] at ran
    by_cases load : number data (h.place i) 4 = 1
    · rw [if_pos load] at ran
      obtain ⟨old,isOld,ran⟩ := bind_ok_iff.mp ran
      obtain ⟨_,rfl⟩ := unpackFrom_ok_iff.mp isOld
      obtain ⟨next,isNext,ran⟩ := bind_ok_iff.mp ran
      obtain ⟨small,_,rfl⟩ := packInto_ok_iff.mp isNext
      rw [length_multiboot,number_insert (by omega) inFile] at small ran
      rw [setNumber_insert (Nat.le_refl 8) (by omega) inFile] at ran
      have same := length_setNumber (v := number data (h.place i + 8) 8 + 32) (Nat.le_refl 8)
        (show h.place i + 8 + 8 ≤ data.length by omega)
      obtain ⟨isAfter,later⟩ := ih (same ▸ inFile) low' distinct ran
      rw [shifted,List.foldl_cons,if_pos load]
      exact ⟨isAfter,shifted_cons table inFile (low i (by simp)) fresh load small later⟩
    · rw [if_neg load] at ran
      obtain ⟨isAfter,later⟩ := ih inFile low' distinct ran
      rw [shifted,List.foldl_cons,if_neg load]
      refine ⟨isAfter,later.length,
        fun q outside => later.others q fun j member => outside j (List.mem_cons_of_mem _ member),?_⟩
      exact List.forall_mem_cons.mpr ⟨fun isLoad => absurd isLoad load,later.offsets⟩

/-! ## The file that is written back -/

section
variable (data : List Byte)

/-- The file with the offsets that step 1 moves, and nothing put in. -/
def shiftedFile : List Byte := if injects data then shifted (headerOf data) data (List.range (headerOf data).phnum) else data

/-- The file with the fields that the first two steps patch. -/
def machinedFile : List Byte :=
  if (headerOf data).machine = 0x3e then setNumber 2 (shiftedFile data) 18 3 else shiftedFile data

/-- The file with all the fields that the tool patches. -/
def edited : List Byte :=
  if lacksNote (headerOf data) data then setNumber 2 (machinedFile data) 56 ((headerOf data).phnum + 1) else machinedFile data

/-- A file with the multiboot header, if the tool puts it in. -/
def withMultiboot (file : List Byte) : List Byte :=
  if injects data then assign file (headerOf data).mbiDataOff (headerOf data).mbiDataOff (multiboot (headerOf data).entry)
  else file

/-- The new length, before the note. -/
def grownBy : Nat := if injects data then 32 else 0

/-- A file with the note and its header, if the tool puts them in. -/
def withNote (entry32 : Int) (file : List Byte) : List Byte :=
  if lacksNote (headerOf data) data then
    assign (padded file ++ noteOf entry32) (headerOf data).phoff (headerOf data).phoff (noteHeader (padded file).length)
  else file

/-- The file as it is written back. -/
def layout (entry32 : Int) : List Byte := withNote data entry32 (withMultiboot data (edited data))

/-- A file with program headers that the tool gets through. -/
structure Treated : Prop where
  table : Table (headerOf data) data.length
  header : 64 ≤ data.length
  room : injects data = true → Table (headerOf data) (headerOf data).mbiDataOff ∧ (headerOf data).mbiDataOff ≤ data.length

end

variable {data : List Byte}

theorem injects_iff {data : List Byte} : injects data = true ↔ hasMagic data = false ∧ (headerOf data).mbiDataOff < 8100 := by
  simp [injects]

/-- The place for the multiboot header is behind the table and in the file. -/
theorem treated_of_ran (wf : WellFormed data) (some' : (headerOf data).phnum ≠ 0) {r : Bool × List Byte}
    (ran : injectMultiboot (headerOf data) data = .ok r) : Treated data := by
  have entries := wf.entries.resolve_left some'
  have behind := wf.behind.resolve_left some'
  have inFile := wf.table
  rw [entries] at inFile
  refine ⟨⟨entries,behind,inFile⟩,wf.size,fun injected => ?_⟩
  have place := mbiDataOff_eq (headerOf data)
  rw [entries] at place
  obtain ⟨noMagic,low⟩ := injects_iff.mp injected
  obtain ⟨found,isFound,_⟩ := bind_ok_iff.mp ran
  have none' : found = false := (findMagic_eq isFound).trans noMagic
  refine ⟨⟨entries,behind,by omega⟩,?_⟩
  by_cases short : data.length < 32768
  · have even := multiple_of_four (none' ▸ isFound) short
    omega
  · omega

theorem injectMultiboot_spec (treated : Treated data) {r : Bool × List Byte}
    (ran : injectMultiboot (headerOf data) data = .ok r) :
    r = (injects data,withMultiboot data (shiftedFile data)) ∧
      (injects data = true → Shifted (headerOf data) (List.range (headerOf data).phnum) data
        (shifted (headerOf data) data (List.range (headerOf data).phnum))) := by
  obtain ⟨found,isFound,ran⟩ := bind_ok_iff.mp ran
  have isAny : found = hasMagic data := findMagic_eq isFound
  by_cases injected : injects data = true
  · obtain ⟨noMagic,low⟩ := injects_iff.mp injected
    rw [if_pos ⟨isAny.trans noMagic,low⟩] at ran
    obtain ⟨after,isAfter,ran⟩ := bind_ok_iff.mp ran
    obtain ⟨table,inFile⟩ := treated.room injected
    obtain ⟨rfl,changed⟩ := shiftOffsets_spec table inFile (fun i member => List.mem_range.mp member) List.nodup_range isAfter
    cases ran
    simp [withMultiboot,shiftedFile,injected,changed]
  · rw [if_neg (fun both => injected (injects_iff.mpr ⟨isAny ▸ both.1,both.2⟩))] at ran
    cases ran
    simp [withMultiboot,shiftedFile,injected]

theorem length_withMultiboot {file : List Byte} (same : file.length = data.length) :
    (withMultiboot data file).length = data.length + grownBy data := by
  by_cases injected : injects data = true
  · simp [withMultiboot,grownBy,injected,length_insert,same]
  · simp [withMultiboot,grownBy,injected,same]

section
variable (treated : Treated data) {file : List Byte} (same : file.length = data.length)
include treated same

theorem getElem?_withMultiboot (i : Nat) : (withMultiboot data file)[i]? =
    if injects data then
      if i < (headerOf data).mbiDataOff then file[i]?
      else if i < (headerOf data).mbiDataOff + 32 then (multiboot (headerOf data).entry)[i - (headerOf data).mbiDataOff]?
      else file[i - 32]?
    else file[i]? := by
  by_cases injected : injects data = true
  · obtain ⟨_,inFile⟩ := treated.room injected
    rw [if_pos injected,withMultiboot,if_pos injected,getElem?_insert _ (by omega),length_multiboot]
  · rw [if_neg injected,withMultiboot,if_neg injected]

/-- In front of the table's end nothing moves. -/
theorem withMultiboot_before {i : Nat} (before : i < (headerOf data).phoff + (headerOf data).phnum * 56) :
    (withMultiboot data file)[i]? = file[i]? := by
  rw [getElem?_withMultiboot treated same]
  by_cases injected : injects data = true
  · have ends := (treated.room injected).1.ends
    rw [if_pos injected,if_pos (by omega)]
  · rw [if_neg injected]

theorem setNumber_withMultiboot {pos v : Nat} (low : pos + 2 ≤ 64) :
    setNumber 2 (withMultiboot data file) pos v = withMultiboot data (setNumber 2 file pos v) := by
  by_cases injected : injects data = true
  · obtain ⟨table,inFile⟩ := treated.room injected
    have behind := table.behind
    have ends := table.ends
    rw [withMultiboot,if_pos injected,withMultiboot,if_pos injected]
    exact setNumber_insert (by omega) (by omega) (by omega)
  · rw [withMultiboot,if_neg injected,withMultiboot,if_neg injected]

theorem withMultiboot_setNumber_if (c : Prop) [Decidable c] {pos v : Nat} (low : pos + 2 ≤ 64) :
    withMultiboot data (if c then setNumber 2 file pos v else file) =
      if c then setNumber 2 (withMultiboot data file) pos v else withMultiboot data file := by
  split
  · exact (setNumber_withMultiboot treated same low).symm
  · rfl

end

theorem patchMachine_spec {h : Header} {file : List Byte} {r : Bool × List Byte} (ran : patchMachine h file = .ok r) :
    r.2 = if h.machine = 0x3e then setNumber 2 file 18 3 else file := by
  by_cases machine : h.machine = 0x3e
  · rw [patchMachine,if_pos machine] at ran
    obtain ⟨after,isAfter,ran⟩ := bind_ok_iff.mp ran
    obtain ⟨_,_,rfl⟩ := packInto_ok_iff.mp isAfter
    cases ran
    rw [if_pos machine]
  · rw [patchMachine,if_neg machine] at ran
    cases ran
    rw [if_neg machine]

theorem padded_eq (file : List Byte) :
    padded file = file ++ List.replicate ((file.length + 3) / 4 * 4 - file.length) 0 := rfl

/-- The count of the program headers is set in a file that is padded later. -/
theorem setNumber_note {file note header : List Byte} {place v : Nat} (low : 58 ≤ file.length) (before : 58 ≤ place)
    (inside : place ≤ file.length) : setNumber 2 (assign (padded file ++ note) place place header) 56 v =
      assign (padded (setNumber 2 file 56 v) ++ note) place place header := by
  have length : (setNumber 2 file 56 v).length = file.length := length_setNumber (by omega) (by omega)
  have longer : file.length ≤ (padded file).length := by rw [padded_eq,List.length_append]; omega
  rw [setNumber_insert (by omega) (by omega) (by rw [List.length_append]; omega),setNumber_append (by omega) (by omega),
    padded_eq,padded_eq,setNumber_append (by omega) (by omega),length]

theorem addNote_spec {h : Header} {entry32 : Int} {file : List Byte} {r : Bool × List Byte} (table : Table h file.length)
    (ran : addNote h entry32 file = .ok r) : (lacksNote h file = true → h.phnum + 1 < 256 ^ 2) ∧ r.2 =
      if lacksNote h file then
        assign (padded (setNumber 2 file 56 (h.phnum + 1)) ++ noteOf entry32) h.phoff h.phoff (noteHeader (padded file).length)
      else file := by
  have behind := table.behind
  have ends := table.ends
  obtain ⟨found,isFound,ran⟩ := bind_ok_iff.mp ran
  have isAll : found = !lacksNote h file := findNote_eq isFound
  by_cases lacks : lacksNote h file = true
  · rw [if_neg (by simp [isAll,lacks])] at ran
    obtain ⟨_,_,ran⟩ := bind_ok_iff.mp ran
    obtain ⟨after,isAfter,ran⟩ := bind_ok_iff.mp ran
    obtain ⟨small,_,rfl⟩ := packInto_ok_iff.mp isAfter
    cases ran
    rw [if_pos lacks]
    exact ⟨fun _ => small,setNumber_note (by omega) (by omega) (by omega)⟩
  · rw [if_pos (by simpa using isAll.trans (by simpa using lacks))] at ran
    cases ran
    rw [if_neg lacks]
    exact ⟨fun lacks' => absurd lacks' lacks,rfl⟩

/-- The types in the table are those of the file without insertions. -/
theorem lacksNote_congr {h : Header} {xs ys : List Byte}
    (same : ∀ i < h.phnum, number xs (h.place i) 4 = number ys (h.place i) 4) :
    lacksNote h xs = lacksNote h ys := by
  rw [lacksNote,lacksNote,Bool.eq_iff_iff,List.all_eq_true,List.all_eq_true]
  refine forall₂_congr fun i member => ?_
  rw [same i (List.mem_range.mp member)]

/-- A patched field that the byte is in. -/
def Patched (data : List Byte) (q : Nat) : Prop :=
  ((headerOf data).machine = 0x3e ∧ 18 ≤ q ∧ q < 20) ∨ (lacksNote (headerOf data) data = true ∧ 56 ≤ q ∧ q < 58) ∨
    (injects data = true ∧ ∃ i < (headerOf data).phnum, number data ((headerOf data).place i) 4 = 1 ∧
      (headerOf data).place i + 8 ≤ q ∧ q < (headerOf data).place i + 16)

/-- Of the ELF header only the machine and the count are patched. -/
theorem patched_header {q : Nat} (table : Table (headerOf data) data.length) (low : q < 64) (patched : Patched data q) :
    (18 ≤ q ∧ q < 20) ∨ (lacksNote (headerOf data) data = true ∧ 56 ≤ q ∧ q < 58) := by
  rcases patched with ⟨_,machine⟩ | count | ⟨_,i,low',_,behind,_⟩
  · exact .inl machine
  · exact .inr count
  · have inside := (table.inside low').1
    omega

/-- What a run that writes the file back has found and moved. -/
structure Moved (data : List Byte) : Prop extends Treated data where
  offsets : injects data = true → Shifted (headerOf data) (List.range (headerOf data).phnum) data
    (shifted (headerOf data) data (List.range (headerOf data).phnum))

section
variable (moved : Moved data)
include moved

theorem length_shiftedFile : (shiftedFile data).length = data.length := by
  rw [shiftedFile]
  split
  · exact (moved.offsets ‹_›).length
  · rfl

theorem length_machinedFile : (machinedFile data).length = data.length := by
  have header := moved.header
  have length := length_shiftedFile moved
  exact (length_setNumber_if (by omega) (by omega) _).trans length

theorem length_edited : (edited data).length = data.length := by
  have header := moved.header
  have length := length_machinedFile moved
  exact (length_setNumber_if (by omega) (by omega) _).trans length

theorem shiftedFile_kept {q : Nat} (kept : ¬ Patched data q) : (shiftedFile data)[q]? = data[q]? := by
  rw [shiftedFile]
  split
  · rename_i injected
    refine (moved.offsets injected).others q fun i member load => ?_
    by_contra inside
    exact kept (.inr (.inr ⟨injected,i,List.mem_range.mp member,load,by omega,by omega⟩))
  · rfl

theorem machinedFile_eq {q : Nat} (kept : ¬ ((headerOf data).machine = 0x3e ∧ 18 ≤ q ∧ q < 20)) :
    (machinedFile data)[q]? = (shiftedFile data)[q]? := by
  have header := moved.header
  have length := length_shiftedFile moved
  exact getElem?_setNumber_if (by omega) (by omega) kept

theorem edited_eq {q : Nat} (kept : ¬ (lacksNote (headerOf data) data = true ∧ 56 ≤ q ∧ q < 58)) :
    (edited data)[q]? = (machinedFile data)[q]? := by
  have header := moved.header
  have length := length_machinedFile moved
  exact getElem?_setNumber_if (by omega) (by omega) kept

/-- Outside the patched fields the file is as it was. -/
theorem edited_kept {q : Nat} (kept : ¬ Patched data q) : (edited data)[q]? = data[q]? := by
  rw [edited_eq moved (fun inside => kept (.inr (.inl inside))),machinedFile_eq moved (fun inside => kept (.inl inside)),
    shiftedFile_kept moved kept]

/-- A field of a program header other than the offset is not patched. -/
theorem field_kept {i offset width k : Nat} (low : i < (headerOf data).phnum) (inside : offset + width ≤ 56)
    (apart : offset + width ≤ 8 ∨ 16 ≤ offset) (small : k < width) :
    ¬ Patched data ((headerOf data).place i + offset + k) := by
  obtain ⟨behind,_⟩ := moved.table.inside low
  rintro (⟨_,_,before⟩ | ⟨_,_,before⟩ | ⟨_,j,low',_,after,before⟩)
  · omega
  · omega
  · by_cases same : i = j
    · subst same
      omega
    · have apart' := moved.table.apart same
      omega

theorem number_edited {i offset width : Nat} (low : i < (headerOf data).phnum) (inside : offset + width ≤ 56)
    (apart : offset + width ≤ 8 ∨ 16 ≤ offset) :
    number (edited data) ((headerOf data).place i + offset) width = number data ((headerOf data).place i + offset) width :=
  number_congr fun _ small => edited_kept moved (field_kept moved low inside apart small)

/-- The offset of a loadable segment, moved by what is put in before the note. -/
theorem offset_edited {i : Nat} (low : i < (headerOf data).phnum) (load : number data ((headerOf data).place i) 4 = 1) :
    number (edited data) ((headerOf data).place i + 8) 8 = number data ((headerOf data).place i + 8) 8 + grownBy data := by
  obtain ⟨behind,_⟩ := moved.table.inside low
  have same : number (edited data) ((headerOf data).place i + 8) 8 =
      number (shiftedFile data) ((headerOf data).place i + 8) 8 := by
    refine number_congr fun k small => ?_
    rw [edited_eq moved (by omega),machinedFile_eq moved (by omega)]
  rw [same,shiftedFile,grownBy]
  split
  · exact (moved.offsets ‹_›).offsets i (List.mem_range.mpr low) load
  · rfl

/-- The table does not show whether the fields have been patched and the multiboot header put in. -/
theorem lacksNote_machined :
    lacksNote (headerOf data) (withMultiboot data (machinedFile data)) = lacksNote (headerOf data) data := by
  refine lacksNote_congr fun i low => number_congr fun k small => ?_
  obtain ⟨behind,inside⟩ := (⟨moved.table.entries,moved.table.behind,Nat.le_refl _⟩ : Table (headerOf data) _).inside low
  have kept : ¬ Patched data ((headerOf data).place i + 0 + k) := field_kept moved low (by omega) (by omega) small
  rw [Nat.add_zero] at kept
  rw [withMultiboot_before moved.toTreated (length_machinedFile moved) (by omega),machinedFile_eq moved (by omega),
    shiftedFile_kept moved kept]

end

/-- What a run that writes the file back has done. -/
structure Written (data : List Byte) (entry32 : Int) (after : List Byte) : Prop extends Moved data where
  count : lacksNote (headerOf data) data = true → (headerOf data).phnum + 1 < 256 ^ 2
  file : after = layout data entry32

theorem written_of_ran {entry32 : Int} {after : List Byte} (wf : WellFormed data) (some' : (headerOf data).phnum ≠ 0)
    (ran : addBootNotes entry32 data = .ok (some after)) : Written data entry32 after := by
  rw [addBootNotes,if_neg (not_not.mpr wf.magic),wf.elf64] at ran
  simp only [ne_eq,not_true_eq_false,if_false,readHeader_eq wf.size,ok_bind] at ran
  obtain ⟨⟨injected,file₁⟩,isFirst,ran⟩ := bind_ok_iff.mp ran
  obtain ⟨⟨machined,file₂⟩,isSecond,ran⟩ := bind_ok_iff.mp ran
  obtain ⟨⟨noted,file₃⟩,isThird,ran⟩ := bind_ok_iff.mp ran
  have treated := treated_of_ran wf some' isFirst
  obtain ⟨first,offsets⟩ := injectMultiboot_spec treated isFirst
  cases first
  have moved : Moved data := ⟨treated,offsets⟩
  have second : file₂ = withMultiboot data (machinedFile data) := by
    rw [machinedFile,withMultiboot_setNumber_if treated (length_shiftedFile moved) _ (by omega)]
    exact patchMachine_spec isSecond
  subst second
  have length := length_withMultiboot (length_machinedFile moved)
  have table : Table (headerOf data) (withMultiboot data (machinedFile data)).length :=
    ⟨treated.table.entries,treated.table.behind,by have ends := treated.table.ends; omega⟩
  obtain ⟨count,third⟩ := addNote_spec table isThird
  rw [lacksNote_machined moved] at count third
  refine ⟨moved,count,?_⟩
  have header := treated.header
  have written : after = file₃ := by
    simp only at ran
    split at ran
    · cases ran
      rfl
    · cases ran
  have edits : withMultiboot data (edited data) = if lacksNote (headerOf data) data then
      setNumber 2 (withMultiboot data (machinedFile data)) 56 ((headerOf data).phnum + 1)
    else withMultiboot data (machinedFile data) :=
    withMultiboot_setNumber_if treated (length_machinedFile moved) _ (by omega)
  rw [written,layout,withNote,edits]
  simp only at third
  rw [third]
  split
  · have same : (padded (setNumber 2 (withMultiboot data (machinedFile data)) 56 ((headerOf data).phnum + 1))).length =
        (padded (withMultiboot data (machinedFile data))).length := by
      rw [padded,padded,length_ljust,length_ljust,length_setNumber (by omega) (by omega)]
    rw [same]
  · rfl

/-! ## What lies where -/

/-- How far the note's header moves what is behind it. -/
def notedBy (data : List Byte) : Nat := if lacksNote (headerOf data) data then 56 else 0

/-- The byte at `x` of the file that is written back, in front of its padding. -/
def arriving (data : List Byte) (x : Nat) : Option Byte :=
  let h := headerOf data
  if lacksNote h data then
    if x < h.phoff then (withMultiboot data (edited data))[x]?
    else if x < h.phoff + 56 then (noteHeader ((data.length + grownBy data + 3) / 4 * 4))[x - h.phoff]?
    else (withMultiboot data (edited data))[x - 56]?
  else (withMultiboot data (edited data))[x]?

@[simp] theorem length_noteHeader (noteOffset : Nat) : (noteHeader noteOffset).length = 56 := by
  simp [noteHeader,length_packed]

section
variable {entry32 : Int} {after : List Byte} (written : Written data entry32 after)
include written

theorem arriving_eq {x : Nat} (inside : x < data.length + grownBy data) : after[x]? = arriving data x := by
  obtain ⟨file,isFile⟩ : ∃ file, file = withMultiboot data (edited data) := ⟨_,rfl⟩
  have length : file.length = data.length + grownBy data := isFile ▸ length_withMultiboot (length_edited written.toMoved)
  have isPadded : (padded file).length = (data.length + grownBy data + 3) / 4 * 4 := by
    rw [padded,length_ljust,length]
    omega
  have ends := written.table.ends
  have early : ∀ y < file.length, (padded file ++ noteOf entry32)[y]? = file[y]? := by
    intro y low
    rw [padded_eq,List.append_assoc,List.getElem?_append_left low]
  rw [written.file,layout,withNote,arriving,← isFile]
  by_cases lacks : lacksNote (headerOf data) data = true
  · simp only [if_pos lacks]
    rw [getElem?_insert _ (by rw [List.length_append]; omega),length_noteHeader,isPadded]
    by_cases before : x < (headerOf data).phoff
    · rw [if_pos before,if_pos before,early x (by omega)]
    · rw [if_neg before,if_neg before]
      by_cases header : x < (headerOf data).phoff + 56
      · rw [if_pos header,if_pos header]
      · rw [if_neg header,if_neg header,early (x - 56) (by omega)]
  · simp only [if_neg lacks]

theorem before_table {x : Nat} (before : x < (headerOf data).phoff) : after[x]? = (edited data)[x]? := by
  have ends := written.table.ends
  rw [arriving_eq written (by omega),arriving]
  simp only [if_pos before,ite_self]
  exact withMultiboot_before written.toTreated (length_edited written.toMoved) (by omega)

theorem in_table {x : Nat} (behind : (headerOf data).phoff ≤ x)
    (before : x < (headerOf data).phoff + (headerOf data).phnum * 56) :
    after[x + notedBy data]? = (edited data)[x]? := by
  have ends := written.table.ends
  have same := withMultiboot_before written.toTreated (length_edited written.toMoved) before
  by_cases lacks : lacksNote (headerOf data) data = true
  · -- the note's header takes the table's place, and the padding may begin right behind the table
    obtain ⟨file,isFile⟩ : ∃ file, file = withMultiboot data (edited data) := ⟨_,rfl⟩
    have length : file.length = data.length + grownBy data := isFile ▸ length_withMultiboot (length_edited written.toMoved)
    rw [written.file,layout,withNote,if_pos lacks,notedBy,if_pos lacks,← isFile,
      getElem?_insert _ (by rw [padded_eq,List.length_append,List.length_append]; omega),length_noteHeader,if_neg (by omega),
      if_neg (by omega),Nat.add_sub_cancel,padded_eq,List.append_assoc,List.getElem?_append_left (by omega),isFile,same]
  · rw [notedBy,if_neg lacks,Nat.add_zero,arriving_eq written (by omega),arriving]
    simp only [if_neg lacks]
    exact same

theorem number_before {pos width : Nat} (low : pos + width ≤ 64) : number after pos width = number (edited data) pos width := by
  have behind := written.table.behind
  exact number_congr fun k small => before_table written (by omega)

/-- The ELF header of the file that is written back. -/
theorem headerOf_after : (headerOf after).phoff = (headerOf data).phoff ∧ (headerOf after).phentsize = 56 ∧
    (headerOf after).phnum = (headerOf data).phnum + if lacksNote (headerOf data) data then 1 else 0 := by
  have behind := written.table.behind
  have header := written.header
  have kept : ∀ pos width, pos + width ≤ 64 →
      (∀ k < width, ¬ Patched data (pos + k)) → number after pos width = number data pos width :=
    fun pos width low unpatched =>
      (number_before written low).trans (number_congr fun k small => edited_kept written.toMoved (unpatched k small))
  refine ⟨?_,?_,?_⟩
  · refine kept 32 8 (by omega) fun k small patched => ?_
    have place := patched_header written.table (by omega) patched
    omega
  · refine (kept 54 2 (by omega) fun k small patched => ?_).trans written.table.entries
    have place := patched_header written.table (by omega) patched
    omega
  · have count := written.count
    have length := length_machinedFile written.toMoved
    refine (show number after 56 2 = number (edited data) 56 2 from number_before written (by omega)).trans ?_
    by_cases lacks : lacksNote (headerOf data) data = true
    · rw [edited,if_pos lacks,if_pos lacks]
      exact number_setNumber (by omega) (by omega) (count lacks)
    · rw [if_neg lacks]
      refine number_congr fun k small => edited_kept written.toMoved fun patched => ?_
      rcases patched_header written.table (by omega) patched with machine | ⟨lacks',_⟩
      · omega
      · exact lacks lacks'

theorem number_in_table {i offset width : Nat} (low : i < (headerOf data).phnum) (inside : offset + width ≤ 56) :
    number after ((headerOf data).place i + notedBy data + offset) width =
      number (edited data) ((headerOf data).place i + offset) width := by
  have row : (i + 1) * 56 ≤ (headerOf data).phnum * 56 := Nat.mul_le_mul_right 56 low
  have place : (headerOf data).place i = (headerOf data).phoff + i * 56 := by rw [Header.place,written.table.entries]
  refine number_congr fun k small => ?_
  rw [show (headerOf data).place i + notedBy data + offset + k = (headerOf data).place i + offset + k + notedBy data by omega]
  exact in_table written (by omega) (by omega)

end

/-! ## The segments -/

/-- A program header that is the same apart from its offset. -/
structure HeaderKept (data : List Byte) (place : Nat) (after : List Byte) (place' : Nat) : Prop where
  type : number after place' 4 = number data place 4
  flags : number after (place' + 4) 4 = number data (place + 4) 4
  vaddr : number after (place' + 16) 8 = number data (place + 16) 8
  paddr : number after (place' + 24) 8 = number data (place + 24) 8
  filesz : number after (place' + 32) 8 = number data (place + 32) 8
  memsz : number after (place' + 40) 8 = number data (place + 40) 8
  align : number after (place' + 48) 8 = number data (place + 48) 8

/-- The bytes that a program header selects are those it selected, patched fields aside. -/
def BytesKept (data : List Byte) (place : Nat) (after : List Byte) (place' : Nat) : Prop :=
  ∀ k < number data (place + 32) 8, ¬ Patched data (number data (place + 8) 8 + k) →
    after[number after (place' + 8) 8 + k]? = data[number data (place + 8) 8 + k]?

/-- Where the program header `i` of a file is in the file that is written back: new headers are in front. -/
def placeAfter (data after : List Byte) (i : Nat) : Nat :=
  (headerOf after).place (i + ((headerOf after).phnum - (headerOf data).phnum))

/-- Every PT_LOAD header is in the table of the file that is written back, with its address and sizes, and selects its bytes. -/
def Kept (data after : List Byte) : Prop :=
  ∀ i < (headerOf data).phnum, number data ((headerOf data).place i) 4 = 1 →
    i + ((headerOf after).phnum - (headerOf data).phnum) < (headerOf after).phnum ∧
    HeaderKept data ((headerOf data).place i) after (placeAfter data after i) ∧
    BytesKept data ((headerOf data).place i) after (placeAfter data after i)

/-- The byte `p` of a file is where an offset moved by the multiboot header finds it, or equal to what is there. With both
    headers put in nothing is in its place: what follows the table moves by 88 bytes, what is before it not at all. -/
def Survives (data : List Byte) (p : Nat) : Prop :=
  let h := headerOf data
  let header := noteHeader ((data.length + grownBy data + 3) / 4 * 4)
  if injects data then
    if lacksNote h data then
      data[p]? =
        if p + 32 < h.phoff then (edited data)[p + 32]?
        else if p < h.phoff + 24 then header[p + 32 - h.phoff]?
        else if p < h.mbiDataOff + 24 then (edited data)[p - 24]?
        else if p < h.mbiDataOff + 56 then (multiboot h.entry)[p - 24 - h.mbiDataOff]?
        else (edited data)[p - 56]?
    else h.mbiDataOff ≤ p ∨ data[p]? =
      if p + 32 < h.mbiDataOff then (edited data)[p + 32]? else (multiboot h.entry)[p + 32 - h.mbiDataOff]?
  else if lacksNote h data then
    p < h.phoff ∨ data[p]? = if p < h.phoff + 56 then header[p - h.phoff]? else (edited data)[p - 56]?
  else True

section
variable {entry32 : Int} {after : List Byte} (written : Written data entry32 after)
include written

theorem placeAfter_eq (i : Nat) : placeAfter data after i = (headerOf data).place i + notedBy data := by
  obtain ⟨phoff,phentsize,phnum⟩ := headerOf_after written
  rw [placeAfter,Header.place,Header.place,phoff,phentsize,phnum,written.table.entries,notedBy]
  split
  · omega
  · omega

theorem headers_kept {i : Nat} (low : i < (headerOf data).phnum) :
    HeaderKept data ((headerOf data).place i) after (placeAfter data after i) := by
  have field : ∀ offset width, offset + width ≤ 56 → (offset + width ≤ 8 ∨ 16 ≤ offset) →
      number after (placeAfter data after i + offset) width = number data ((headerOf data).place i + offset) width := by
    intro offset width inside apart
    rw [placeAfter_eq written i,number_in_table written low inside,number_edited written.toMoved low inside apart]
  exact ⟨field 0 4 (by omega) (by omega),field 4 4 (by omega) (by omega),field 16 8 (by omega) (by omega),
    field 24 8 (by omega) (by omega),field 32 8 (by omega) (by omega),field 40 8 (by omega) (by omega),
    field 48 8 (by omega) (by omega)⟩

/-- A loadable segment's new offset. -/
theorem offset_after {i : Nat} (low : i < (headerOf data).phnum) (load : number data ((headerOf data).place i) 4 = 1) :
    number after (placeAfter data after i + 8) 8 = number data ((headerOf data).place i + 8) 8 + grownBy data := by
  rw [placeAfter_eq written i,number_in_table written low (by omega),offset_edited written.toMoved low load]

theorem survives_iff {p : Nat} (inside : p < data.length) (kept : ¬ Patched data p) :
    after[p + grownBy data]? = data[p]? ↔ Survives data p := by
  have here := edited_kept written.toMoved kept
  have length := length_edited written.toMoved
  have ends := written.table.ends
  rw [arriving_eq written (by omega),arriving,Survives]
  simp only [getElem?_withMultiboot written.toTreated length]
  by_cases injected : injects data = true
  · have behind := (written.room injected).1.ends
    simp only [if_pos injected,show grownBy data = 32 from if_pos injected]
    by_cases lacks : lacksNote (headerOf data) data = true
    · simp only [if_pos lacks]
      rw [eq_comm]
      refine Eq.congr_right ?_
      by_cases before : p + 32 < (headerOf data).phoff
      · rw [if_pos before,if_pos before,if_pos (by omega)]
      by_cases header : p < (headerOf data).phoff + 24
      · rw [if_neg before,if_neg before,if_pos (by omega),if_pos header]
      rw [if_neg before,if_neg before,if_neg (by omega),if_neg header,show p + 32 - 56 = p - 24 by omega]
      by_cases early : p < (headerOf data).mbiDataOff + 24
      · rw [if_pos (by omega),if_pos early]
      by_cases multiboot : p < (headerOf data).mbiDataOff + 56
      · rw [if_neg (by omega),if_neg early,if_pos (by omega),if_pos multiboot]
      · rw [if_neg (by omega),if_neg early,if_neg (by omega),if_neg multiboot,show p - 24 - 32 = p - 56 by omega]
    · simp only [if_neg lacks]
      by_cases late : (headerOf data).mbiDataOff ≤ p
      · rw [if_neg (by omega),if_neg (by omega),Nat.add_sub_cancel]
        exact iff_of_true here (.inl late)
      · rw [eq_comm]
        by_cases early : p + 32 < (headerOf data).mbiDataOff
        · rw [if_pos early,if_pos early]
          exact (or_iff_right late).symm
        · rw [if_neg early,if_neg early,if_pos (by omega)]
          exact (or_iff_right late).symm
  · simp only [if_neg injected,show grownBy data = 0 from if_neg injected,Nat.add_zero]
    by_cases lacks : lacksNote (headerOf data) data = true
    · simp only [if_pos lacks]
      by_cases before : p < (headerOf data).phoff
      · rw [if_pos before]
        exact iff_of_true here (.inl before)
      · rw [if_neg before,eq_comm]
        exact (or_iff_right before).symm
    · simp only [if_neg lacks]
      exact iff_of_true here trivial

end

/-- For every well-formed file that the tool writes back: the PT_LOAD headers with their bytes are kept exactly when every byte
    of a loadable segment, outside the patched fields, survives the insertions. -/
theorem segments_kept_iff (data after : List Byte) (entry32 : Int) (wf : WellFormed data)
    (ran : addBootNotes entry32 data = .ok (some after)) :
    Kept data after ↔ ∀ i < (headerOf data).phnum, number data ((headerOf data).place i) 4 = 1 →
      ∀ k < number data ((headerOf data).place i + 32) 8, ¬ Patched data (number data ((headerOf data).place i + 8) 8 + k) →
        Survives data (number data ((headerOf data).place i + 8) 8 + k) := by
  refine forall_congr' fun i => forall_congr' fun low => forall_congr' fun load => ?_
  have written := written_of_ran wf (by omega) ran
  have inFile := wf.segments i low load
  have count := (headerOf_after written).2.2
  have bytes : BytesKept data ((headerOf data).place i) after (placeAfter data after i) ↔
      ∀ k < number data ((headerOf data).place i + 32) 8, ¬ Patched data (number data ((headerOf data).place i + 8) 8 + k) →
        Survives data (number data ((headerOf data).place i + 8) 8 + k) := by
    refine forall_congr' fun k => forall_congr' fun small => forall_congr' fun kept => ?_
    rw [offset_after written low load,Nat.add_right_comm]
    exact survives_iff written (by omega) kept
  rw [← bytes]
  exact ⟨fun all => all.2.2,fun same => ⟨by omega,headers_kept written low,same⟩⟩

/-- An ELF64 file for x86-64 with `phnum` program headers behind the ELF header. -/
def elfFile (phnum : Nat) (rest : List Byte) : List Byte :=
  [0x7F,0x45,0x4C,0x46,2,1,1,0] ++ List.replicate 8 0 ++ packed 2 2 ++ packed 2 0x3e ++ packed 4 1 ++ packed 8 0 ++ packed 8 64 ++
    packed 8 0 ++ packed 4 0 ++ packed 2 64 ++ packed 2 56 ++ packed 2 phnum ++ List.replicate 6 0 ++ rest

def programHeader (type offset size : Nat) : List Byte :=
  packed 4 type ++ packed 4 5 ++ packed 8 offset ++ packed 8 0x100000 ++ packed 8 0x100000 ++ packed 8 size ++ packed 8 size ++
    packed 8 4

/-- A file with a note and a multiboot magic number of its own. -/
def prepared : List Byte := elfFile 2 (programHeader 4 176 4 ++ programHeader 1 176 4 ++ [0x02,0xB0,0xAD,0x1B])

/-- A file with a note of its own and two segments behind the table, which gets a multiboot header in front of them. -/
def noted : List Byte :=
  elfFile 3 (programHeader 4 232 4 ++ programHeader 1 232 4 ++ programHeader 1 236 4 ++ [1,2,3,4,5,6,7,8])

theorem segments_kept_iff_noted : WellFormed noted ∧ addBootNotes 0x100 noted = .ok (some (layout noted 0x100)) ∧
    Kept noted (layout noted 0x100) ∧ (layout noted 0x100).length = noted.length + 32 := by
  have wf : WellFormed noted := by constructor <;> decide +kernel
  have ran : addBootNotes 0x100 noted = .ok (some (layout noted 0x100)) := by decide +kernel
  have magic : injects noted = true := by decide +kernel
  have note : lacksNote (headerOf noted) noted = false := by decide +kernel
  have table : (headerOf noted).mbiDataOff = 232 := by decide +kernel
  have behind : ∀ i < (headerOf noted).phnum, number noted ((headerOf noted).place i) 4 = 1 →
      232 ≤ number noted ((headerOf noted).place i + 8) 8 := by decide +kernel
  refine ⟨wf,ran,(segments_kept_iff noted (layout noted 0x100) 0x100 wf ran).mpr fun i low load k _ _ => ?_,by decide +kernel⟩
  have later := behind i low load
  simp only [Survives,magic,note,table]
  exact .inl (Nat.le_add_right_of_le later)

/-- A file that gets both headers. Its segment is behind the table. -/
def oneLoad : List Byte := elfFile 1 (programHeader 1 120 4 ++ [1,2,3,4])

theorem segment_lost : ¬ ∀ (data after : List Byte) (entry32 : Int), WellFormed data →
    addBootNotes entry32 data = .ok (some after) → Kept data after := by
  intro all
  have wf : WellFormed oneLoad := by constructor <;> decide +kernel
  have kept := all oneLoad (layout oneLoad 0x100) 0x100 wf (by decide +kernel)
  obtain ⟨_,_,bytes⟩ := kept 0 (by decide +kernel) (by decide +kernel)
  have offset : number oneLoad ((headerOf oneLoad).place 0 + 8) 8 = 120 := by decide +kernel
  have place : (headerOf oneLoad).place 0 = 64 := by decide +kernel
  have one : (headerOf oneLoad).phnum = 1 := by decide +kernel
  have unpatched : ¬ Patched oneLoad (number oneLoad ((headerOf oneLoad).place 0 + 8) 8 + 0) := by
    rw [offset]
    rintro (⟨_,_,inside⟩ | ⟨_,_,inside⟩ | ⟨_,i,low,_,_,inside⟩)
    · omega
    · omega
    · obtain rfl : i = 0 := by omega
      omega
  have first := bytes 0 (by decide +kernel) unpatched
  exact absurd first (by decide +kernel)

end Sel4Linux.BootNotes
