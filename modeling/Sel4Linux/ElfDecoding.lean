import Sel4Linux.ElfBounds

/-!
What `parse_elf` makes of a well-formed file. A table of program headers is
stored with any entry size and anywhere behind the ELF header (`ElfFile`);
`parse_elf` returns the entry and its loadable headers in their order
(`parseElf_stored`), whatever the other bytes of the file are.
-/
namespace Sel4Linux.ElfDecoding
open Sel4Linux.Bytes Sel4Linux.Ipc Sel4Linux.Execve Sel4Linux.Runs Sel4Linux.Loader Sel4Linux.ElfBounds
set_option linter.unusedSimpArgs false

/-! ## Files with a table of program headers -/

/-- The fields of a program header that the loaders read. -/
structure ProgramHeader where
  type : BitVec 32
  flags : BitVec 32
  offset : Word
  vaddr : Word
  filesz : Word
  memsz : Word
  deriving DecidableEq

/-- The bytes at a position of a file. -/
def Stored (data : List Byte) (pos : Nat) (bytes : List Byte) : Prop := (data.drop pos).take bytes.length = bytes

/-- A number of `width` bytes at a position of a file, least significant byte first. -/
def StoredWord (data : List Byte) (pos width : Nat) (w : Word) : Prop := Stored data pos ((leBytes w).take width)

/-- The fields of a program header at their places. -/
structure StoredHeader (data : List Byte) (pos : Nat) (ph : ProgramHeader) : Prop where
  type : StoredWord data pos 4 (ph.type.setWidth 64)
  flags : StoredWord data (pos + 4) 4 (ph.flags.setWidth 64)
  offset : StoredWord data (pos + 8) 8 ph.offset
  vaddr : StoredWord data (pos + 16) 8 ph.vaddr
  filesz : StoredWord data (pos + 32) 8 ph.filesz
  memsz : StoredWord data (pos + 40) 8 ph.memsz

/-- A file for a 64-bit machine with an entry and a table of program headers at `phoff`, `phentsize` bytes apart. -/
structure ElfFile (data : List Byte) (entry phoff : Word) (phentsize : Nat) (headers : List ProgramHeader) : Prop where
  magic : Stored data 0 ELF_MAGIC
  class64 : Stored data 4 [ELFCLASS64]
  entryAt : StoredWord data 24 8 entry
  phoffAt : StoredWord data 32 8 phoff
  phentsizeAt : StoredWord data 54 2 (BitVec.ofNat 64 phentsize)
  phnumAt : StoredWord data 56 2 (BitVec.ofNat 64 headers.length)
  few : headers.length ≤ 65535
  least : 56 ≤ phentsize
  most : phentsize ≤ 65535
  behind : 64 ≤ phoff.toNat
  inFile : phoff.toNat + headers.length * phentsize ≤ data.length
  short : data.length < 2 ^ 63
  stored : ∀ i ph, headers[i]? = some ph → StoredHeader data (phoff.toNat + i * phentsize) ph

/-- What a loader keeps of a header: nothing unless it is loadable. -/
def ProgramHeader.segment (ph : ProgramHeader) : Option ElfSegment :=
  if ph.type = 1 then
    some { fileOffset := ph.offset, vaddr := ph.vaddr, filesz := ph.filesz, memsz := ph.memsz, flags := ph.flags.setWidth 64 }
  else none

/-! ## Reading the fields -/

theorem wordAt_stored {data : List Byte} {pos width : Nat} {w : Word} (stored : StoredWord data pos width w)
    (most : width ≤ 8) (small : w.toNat < 2 ^ (8 * width)) : wordAt data pos width = w := by
  rw [StoredWord,Stored,List.length_take,leBytes_length,Nat.min_eq_left most] at stored
  rw [wordAt,List.drop_take,Nat.add_sub_cancel_left,stored]
  exact packWord_take_leBytes small

/-- A double word of a file. -/
theorem wordAt_half {data : List Byte} {pos : Nat} {w : BitVec 32} (stored : StoredWord data pos 4 (w.setWidth 64)) :
    wordAt data pos 4 = w.setWidth 64 := by
  refine wordAt_stored stored (by decide) ?_
  have bound := w.isLt
  rw [BitVec.toNat_setWidth]
  omega

variable {data : List Byte} {entry phoff : Word} {phentsize : Nat} {headers : List ProgramHeader}

theorem headerOf_stored (file : ElfFile data entry phoff phentsize headers) :
    headerOf data =
      { entry := entry, phoff := phoff, phentsize := BitVec.ofNat 64 phentsize, phnum := BitVec.ofNat 64 headers.length } := by
  have few := file.few
  have most := file.most
  rw [headerOf,wordAt_stored file.entryAt (by decide) entry.isLt,wordAt_stored file.phoffAt (by decide) phoff.isLt,
    wordAt_stored file.phentsizeAt (by decide) (by rw [BitVec.toNat_ofNat]; omega),
    wordAt_stored file.phnumAt (by decide) (by rw [BitVec.toNat_ofNat]; omega)]

theorem not_rejected (file : ElfFile data entry phoff phentsize headers) : rejected data = false := by
  have long : 64 ≤ data.length := by
    have behind := file.behind
    have inFile := file.inFile
    omega
  have magic : data.take 4 = ELF_MAGIC := file.magic
  have class64 : (data.drop 4).take 1 = [2] := file.class64
  have fifth : data.getD 4 0 = 2 := by
    have first := congrArg (fun bytes => bytes[0]?) class64
    rw [List.getElem?_take_of_lt (by decide),List.getElem?_drop] at first
    rw [List.getD_eq_getElem?_getD,first]
    rfl
  rw [rejected,magic,fifth]
  simp
  omega

/-- The visit of a header that is stored. -/
theorem parseSegment_stored {pos : Nat} {ph : ProgramHeader} (stored : StoredHeader data pos ph)
    (inFile : pos + 56 ≤ data.length) (room : pos + 56 < 2 ^ 64) :
    checked.parseSegment data (BitVec.ofNat 64 pos) = .ok ph.segment := by
  have load : ph.type.setWidth 64 = PT_LOAD ↔ ph.type = 1 := by
    constructor
    · intro same
      have low := congrArg (BitVec.setWidth 32) same
      rw [BitVec.setWidth_setWidth_of_le _ (by decide),BitVec.setWidth_eq] at low
      exact low
    · intro same
      rw [same]
      rfl
  have flags : checked.field data (BitVec.ofNat 64 pos) 4 4 = .ok (wordAt data (pos + 4) 4) :=
    checked_field inFile room 4 4 (by decide)
  rw [Arith.parseSegment,checked_type inFile room,ok_bind,wordAt_half stored.type,checked_segment inFile room,ok_bind,flags,ok_bind,
    ProgramHeader.segment]
  by_cases isLoad : ph.type = 1
  · rw [if_pos isLoad,if_neg (not_not.mpr (load.mpr isLoad)),segmentAt,wordAt_half stored.flags,
      wordAt_stored stored.offset (by decide) ph.offset.isLt,wordAt_stored stored.vaddr (by decide) ph.vaddr.isLt,
      wordAt_stored stored.filesz (by decide) ph.filesz.isLt,wordAt_stored stored.memsz (by decide) ph.memsz.isLt]
  · rw [if_neg isLoad,if_pos (mt load.mp isLoad)]

/-- The loop over the headers from the `i`th on: each is in the file and is read at its own place. -/
theorem forHeaders_stored (file : ElfFile data entry phoff phentsize headers) {n i : Nat} (rest : i + n = headers.length) :
    checked.forHeaders data (headerOf data) (checked.parseSegment data) n i =
      .ok ((headers.drop i).filterMap ProgramHeader.segment) := by
  induction n generalizing i with
  | zero =>
    rw [List.drop_eq_nil_of_le (by omega)]
    rfl
  | succ n ih =>
    obtain ⟨ph,isHeader⟩ : ∃ ph, headers[i]? = some ph := ⟨_,List.getElem?_eq_getElem (by omega)⟩
    have isPlace : place (headerOf data) i = phoff.toNat + i * phentsize := by
      have most := file.most
      rw [headerOf_stored file,place,BitVec.toNat_ofNat,Nat.mod_eq_of_lt (by omega)]
    have inFile : place (headerOf data) i + 56 ≤ data.length := by
      have least := file.least
      have whole := file.inFile
      have step : (i + 1) * phentsize ≤ headers.length * phentsize := Nat.mul_le_mul_right _ (by omega)
      rw [Nat.succ_mul] at step
      omega
    have room : place (headerOf data) i + 56 < 2 ^ 64 := by
      have short := file.short
      omega
    obtain ⟨product,sum,last⟩ := place_sums (h := headerOf data) (i := i) (by have := file.few; omega) room
    have visited := parseSegment_stored (isPlace ▸ file.stored i ph isHeader) inFile room
    have split : headers.drop i = ph :: headers.drop (i + 1) := by
      obtain ⟨inside,here⟩ := List.getElem?_eq_some_iff.mp isHeader
      rw [List.drop_eq_getElem_cons inside,here]
    rw [Arith.forHeaders,product,ok_bind,sum,ok_bind,last,ok_bind,BitVec.toNat_ofNat,Nat.mod_eq_of_lt room,
      if_neg (Nat.not_lt.mpr inFile),visited,ok_bind,ih (by omega),ok_bind,split,List.filterMap_cons]
    cases ph.segment with
    | none => rfl
    | some seg => rfl

/-- For every entry, every list of program headers, and every size and place of their table in the file: `parse_elf`
    returns the entry and the loadable headers in their order, in a build with overflow checks and in one without. -/
theorem parseElf_stored (file : ElfFile data entry phoff phentsize headers) :
    parseElf checked data = .ok (some { entry := entry, segments := headers.filterMap ProgramHeader.segment }) ∧
      parseElf release data = .ok (some { entry := entry, segments := headers.filterMap ProgramHeader.segment }) := by
  have long : 64 ≤ data.length := by
    have behind := file.behind
    have inFile := file.inFile
    omega
  have count : (BitVec.ofNat 64 headers.length).toNat = headers.length := by
    have few := file.few
    rw [BitVec.toNat_ofNat,Nat.mod_eq_of_lt (by omega)]
  have ran : parseElf checked data = .ok (some { entry := entry, segments := headers.filterMap ProgramHeader.segment }) := by
    have loop := forHeaders_stored file (Nat.zero_add headers.length)
    rw [parseElf,not_rejected file,readHeader_eq long]
    change (checked.forHeaders data (headerOf data) _ (headerOf data).phnum.toNat 0 >>= _) = _
    rw [show (headerOf data).phnum.toNat = headers.length by rw [headerOf_stored file]; exact count,loop,ok_bind,
      headerOf_stored file]
    rfl
  exact ⟨ran,carries_parseElf checked_below_release data _ ran⟩

/-- A header with eight more bytes behind it than it needs. -/
def longHeader (ph : ProgramHeader) : List Byte :=
  (leBytes (ph.type.setWidth 64)).take 4 ++ (leBytes (ph.flags.setWidth 64)).take 4 ++ leBytes ph.offset ++ leBytes ph.vaddr ++
    leBytes ph.vaddr ++ leBytes ph.filesz ++ leBytes ph.memsz ++ leBytes 0x1000 ++ List.replicate 8 0xFF

/-- Two segments, with a note between their headers. -/
def notedHeaders (size : Word) : List ProgramHeader :=
  [⟨1,5,264,0x1000,3,0x1800⟩,⟨4,4,0,0,0,0⟩,⟨1,6,267,0x200000,4,size⟩]

/-- A program with these headers, 64 bytes apart from position 72 on. The second segment has `size` bytes. -/
def notedProgram (size : Word) : List Byte :=
  [0x7F,0x45,0x4C,0x46,2,1,1,0] ++ List.replicate 16 0 ++ leBytes 0x1010 ++ leBytes 72 ++ List.replicate 14 0 ++
    [64,0,3,0] ++ List.replicate 14 0xFF ++ (notedHeaders size).flatMap longHeader ++ [7,8,9,1,2,3,4]

private theorem notedProgram_stored : ElfFile (notedProgram 0x2000) 0x1010 72 64 (notedHeaders 0x2000) := by
  have length : (notedProgram 0x2000).length = 271 := by decide +kernel
  refine ⟨rfl,rfl,rfl,rfl,rfl,rfl,by decide,by decide,by decide,by decide,by rw [length]; decide,by rw [length]; decide,?_⟩
  intro i ph here
  obtain ⟨rfl,rfl⟩ | ⟨rfl,rfl⟩ | ⟨rfl,rfl⟩ : (i = 0 ∧ ph = ⟨1,5,264,0x1000,3,0x1800⟩) ∨ (i = 1 ∧ ph = ⟨4,4,0,0,0,0⟩) ∨
      (i = 2 ∧ ph = ⟨1,6,267,0x200000,4,0x2000⟩) := by
    match i with
    | 0 => exact .inl ⟨rfl,(Option.some.inj here).symm⟩
    | 1 => exact .inr (.inl ⟨rfl,(Option.some.inj here).symm⟩)
    | 2 => exact .inr (.inr ⟨rfl,(Option.some.inj here).symm⟩)
    | _ + 3 => cases here
  all_goals exact ⟨rfl,rfl,rfl,rfl,rfl,rfl⟩

theorem parseElf_stored_noted : parseElf release (notedProgram 0x2000) = .ok (some { entry := 0x1010, segments :=
    [{ fileOffset := 264, vaddr := 0x1000, filesz := 3, memsz := 0x1800, flags := 5 },
      { fileOffset := 267, vaddr := 0x200000, filesz := 4, memsz := 0x2000, flags := 6 }] }) :=
  (parseElf_stored notedProgram_stored).2

end Sel4Linux.ElfDecoding
