import Sel4Linux.EntryStack
import Sel4Linux.RootMemory

/-!
The stack of the first process (`create_user_task` in `lcl/src/task/runner.rs`).
The strings go downward from the end of the stack page, and the count, the
addresses and the auxiliary entries upward from an aligned address below them.
For every list of arguments that has room the result is a System V entry layout,
and nothing of it is covered by anything else (`first_stack`).
-/
namespace Sel4Linux.FirstStack
open Sel4Linux.Bytes Sel4Linux.Ipc Sel4Linux.TaskMem Sel4Linux.Utf8 Sel4Linux.Execve Sel4Linux.Overlay Sel4Linux.RootMemory
open Sel4Linux.EntryStack Sel4Linux.Runs
set_option linter.unusedSimpArgs false

def STACK_VADDR : Word := 0xF10000

/-- Pages below the stack page. -/
def STACK_EXTRA_PAGES : Nat := 32

/-- The 16 bytes for AT_RANDOM. -/
def RANDOM_BYTES : List Byte := (List.range 16).map fun i => BitVec.ofNat 8 i ^^^ 0xA5

/-- "x86_64". -/
def PLATFORM : List Byte := [0x78,0x38,0x36,0x5F,0x36,0x34]

/-- What the auxiliary entries say of the program. -/
structure Image where
  relocatedEntry : Word
  phoff : Word
  phentsize : Word
  phnum : Word

/-- The loop over the arguments: the strings downward from `data`, and their addresses in order. -/
def pushArgs (m : RootMem) (data : Word) : List (List Byte) → Except RootStop (RootMem × Word × List Word)
  | [] => .ok (m,data,[])
  | arg :: rest => do
    let addr := data - BitVec.ofNat 64 (arg.length + 1)
    let m ← store m addr arg
    let m ← store m (addr + BitVec.ofNat 64 arg.length) [0]
    let (m,data,addrs) ← pushArgs m addr rest
    .ok (m,data,addr :: addrs)

def auxv (randomBytesAddr platformAddr : Word) (image : Image) : List (Word × Word) :=
  [(25,randomBytesAddr),(23,0),(17,100),(16,0),(15,platformAddr),(14,0),(13,0),(12,0),(11,0),(9,image.relocatedEntry),(7,0),
    (6,BitVec.ofNat 64 PAGE_SIZE),(5,image.phnum),(4,image.phentsize),(3,LOAD_BASE + image.phoff),(0,0)]

/-- The words that are pushed upward from `p`. -/
def pushWords (m : RootMem) (p : Word) : List Word → Except RootStop RootMem
  | [] => .ok m
  | val :: rest => do
    let m ← store m p (leBytes val)
    pushWords m (p + 8) rest

/-- The stack of `create_user_task`: `rsp`, and the memory. -/
def startFrame (m : RootMem) (image : Image) (args : List (List Byte)) : Except RootStop (Word × RootMem) := do
  let data := STACK_VADDR + BitVec.ofNat 64 PAGE_SIZE
  let randomBytesAddr := data - 16
  let m ← store m randomBytesAddr RANDOM_BYTES
  let platform := PLATFORM ++ [0]
  let platformAddr := randomBytesAddr - BitVec.ofNat 64 platform.length
  let m ← store m platformAddr platform
  let args := if args.isEmpty then [ARG] else args
  let (m,data,argv) ← pushArgs m platformAddr args
  let auxv := auxv randomBytesAddr platformAddr image
  let arrayWords := 1 + (argv.length + 1) + (0 + 1) + auxv.length * 2
  let base := (data - BitVec.ofNat 64 (arrayWords * 8)) &&& ~~~15#64
  let m ← pushWords m base
    ([BitVec.ofNat 64 argv.length] ++ argv ++ [0] ++ [] ++ [0] ++ auxv.flatMap fun entry => [entry.1,entry.2])
  .ok (base,m)

/-! ## The strings and the words -/

variable {m : RootMem} {low high : Nat}

/-- The arguments are in the memory, each at its address and all of them in the `length` bytes below `data`. -/
structure ArgsPushed (m m' : RootMem) (data : Word) (args : List (List Byte)) (length : Nat) (addrs : List Word) : Prop where
  strings : List.Forall₂ (fun addr text => Reads m' addr text ∧ data.toNat - length ≤ addr.toNat ∧
    addr.toNat + text.length ≤ data.toNat) addrs (terminated args)
  keeps : KeepsOutside m m' (data.toNat - length) data.toNat

theorem pushArgs_mapped (data : Word) (args : List (List Byte)) (mapped : Mapped m low high) (room : high < 2 ^ 64)
    (below : data.toNat ≤ high) (above : low + (terminated args).flatten.length ≤ data.toNat) :
    ∃ m' addrs, pushArgs m data args = .ok (m',data - BitVec.ofNat 64 (terminated args).flatten.length,addrs) ∧
      Mapped m' low high ∧ ArgsPushed m m' data args (terminated args).flatten.length addrs := by
  induction args generalizing m data with
  | nil => exact ⟨m,[],by simp [pushArgs,terminated],mapped,.nil,fun a _ => rfl⟩
  | cons arg rest ih =>
    have lengths : (terminated (arg :: rest)).flatten.length = arg.length + 1 + (terminated rest).flatten.length := by
      simp [terminated]
      omega
    rw [lengths] at above ⊢
    have isAddr := toNat_retreat data (arg.length + 1) (by omega)
    have next : data - BitVec.ofNat 64 (arg.length + 1 + (terminated rest).flatten.length) =
        data - BitVec.ofNat 64 (arg.length + 1) - BitVec.ofNat 64 (terminated rest).flatten.length := by
      rw [BitVec.sub_sub,← BitVec.ofNat_add]
    rw [pushArgs,next]
    generalize data - BitVec.ofNat 64 (arg.length + 1) = addr at isAddr ⊢
    have stop : (addr + BitVec.ofNat 64 arg.length).toNat = addr.toNat + arg.length := by
      rw [toNat_advance_of_lt (by omega)]
    have size : (arg ++ [(0 : Byte)]).length = arg.length + 1 := by simp
    obtain ⟨m',addrs,ran,mapped',pushed⟩ := ih (m := overlay addr (arg ++ [0]) m) addr mapped.overlay (by omega) (by omega)
    refine ⟨m',addr :: addrs,?_,mapped',?_,?_⟩
    · rw [store_mapped mapped (by omega) (by omega) (by omega),ok_bind,
        store_mapped mapped.overlay (by omega) (by rw [stop]; simp; omega) (by omega),ok_bind,overlay_append (by simp; omega),ran]
      rfl
    · have written : Reads (overlay addr (arg ++ [0]) m) addr (arg ++ [0]) := reads_overlay (by omega)
      have here : Reads m' addr (arg ++ [0]) ∧ data.toNat - (arg.length + 1 + (terminated rest).flatten.length) ≤ addr.toNat ∧
          addr.toNat + (arg ++ [(0 : Byte)]).length ≤ data.toNat :=
        ⟨written.keep pushed.keeps (by omega) (.inr (Nat.le_refl _)),by omega,by omega⟩
      refine .cons here (pushed.strings.imp fun addr' text there => ⟨there.1,?_,?_⟩)
      all_goals omega
    · have written : KeepsOutside m (overlay addr (arg ++ [0]) m) addr.toNat (addr.toNat + (arg ++ [0]).length) :=
        keepsOutside_overlay (by omega)
      exact (written.widen (by omega) (by omega)).trans (pushed.keeps.widen (by omega) (by omega))

theorem pushWords_mapped {p : Word} {ws : List Word} (mapped : Mapped m low high) (room : high < 2 ^ 64) (above : low ≤ p.toNat)
    (below : p.toNat + 8 * ws.length ≤ high) : pushWords m p ws = .ok (overlay p (words ws) m) := by
  induction ws generalizing m p with
  | nil =>
    rw [words,List.flatMap_nil,overlay_nil]
    rfl
  | cons val rest ih =>
    rw [List.length_cons] at below
    have next : (p + 8).toNat = p.toNat + 8 := by
      rw [BitVec.toNat_add]
      change (p.toNat + 8) % 2 ^ 64 = _
      exact Nat.mod_eq_of_lt (by omega)
    have behind : p + 8 = p + BitVec.ofNat 64 (leBytes val).length := by
      rw [leBytes_length]
      rfl
    rw [pushWords,store_mapped mapped above (by rw [leBytes_length]; omega) (by omega),ok_bind,
      ih mapped.overlay (by omega) (by omega),behind,overlay_append (by rw [leBytes_length,length_words]; omega)]
    rfl

/-! ## The layout -/

/-- The arguments that the process gets. -/
def givenArgs (args : List (List Byte)) : List (List Byte) := if args.isEmpty then [ARG] else args

/-- A System V entry layout without an environment, whose words are apart from all that they point to. -/
structure FrameLayout (m : RootMem) (rsp : Word) (args : List (List Byte)) (argPtrs : List Word) (randomPtr platformPtr : Word)
    (aux : List (Word × Word)) : Prop where
  aligned : rsp.toNat % 16 = 0
  strings : List.Forall₂ (CString m) argPtrs args
  vector : Reads m rsp (words (entryWords argPtrs [] aux))
  pairs : aux.length = 16
  last : aux.getLast? = some (0,0)
  atRandom : aux.lookup 25 = some randomPtr
  random : Reads m randomPtr RANDOM_BYTES
  atPlatform : aux.lookup 15 = some platformPtr
  platform : CString m platformPtr PLATFORM
  stringsApart : List.Forall₂ (fun ptr text => Apart rsp (8 * (args.length + 35)) ptr (text.length + 1)) argPtrs args
  randomApart : Apart rsp (8 * (args.length + 35)) randomPtr 16
  platformApart : Apart rsp (8 * (args.length + 35)) platformPtr 7

private theorem room : 0xF11000 < 2 ^ 64 := by simp

/-- The words below the strings make a layout of them. -/
theorem layout_of_pushed {m m' : RootMem} {base randomPtr platformPtr : Word} {given : List (List Byte)} {argPtrs : List Word}
    (image : Image) (nulFree : ∀ text ∈ given, (0 : Byte) ∉ text) (aligned : base.toNat % 16 = 0)
    (pushed : ArgsPushed m m' platformPtr given (terminated given).flatten.length argPtrs)
    (below : base.toNat + 8 * (given.length + 35) + (terminated given).flatten.length ≤ platformPtr.toNat)
    (isRandomPtr : randomPtr.toNat = 0xF10FF0) (isPlatformPtr : platformPtr.toNat = 0xF10FE9)
    (random : Reads m randomPtr RANDOM_BYTES) (platform : Reads m platformPtr (PLATFORM ++ [0])) :
    FrameLayout (overlay base (words (entryWords argPtrs [] (auxv randomPtr platformPtr image))) m') base given argPtrs randomPtr
      platformPtr (auxv randomPtr platformPtr image) := by
  have sizes : RANDOM_BYTES.length = 16 ∧ (PLATFORM ++ [(0 : Byte)]).length = 7 := ⟨rfl,rfl⟩
  have count : argPtrs.length = given.length := by rw [pushed.strings.length_eq,terminated,List.length_map]
  have size := length_words (entryWords argPtrs [] (auxv randomPtr platformPtr image))
  rw [length_entryWords,count] at size
  change _ = 8 * (given.length + 35) at size
  generalize isTotal : 8 * (given.length + 35) = total at *
  have written : KeepsOutside m' (overlay base (words (entryWords argPtrs [] (auxv randomPtr platformPtr image))) m') base.toNat
      (base.toNat + (words (entryWords argPtrs [] (auxv randomPtr platformPtr image))).length) := keepsOutside_overlay (by omega)
  rw [size] at written
  have kept {start : Word} {bytes : List Byte} (reads : Reads m start bytes) (above : platformPtr.toNat ≤ start.toNat)
      (below : start.toNat + bytes.length ≤ 0xF11000) :
      Reads (overlay base (words (entryWords argPtrs [] (auxv randomPtr platformPtr image))) m') start bytes :=
    (reads.keep pushed.keeps (by omega) (.inr above)).keep written (by omega) (.inr (by omega))
  constructor
  case aligned => exact aligned
  case strings =>
    rw [cstrings_iff nulFree]
    exact pushed.strings.imp fun addr text there => there.1.keep written (by omega) (.inr (by omega))
  case vector => exact reads_overlay (by omega)
  case pairs => rfl
  case last => rfl
  case atRandom => rfl
  case random => exact kept random (by omega) (by omega)
  case atPlatform => rfl
  case platform => exact ⟨by decide,kept platform (Nat.le_refl _) (by omega)⟩
  case stringsApart =>
    rw [isTotal]
    refine (List.forall₂_map_right_iff.mp pushed.strings).imp fun addr text there => apart_of_le (by omega) ?_
    have size : (text ++ [(0 : Byte)]).length = text.length + 1 := by simp
    omega
  case randomApart =>
    rw [isTotal]
    exact apart_of_le (by omega) (by omega)
  case platformApart =>
    rw [isTotal]
    exact apart_of_le (by omega) (by omega)

/-- Wherever the strings and the words have room in the pages of the stack, the frame is written without a fault, is laid
    out as the System V interface asks for, and nothing else changes. -/
theorem first_stack {m : RootMem} {pages : Nat} (image : Image) {args : List (List Byte)} (some' : pages ≤ 1 + STACK_EXTRA_PAGES)
    (mapped : Mapped m (0xF11000 - pages * PAGE_SIZE) 0xF11000) (nulFree : ∀ text ∈ args, (0 : Byte) ∉ text)
    (fits : 23 + (terminated (givenArgs args)).flatten.length + 8 * ((givenArgs args).length + 35) ≤ pages * PAGE_SIZE) :
    ∃ rsp m' argPtrs randomPtr platformPtr aux, startFrame m image args = .ok (rsp,m') ∧
      FrameLayout m' rsp (givenArgs args) argPtrs randomPtr platformPtr aux ∧ KeepsOutside m m' rsp.toNat 0xF11000 := by
  have nulFree' : ∀ text ∈ givenArgs args, (0 : Byte) ∉ text := by
    rw [givenArgs]
    split
    · decide
    · exact nulFree
  have isGiven : (if args.isEmpty then [ARG] else args) = givenArgs args := rfl
  have isPage : pages * PAGE_SIZE = pages * 4096 := rfl
  rw [isPage] at mapped fits
  change pages ≤ 33 at some'
  generalize isLow : 0xF11000 - pages * 4096 = low at mapped
  rw [startFrame,isGiven]
  generalize givenArgs args = given at *
  -- The addresses of the 16 bytes and of the platform's name do not depend on the arguments.
  obtain ⟨randomPtr,isTop,isRandomPtr⟩ : ∃ randomPtr : Word, STACK_VADDR + BitVec.ofNat 64 PAGE_SIZE - 16 = randomPtr ∧
      randomPtr.toNat = 0xF10FF0 := ⟨0xF10FF0,rfl,rfl⟩
  have sizes : RANDOM_BYTES.length = 16 ∧ (PLATFORM ++ [(0 : Byte)]).length = 7 := ⟨rfl,rfl⟩
  have isPlatformPtr := toNat_retreat randomPtr ((PLATFORM ++ [(0 : Byte)]).length) (by omega)
  dsimp only
  rw [isTop]
  generalize randomPtr - BitVec.ofNat 64 (PLATFORM ++ [(0 : Byte)]).length = platformPtr at isPlatformPtr ⊢
  have first : store m randomPtr RANDOM_BYTES = .ok (overlay randomPtr RANDOM_BYTES m) :=
    store_mapped mapped (by omega) (by omega) (Nat.le_of_lt room)
  have mapped₁ : Mapped (overlay randomPtr RANDOM_BYTES m) low 0xF11000 := mapped.overlay
  have atRandom : KeepsOutside m (overlay randomPtr RANDOM_BYTES m) randomPtr.toNat (randomPtr.toNat + RANDOM_BYTES.length) :=
    keepsOutside_overlay (by omega)
  have random : Reads (overlay randomPtr RANDOM_BYTES m) randomPtr RANDOM_BYTES := reads_overlay (by omega)
  rw [first,ok_bind]
  generalize overlay randomPtr RANDOM_BYTES m = m₁ at mapped₁ atRandom random ⊢
  have second : store m₁ platformPtr (PLATFORM ++ [0]) = .ok (overlay platformPtr (PLATFORM ++ [0]) m₁) :=
    store_mapped mapped₁ (by omega) (by omega) (Nat.le_of_lt room)
  have mapped₂ : Mapped (overlay platformPtr (PLATFORM ++ [0]) m₁) low 0xF11000 := mapped₁.overlay
  have atPlatform : KeepsOutside m₁ (overlay platformPtr (PLATFORM ++ [0]) m₁) platformPtr.toNat
      (platformPtr.toNat + (PLATFORM ++ [(0 : Byte)]).length) := keepsOutside_overlay (by omega)
  have platform : Reads (overlay platformPtr (PLATFORM ++ [0]) m₁) platformPtr (PLATFORM ++ [0]) := reads_overlay (by omega)
  rw [second,ok_bind]
  generalize overlay platformPtr (PLATFORM ++ [0]) m₁ = m₂ at mapped₂ atPlatform platform ⊢
  obtain ⟨m₃,argPtrs,third,mapped₃,pushed⟩ := pushArgs_mapped platformPtr given mapped₂ room (by omega) (by omega)
  rw [third,ok_bind]
  have count : argPtrs.length = given.length := by rw [pushed.strings.length_eq,terminated,List.length_map]
  have isArray : (1 + (argPtrs.length + 1) + (0 + 1) + (auxv randomPtr platformPtr image).length * 2) * 8 =
      8 * (given.length + 35) := by
    rw [count]
    change (1 + (given.length + 1) + (0 + 1) + 16 * 2) * 8 = _
    omega
  have isWords : [BitVec.ofNat 64 argPtrs.length] ++ argPtrs ++ [0] ++ [] ++ [0] ++
      (auxv randomPtr platformPtr image).flatMap (fun entry => [entry.1,entry.2]) =
        entryWords argPtrs [] (auxv randomPtr platformPtr image) := by simp [entryWords]
  rw [isArray,isWords]
  clear isArray isWords
  have long : (entryWords argPtrs [] (auxv randomPtr platformPtr image)).length = given.length + 35 := by
    rw [length_entryWords,count]
    rfl
  have size := length_words (entryWords argPtrs [] (auxv randomPtr platformPtr image))
  rw [long] at size
  generalize isTotal : 8 * (given.length + 35) = total at *
  have isData := toNat_retreat platformPtr ((terminated given).flatten.length) (by omega)
  have isBottom := toNat_retreat (platformPtr - BitVec.ofNat 64 (terminated given).flatten.length) total (by omega)
  have isBase := toNat_and_not_low (platformPtr - BitVec.ofNat 64 (terminated given).flatten.length -
    BitVec.ofNat 64 total) (show (15#64).toNat = 2 ^ 4 - 1 from rfl)
  generalize (platformPtr - BitVec.ofNat 64 (terminated given).flatten.length - BitVec.ofNat 64 total) &&&
    ~~~15#64 = base at isBase ⊢
  have bounded : base.toNat + total + (terminated given).flatten.length ≤ platformPtr.toNat := by omega
  rw [pushWords_mapped mapped₃ room (by omega) (by rw [← length_words,size]; omega)]
  have written : KeepsOutside m₃ (overlay base (words (entryWords argPtrs [] (auxv randomPtr platformPtr image))) m₃) base.toNat
      (base.toNat + (words (entryWords argPtrs [] (auxv randomPtr platformPtr image))).length) := keepsOutside_overlay (by omega)
  rw [size] at written
  refine ⟨base,_,argPtrs,randomPtr,platformPtr,auxv randomPtr platformPtr image,rfl,?_,?_⟩
  · exact layout_of_pushed image nulFree' (by omega) pushed (by rw [isTotal]; exact bounded) isRandomPtr (by omega)
      (random.keep atPlatform (by omega) (.inr (by omega))) platform
  · exact (((atRandom.widen (by omega) (by omega)).trans (atPlatform.widen (by omega) (by omega))).trans
      (pushed.keeps.widen (by omega) (by omega))).trans (written.widen (by omega) (by omega))

/-- A stack of two pages that holds sevens. -/
def sevens : RootMem := fun a => if 0xF0F000 ≤ a.toNat ∧ a.toNat < 0xF11000 then some 7 else none

/-- The three arguments of "busybox echo hi". -/
def echoHi : List (List Byte) := [ARG,[0x65,0x63,0x68,0x6F],[0x68,0x69]]

theorem first_stack_echo : ∃ rsp m' argPtrs randomPtr platformPtr aux,
    startFrame sevens ⟨0x400000,64,56,3⟩ echoHi = .ok (rsp,m') ∧ FrameLayout m' rsp echoHi argPtrs randomPtr platformPtr aux ∧
      KeepsOutside sevens m' rsp.toNat 0xF11000 := by
  refine @first_stack _ 2 ⟨0x400000,64,56,3⟩ echoHi (by decide) (fun a above below => ?_) (by decide) (by decide)
  rw [sevens,if_pos ⟨above,below⟩]
  rfl

end Sel4Linux.FirstStack
