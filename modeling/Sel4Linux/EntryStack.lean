import Sel4Linux.Execve
import Sel4Linux.Overlay

/-!
The stack that a program finds when it starts. `EntryLayout` says what the System
V interface asks for: the count of the arguments at an aligned stack pointer,
then the addresses of arguments and environment, then auxiliary entries. `setup_stack`
of execve writes the strings upward from the start of a page and the addresses
downward from their end, so the addresses cover the strings; the layout is right
exactly when the covered bytes are the same (`entry_layout_iff`).
-/
namespace Sel4Linux.EntryStack
open Sel4Linux.Bytes Sel4Linux.TaskMem Sel4Linux.MemImage Sel4Linux.Execve Sel4Linux.Overlay
set_option linter.unusedSimpArgs false

/-! ## The layout -/

/-- A text and its final zero are at an address, and the text has no zero of its own. -/
def CString (m : Word → Option Byte) (ptr : Word) (text : List Byte) : Prop := 0 ∉ text ∧ Reads m ptr (text ++ [0])

def terminated (texts : List (List Byte)) : List (List Byte) := texts.map (· ++ [0])

/-- Words one after another, each with its least significant byte first. -/
def words (ws : List Word) : List Byte := ws.flatMap leBytes

/-- What is at the stack pointer: the count, the arguments, the environment, auxiliary entries. -/
def entryWords (argPtrs envPtrs : List Word) (aux : List (Word × Word)) : List Word :=
  BitVec.ofNat 64 argPtrs.length :: argPtrs ++ 0 :: envPtrs ++ 0 :: aux.flatMap fun entry => [entry.1,entry.2]

structure EntryLayout (m : Word → Option Byte) (sp : Word) (args envp : List (List Byte)) (aux : List (Word × Word)) : Prop where
  aligned : sp.toNat % 16 = 0
  vector : ∃ argPtrs envPtrs, List.Forall₂ (CString m) argPtrs args ∧ List.Forall₂ (CString m) envPtrs envp ∧
    Reads m sp (words (entryWords argPtrs envPtrs aux))

theorem cstrings_iff {m : Word → Option Byte} {ptrs : List Word} {texts : List (List Byte)}
    (nulFree : ∀ text ∈ texts, (0 : Byte) ∉ text) :
    List.Forall₂ (CString m) ptrs texts ↔ List.Forall₂ (Reads m) ptrs (terminated texts) := by
  rw [terminated,List.forall₂_map_right_iff]
  induction texts generalizing ptrs with
  | nil => rw [List.forall₂_nil_right_iff,List.forall₂_nil_right_iff]
  | cons text rest ih =>
    have here := nulFree text List.mem_cons_self
    rw [List.forall₂_cons_right_iff,List.forall₂_cons_right_iff]
    refine exists_congr fun ptr => exists_congr fun ptrs => and_congr ⟨fun both => both.2,fun reads => ⟨here,reads⟩⟩ ?_
    rw [ih fun text member => nulFree text (List.mem_cons_of_mem _ member)]

@[simp] theorem length_words (ws : List Word) : (words ws).length = 8 * ws.length := by
  induction ws with
  | nil => rfl
  | cons first rest ih =>
    rw [words,List.flatMap_cons,List.length_append,leBytes_length,List.length_cons]
    change 8 + (words rest).length = _
    omega

theorem words_append (ws ws' : List Word) : words (ws ++ ws') = words ws ++ words ws' := List.flatMap_append

theorem leBytes_inj {v w : Word} (same : leBytes v = leBytes w) : v = w := by
  refine word_ext ?_
  intro j low
  have byte := congrArg (fun bytes => bytes[j]?) same
  rw [leBytes,leBytes,List.getElem?_map,List.getElem?_map,List.getElem?_range low] at byte
  exact Option.some.inj byte

theorem words_inj {ws ws' : List Word} (same : words ws = words ws') : ws = ws' := by
  induction ws generalizing ws' with
  | nil =>
    cases ws' with
    | nil => rfl
    | cons first rest =>
      have lengths := congrArg List.length same
      simp at lengths
  | cons first rest ih =>
    cases ws' with
    | nil =>
      have lengths := congrArg List.length same
      simp at lengths
    | cons first' rest' =>
      obtain ⟨head,tail⟩ := List.append_inj same (by rw [leBytes_length,leBytes_length])
      rw [leBytes_inj head,ih tail]

theorem length_entryWords (argPtrs envPtrs : List Word) (aux : List (Word × Word)) :
    (entryWords argPtrs envPtrs aux).length = argPtrs.length + envPtrs.length + 2 * aux.length + 3 := by
  have pairs : (aux.flatMap fun entry => [entry.1,entry.2]).length = 2 * aux.length := by
    induction aux with
    | nil => rfl
    | cons first rest ih =>
      rw [List.flatMap_cons,List.length_append,ih,List.length_cons]
      simp
      omega
  rw [entryWords]
  simp only [List.length_append,List.length_cons,List.cons_append,pairs]
  omega

/-- The counts tell where the addresses of the arguments end and those of the environment begin. -/
theorem entryWords_inj {argPtrs argPtrs' envPtrs envPtrs' : List Word} {aux : List (Word × Word)}
    (args : argPtrs.length = argPtrs'.length) (same : entryWords argPtrs envPtrs aux = entryWords argPtrs' envPtrs' aux) :
    argPtrs = argPtrs' ∧ envPtrs = envPtrs' := by
  rw [entryWords,entryWords,List.cons_append,List.cons_append,List.cons_append,List.cons_append] at same
  obtain ⟨front,_⟩ := List.append_inj' (List.cons.inj same).2 rfl
  obtain ⟨isArgs,rest⟩ := List.append_inj front args
  exact ⟨isArgs,(List.cons.inj rest).2⟩

/-! ## What page maps and writes put into a memory -/

/-- The strings that are written, one over the other. -/
def laid (ops : List MemOp) (m : Word → Option Byte) : Word → Option Byte :=
  ops.foldl (fun m op =>
    match op with
    | .map _ => m
    | .write addr data => overlay addr data m) m

theorem laid_append (ops ops' : List MemOp) (m : Word → Option Byte) : laid (ops ++ ops') m = laid ops' (laid ops m) :=
  List.foldl_append

theorem laid_write (addr : Word) (data : List Byte) (ops : List MemOp) (m : Word → Option Byte) :
    laid (.write addr data :: ops) m = laid ops (overlay addr data m) := rfl

def Short (ops : List MemOp) : Prop := ∀ addr data, .write addr data ∈ ops → data.length ≤ 2 ^ 64

/-- A task reads what was written into its memory. -/
theorem within_laid {ops : List MemOp} {m : Word → Option Byte} {mem : TaskMemInfo} (short : Short ops)
    (within : Within m (byteOf mem)) : Within (laid ops m) (byteOf (runOps mem ops)) := by
  induction ops generalizing m mem with
  | nil => exact within
  | cons op rest ih =>
    have stays (effect : Effect) (unset : effect = .blank ∨ effect = .keep) {a : Word} {v : Byte} (there : byteOf mem a = some v) :
        effect.apply (byteOf mem a) = some v := by
      rcases unset with rfl | rfl
      · rw [there]
        rfl
      · exact there
    refine ih (fun addr data member => short addr data (List.mem_cons_of_mem op member)) ?_
    intro a v there
    cases op with
    | map vaddr =>
      change byteOf (mem.mapBlankPageSimple vaddr) a = some v
      rw [byteOf_map]
      refine stays _ ?_ (within a v there)
      rw [MemOp.effect]
      by_cases here : pageVaddr a = pageVaddr vaddr
      · exact .inl (if_pos here)
      · exact .inr (if_neg here)
    | write addr data =>
      change byteOf (mem.writeBytes addr data).2 a = some v
      have spec := writeEffect_spec (a := a) addr data (short addr data List.mem_cons_self)
      rw [byteOf_writeBytes]
      change overlay addr data m a = some v at there
      rw [overlay] at there
      cases isByte : data[(a - addr).toNat]? with
      | some b =>
        rw [isByte,Option.some_or] at there
        rw [spec.inside b isByte]
        exact there
      | none =>
        rw [isByte,Option.none_or] at there
        exact stays _ (spec.outside (List.getElem?_eq_none_iff.mp isByte)) (within a v there)

theorem short_append {ops ops' : List MemOp} (first : Short ops) (second : Short ops') : Short (ops ++ ops') := by
  intro addr data member
  rcases List.mem_append.mp member with early | late
  · exact first addr data early
  · exact second addr data late

theorem short_cons {addr : Word} {data : List Byte} {ops : List MemOp} (here : data.length ≤ 2 ^ 64) (rest : Short ops) :
    Short (.write addr data :: ops) := by
  intro addr' data' member
  rcases List.mem_cons.mp member with same | later
  · cases same
    exact here
  · exact rest addr' data' later

/-! ## What setup_stack writes -/

/-- The strings of a call, one after another. -/
def stringBytes (args envp : List (List Byte)) : List Byte := (terminated (args ++ envp)).flatten

theorem stringOps_spec (start : Word) (texts : List (List Byte)) (fits : (terminated texts).flatten.length ≤ 2 ^ 64) :
    (stringOps start texts).2 =
        (places start (terminated texts),start + BitVec.ofNat 64 (terminated texts).flatten.length) ∧
      Short (stringOps start texts).1 ∧
      ∀ m, laid (stringOps start texts).1 m = overlay start (terminated texts).flatten m := by
  induction texts generalizing start with
  | nil =>
    refine ⟨?_,?_,fun m => overlay_nil.symm⟩
    · exact congrArg (Prod.mk []) (add_ofNat_zero start).symm
    · intro addr data member
      cases member
  | cons text rest ih =>
    have behind : start + BitVec.ofNat 64 text.length + 1 = start + BitVec.ofNat 64 (text ++ [(0 : Byte)]).length := by
      rw [List.length_append,List.length_singleton,← add_ofNat_add]
      rfl
    change (text ++ [0] ++ (terminated rest).flatten).length ≤ 2 ^ 64 at fits
    have lengths := fits
    rw [List.length_append,List.length_append,List.length_singleton] at lengths
    obtain ⟨isRest,short,laidRest⟩ := ih (start + BitVec.ofNat 64 text.length + 1) (by omega)
    have whole : stringOps start (text :: rest) =
        (.write start text :: .write (start + BitVec.ofNat 64 text.length) [0] ::
            (stringOps (start + BitVec.ofNat 64 text.length + 1) rest).1,
          start :: (stringOps (start + BitVec.ofNat 64 text.length + 1) rest).2.1,
          (stringOps (start + BitVec.ofNat 64 text.length + 1) rest).2.2) := rfl
    refine ⟨?_,?_,fun m => ?_⟩
    · rw [whole,isRest,behind,add_ofNat_add,← List.length_append]
      rfl
    · rw [whole]
      exact short_cons (by omega) (short_cons (by decide) short)
    · rw [whole]
      change laid (stringOps _ rest).1 (overlay (start + BitVec.ofNat 64 text.length) [0] (overlay start text m)) = _
      rw [laidRest,overlay_append (by rw [List.length_singleton]; omega),behind,overlay_append]
      · rfl
      · rw [List.length_append,List.length_singleton]
        omega

private theorem laid_indexed (sp : Word) {ptrs : List Word} {k : Nat} (fits : 8 * (k + ptrs.length) ≤ 2 ^ 64)
    (m : Word → Option Byte) :
    laid ((ptrs.zipIdx k).map fun (ptr,i) => MemOp.write (sp + BitVec.ofNat 64 (i * 8)) (leBytes ptr)) m =
      overlay (sp + BitVec.ofNat 64 (k * 8)) (words ptrs) m := by
  induction ptrs generalizing k m with
  | nil => exact overlay_nil.symm
  | cons ptr rest ih =>
    rw [List.length_cons] at fits
    rw [List.zipIdx_cons,List.map_cons,laid_write,ih (by omega)]
    have next : sp + BitVec.ofNat 64 ((k + 1) * 8) = sp + BitVec.ofNat 64 (k * 8) + BitVec.ofNat 64 (leBytes ptr).length := by
      rw [leBytes_length,add_ofNat_add,Nat.succ_mul]
    rw [next,overlay_append (by rw [leBytes_length,length_words]; omega)]
    rfl

theorem laid_pointerOps (sp : Word) {ptrs : List Word} (fits : 8 * (ptrs.length + 1) ≤ 2 ^ 64) (m : Word → Option Byte) :
    laid (pointerOps sp ptrs) m = overlay sp (words (ptrs ++ [0])) m := by
  have last : List.replicate 8 (0 : Byte) = words [0] := rfl
  have behind : sp + BitVec.ofNat 64 (ptrs.length * 8) = sp + BitVec.ofNat 64 (words ptrs).length := by
    rw [length_words,Nat.mul_comm]
  rw [pointerOps,laid_append,laid_indexed sp (by omega),Nat.zero_mul,add_ofNat_zero,laid_write]
  change overlay _ _ (overlay sp _ m) = _
  rw [last,behind,overlay_append (by rw [length_words,length_words]; simp; omega),words_append]

theorem short_pointerOps (sp : Word) (ptrs : List Word) : Short (pointerOps sp ptrs) := by
  refine short_append (fun addr data member => ?_) (short_cons (by simp) fun addr data member => by cases member)
  obtain ⟨⟨ptr,i⟩,_,same⟩ := List.mem_map.mp member
  cases same
  rw [leBytes_length]
  decide

/-- The strings and the words at the stack pointer, for strings from `base` on. -/
def vectorBytes (base : Word) (args envp : List (List Byte)) : List Byte :=
  words (entryWords (places base (terminated args))
    (places (base + BitVec.ofNat 64 (terminated args).flatten.length) (terminated envp)) [(0,0)])

/-- The length of the strings, rounded up to 16 bytes. -/
def stringRoom (args envp : List (List Byte)) : Nat := ((stringBytes args envp).length + 15) / 16 * 16

theorem length_vectorBytes (base : Word) (args envp : List (List Byte)) :
    (vectorBytes base args envp).length = 8 * (args.length + envp.length + 5) := by
  rw [vectorBytes,length_words,length_entryWords,length_places,length_places,terminated,terminated,List.length_map,
    List.length_map,List.length_singleton]

theorem stringBytes_eq (args envp : List (List Byte)) :
    stringBytes args envp = (terminated args).flatten ++ (terminated envp).flatten := by
  rw [stringBytes,terminated,List.map_append,List.flatten_append]
  rfl

theorem toNat_roundUp {x : Word} (room : x.toNat + 15 < 2 ^ 64) :
    ((x + 15) &&& ~~~15#64).toNat = (x.toNat + 15) / 16 * 16 := by
  have sum : (x + 15).toNat = x.toNat + 15 := by
    rw [BitVec.toNat_add]
    exact Nat.mod_eq_of_lt room
  rw [toNat_and_not_low (x + 15) (show (15#64).toNat = 2 ^ 4 - 1 from rfl),sum]
  omega

section
variable {stackTop : Word} {args envp : List (List Byte)}
  (fits : (stringBytes args envp).length + 8 * (args.length + envp.length + 5) ≤ 4096) (page : stackTop.toNat % 4096 = 0)
  (high : 0x100000 ≤ stackTop.toNat)
include fits

/-- The strings are written first, and the words at the stack pointer over them. -/
theorem setupStack_laid : Short (setupStack stackTop args envp).2 ∧ ∀ m, laid (setupStack stackTop args envp).2 m =
    overlay (setupStack stackTop args envp).1 (vectorBytes (stackTop - 4096) args envp)
      (overlay (stackTop - 4096) (stringBytes args envp) m) := by
  have isStrings := stringBytes_eq args envp
  have lengths := congrArg List.length isStrings
  rw [List.length_append] at lengths
  obtain ⟨isArgs,shortArgs,laidArgs⟩ := stringOps_spec (stackTop - 4096) args (by omega)
  obtain ⟨isEnv,shortEnv,laidEnv⟩ :=
    stringOps_spec (stackTop - 4096 + BitVec.ofNat 64 (terminated args).flatten.length) envp (by omega)
  have few : (terminated args).length = args.length ∧ (terminated envp).length = envp.length :=
    ⟨List.length_map _,List.length_map _⟩
  generalize isBase : stackTop - 4096 = base at *
  rw [setupStack,isBase,vectorBytes]
  cases argsDone : stringOps base args with
  | mk argOps argsLeft =>
  rw [argsDone] at isArgs shortArgs laidArgs
  cases isArgs
  dsimp only at shortArgs laidArgs ⊢
  cases envDone : stringOps (base + BitVec.ofNat 64 (terminated args).flatten.length) envp with
  | mk envOps envLeft =>
  rw [envDone] at isEnv shortEnv laidEnv
  cases isEnv
  dsimp only at shortEnv laidEnv ⊢
  generalize (base + BitVec.ofNat 64 (terminated args).flatten.length +
    BitVec.ofNat 64 (terminated envp).flatten.length + 15) &&& ~~~15#64 = upper
  have countArgs := length_places base (terminated args)
  have countEnv := length_places (base + BitVec.ofNat 64 (terminated args).flatten.length) (terminated envp)
  generalize places base (terminated args) = argPtrs at *
  generalize places (base + BitVec.ofNat 64 (terminated args).flatten.length) (terminated envp) = envPtrs at *
  rw [few.1] at countArgs
  rw [few.2] at countEnv
  refine ⟨?_,fun m => ?_⟩
  · refine short_append (short_append (short_append (short_append shortArgs shortEnv) ?_) ?_) ?_
    · exact short_cons (by simp) (short_pointerOps _ _)
    · exact short_pointerOps _ _
    · exact short_cons (by simp) fun addr data member => by cases member
  · -- The writes from the top down: the auxiliary entry, the environment, the arguments, the count.
    have aux : List.replicate 16 (0 : Byte) = words [0,0] := rfl
    have count : words [BitVec.ofNat 64 args.length] = leBytes (BitVec.ofNat 64 args.length) := List.append_nil _
    have vector : leBytes (BitVec.ofNat 64 args.length) ++ (words (argPtrs ++ [0]) ++ (words (envPtrs ++ [0]) ++ words [0,0])) =
        words (entryWords argPtrs envPtrs [(0,0)]) := by
      rw [← count,← words_append,← words_append,← words_append,entryWords,countArgs]
      simp
    have isEnvWords : (words (envPtrs ++ [0])).length = (envp.length + 1) * 8 := by
      rw [length_words,List.length_append,countEnv,Nat.mul_comm]
      rfl
    have isArgWords : (words (argPtrs ++ [0])).length = (args.length + 1) * 8 := by
      rw [length_words,List.length_append,countArgs,Nat.mul_comm]
      rfl
    have isAux : (words [0,0]).length = 16 := rfl
    rw [laid_append,laid_append,laid_append,laid_append,laidArgs,laidEnv,overlay_append (by omega),← isStrings,laid_write,
      laid_write,laid_pointerOps _ (by omega),laid_pointerOps _ (by omega),aux,overlay_below isEnvWords (by omega),
      overlay_below isArgWords (by rw [List.length_append]; omega)]
    refine (overlay_below (leBytes_length _) ?_).trans (by rw [vector]; rfl)
    rw [List.length_append,List.length_append,leBytes_length]
    omega

include page high in
/-- The words at the stack pointer end where the strings do, rounded up. -/
theorem toNat_setupStack : (stackTop - 4096).toNat = stackTop.toNat - 4096 ∧
    (setupStack stackTop args envp).1.toNat + 8 * (args.length + envp.length + 5) =
      (stackTop - 4096).toNat + stringRoom args envp := by
  have bound := stackTop.isLt
  have isBase : (stackTop - 4096).toNat = stackTop.toNat - 4096 := by
    rw [BitVec.toNat_sub_of_le (Nat.le_trans (show 4096 ≤ 0x100000 by decide) high)]
    rfl
  refine ⟨isBase,?_⟩
  have lengths := congrArg List.length (stringBytes_eq args envp)
  rw [List.length_append] at lengths
  obtain ⟨isArgs,_⟩ := stringOps_spec (stackTop - 4096) args (by omega)
  obtain ⟨isEnv,_⟩ := stringOps_spec (stackTop - 4096 + BitVec.ofNat 64 (terminated args).flatten.length) envp (by omega)
  have isSp : (setupStack stackTop args envp).1 =
      (((stringOps (stringOps (stackTop - 4096) args).2.2 envp).2.2 + 15) &&& ~~~15#64) - 16 -
        BitVec.ofNat 64 ((envp.length + 1) * 8) - BitVec.ofNat 64 ((args.length + 1) * 8) - 8 := rfl
  have room : stringRoom args envp = ((stringBytes args envp).length + 15) / 16 * 16 := rfl
  rw [isArgs] at isSp
  dsimp only at isSp
  rw [isEnv] at isSp
  dsimp only at isSp
  rw [add_ofNat_add,← lengths] at isSp
  have stop : (stackTop - 4096 + BitVec.ofNat 64 (stringBytes args envp).length).toNat =
      stackTop.toNat - 4096 + (stringBytes args envp).length := by
    rw [toNat_advance (by omega),isBase,Nat.mod_eq_of_lt (by omega)]
  have last := toNat_roundUp (x := stackTop - 4096 + BitVec.ofNat 64 (stringBytes args envp).length) (by omega)
  rw [stop] at last
  generalize ((stackTop - 4096 + BitVec.ofNat 64 (stringBytes args envp).length + 15) &&& ~~~15#64) = upper at last isSp
  have back (x : Word) (n : Nat) (below : n ≤ x.toNat) : (x - BitVec.ofNat 64 n).toNat = x.toNat - n := by
    have small := x.isLt
    have isNat : (BitVec.ofNat 64 n).toNat = n := by rw [BitVec.toNat_ofNat,Nat.mod_eq_of_lt (by omega)]
    rw [BitVec.toNat_sub_of_le (by rw [BitVec.le_def,isNat]; exact below),isNat]
  have first := back upper 16 (by omega)
  have second := back (upper - BitVec.ofNat 64 16) ((envp.length + 1) * 8) (by omega)
  have third := back (upper - BitVec.ofNat 64 16 - BitVec.ofNat 64 ((envp.length + 1) * 8)) ((args.length + 1) * 8) (by omega)
  have fourth := back (upper - BitVec.ofNat 64 16 - BitVec.ofNat 64 ((envp.length + 1) * 8) -
    BitVec.ofNat 64 ((args.length + 1) * 8)) 8 (by omega)
  change (setupStack stackTop args envp).1 = upper - BitVec.ofNat 64 16 - BitVec.ofNat 64 ((envp.length + 1) * 8) -
    BitVec.ofNat 64 ((args.length + 1) * 8) - BitVec.ofNat 64 8 at isSp
  rw [isSp,fourth,third,second,first,last,isBase,room]
  omega
/-! ## When the layout is right -/

/-- The number of strings is odd, and where the words at the stack pointer cover the strings they have the same bytes. -/
structure Unharmed (stackTop : Word) (args envp : List (List Byte)) : Prop where
  odd : (args.length + envp.length) % 2 = 1
  same : ∀ i < (stringBytes args envp).length, stringRoom args envp ≤ i + 8 * (args.length + envp.length + 5) →
    (stringBytes args envp)[i]? =
      (vectorBytes (stackTop - 4096) args envp)[i + 8 * (args.length + envp.length + 5) - stringRoom args envp]?

variable (mem : TaskMemInfo)

include page high in
/-- The strings are there afterwards exactly when no covered byte differs. -/
theorem strings_kept_iff :
    Reads (byteOf (runOps mem (setupStack stackTop args envp).2)) (stackTop - 4096) (stringBytes args envp) ↔
      ∀ i < (stringBytes args envp).length, stringRoom args envp ≤ i + 8 * (args.length + envp.length + 5) →
        (stringBytes args envp)[i]? =
          (vectorBytes (stackTop - 4096) args envp)[i + 8 * (args.length + envp.length + 5) - stringRoom args envp]? := by
  obtain ⟨isBase,isSp⟩ := toNat_setupStack fits page high
  obtain ⟨short,isLaid⟩ := @setupStack_laid stackTop args envp fits
  have within : Within (laid (setupStack stackTop args envp).2 fun _ => none)
      (byteOf (runOps mem (setupStack stackTop args envp).2)) := within_laid short fun a v there => by cases there
  have long := length_vectorBytes (stackTop - 4096) args envp
  have room : stringRoom args envp = ((stringBytes args envp).length + 15) / 16 * 16 := rfl
  have bound := stackTop.isLt
  have first : Reads (overlay (stackTop - 4096) (stringBytes args envp) fun _ => none) (stackTop - 4096)
      (stringBytes args envp) := reads_overlay (by omega)
  rw [isLaid] at within
  rw [reads_within_iff within,reads_under_iff first]
  · refine forall_congr' fun i => imp_congr_right fun inside => ?_
    have distance := toNat_distance (stackTop - 4096 + BitVec.ofNat 64 i) (setupStack stackTop args envp).1
    rw [toNat_advance (by omega),isBase,Nat.mod_eq_of_lt (by omega)] at distance
    by_cases covered : stringRoom args envp ≤ i + 8 * (args.length + envp.length + 5)
    · rw [if_pos (by omega)] at distance
      have index : stackTop.toNat - 4096 + i - (setupStack stackTop args envp).1.toNat =
          i + 8 * (args.length + envp.length + 5) - stringRoom args envp := by omega
      rw [distance,index,List.getElem?_eq_getElem (by omega : _ < (vectorBytes (stackTop - 4096) args envp).length)]
      constructor
      · intro same _
        exact same _ rfl
      · intro same v isValue
        rw [same covered]
        exact isValue
    · rw [if_neg (by omega)] at distance
      rw [List.getElem?_eq_none (by omega)]
      refine iff_of_true (fun v isValue => ?_) fun there => absurd there covered
      cases isValue
  · intro i inside
    exact isSome_overlay (by rw [first i inside,List.getElem?_eq_getElem inside]; rfl)

/-- The addresses are always right, so the layout is a matter of alignment and of the strings. -/
theorem layout_iff_strings (nulFree : ∀ text ∈ args ++ envp, (0 : Byte) ∉ text) :
    EntryLayout (byteOf (runOps mem (setupStack stackTop args envp).2)) (setupStack stackTop args envp).1 args envp [(0,0)] ↔
      (setupStack stackTop args envp).1.toNat % 16 = 0 ∧
        Reads (byteOf (runOps mem (setupStack stackTop args envp).2)) (stackTop - 4096) (stringBytes args envp) := by
  obtain ⟨short,isLaid⟩ := @setupStack_laid stackTop args envp fits
  have within : Within (laid (setupStack stackTop args envp).2 fun _ => none)
      (byteOf (runOps mem (setupStack stackTop args envp).2)) := within_laid short fun a v there => by cases there
  have long := length_vectorBytes (stackTop - 4096) args envp
  rw [isLaid] at within
  have vector := (reads_overlay (by omega)).within within
  rw [stringBytes_eq,reads_append_iff,reads_flatten_iff,reads_flatten_iff,
    ← cstrings_iff fun text member => nulFree text (List.mem_append_left envp member),
    ← cstrings_iff fun text member => nulFree text (List.mem_append_right args member)]
  constructor
  · rintro ⟨aligned,argPtrs,envPtrs,isArgs,isEnv,words⟩
    have countArgs := isArgs.length_eq
    have countEnv := isEnv.length_eq
    have same := reads_unique words vector (by
      rw [long,length_words,length_entryWords,countArgs,countEnv,List.length_singleton])
    obtain ⟨rfl,rfl⟩ := entryWords_inj (by rw [countArgs,length_places,terminated,List.length_map]) (words_inj same)
    exact ⟨aligned,isArgs,isEnv⟩
  · rintro ⟨aligned,isArgs,isEnv⟩
    exact ⟨aligned,_,_,isArgs,isEnv,vector⟩

end

/-- After `setup_stack` the stack is laid out as the System V interface asks for exactly when the number of strings is
    odd and no byte of them is covered by another one. -/
theorem entry_layout_iff {stackTop : Word} {args envp : List (List Byte)} (mem : TaskMemInfo)
    (page : stackTop.toNat % 4096 = 0) (high : 0x100000 ≤ stackTop.toNat) (nulFree : ∀ text ∈ args ++ envp, (0 : Byte) ∉ text)
    (fits : (stringBytes args envp).length + 8 * (args.length + envp.length + 5) ≤ 4096) :
    EntryLayout (byteOf (runOps mem (setupStack stackTop args envp).2)) (setupStack stackTop args envp).1 args envp [(0,0)] ↔
      Unharmed stackTop args envp := by
  obtain ⟨isBase,isSp⟩ := toNat_setupStack fits page high
  have room : stringRoom args envp = ((stringBytes args envp).length + 15) / 16 * 16 := rfl
  have odd : (setupStack stackTop args envp).1.toNat % 16 = 0 ↔ (args.length + envp.length) % 2 = 1 := by omega
  rw [layout_iff_strings fits mem nulFree,strings_kept_iff fits page high mem,odd]
  constructor
  · rintro ⟨odd,same⟩
    exact ⟨odd,same⟩
  · rintro ⟨odd,same⟩
    exact ⟨odd,same⟩

/-- The bytes of the address where the last of the strings is. -/
def ownAddress : List Byte := [0x10,0xE0,0xFF,0xFF,0xFF,0x7F]

/-- Three arguments and eight strings of an environment: the word that covers the first argument has the same bytes. -/
theorem entry_layout_iff_eleven :
    EntryLayout (byteOf (runOps TaskMemInfo.default (setupStack 0x7FFFFFFFF000 [ownAddress,[],[]] (List.replicate 8 [])).2))
      (setupStack 0x7FFFFFFFF000 [ownAddress,[],[]] (List.replicate 8 [])).1 [ownAddress,[],[]] (List.replicate 8 []) [(0,0)] :=
  (entry_layout_iff TaskMemInfo.default (by decide) (by decide) (by decide) (by decide)).mpr
    ⟨by decide,by decide +kernel⟩

/-- The layout is right only for a call whose last string is empty. -/
theorem last_string_empty {stackTop : Word} {args envp texts : List (List Byte)} {text : List Byte}
    (unharmed : Unharmed stackTop args envp) (isLast : args ++ envp = texts ++ [text]) (nulFree : (0 : Byte) ∉ text) :
    text = [] := by
  by_contra nonempty
  obtain ⟨init,b,rfl⟩ := List.eq_nil_or_concat text |>.resolve_left nonempty
  have isStrings : stringBytes args envp = ((terminated texts).flatten ++ init) ++ [b,0] := by
    rw [stringBytes,isLast,terminated,List.map_append,List.flatten_append]
    simp [terminated]
  have size := congrArg List.length isStrings
  rw [List.length_append] at size
  have room : stringRoom args envp = ((stringBytes args envp).length + 15) / 16 * 16 := rfl
  obtain ⟨front,isVector⟩ : ∃ front, vectorBytes (stackTop - 4096) args envp = front ++ List.replicate 24 0 :=
    ⟨_,words_append _ [0,0,0]⟩
  have long := length_vectorBytes (stackTop - 4096) args envp
  rw [isVector,List.length_append,List.length_replicate] at long
  change (stringBytes args envp).length = _ + 2 at size
  have same := unharmed.same ((stringBytes args envp).length - 2) (by omega) (by omega)
  rw [isVector,List.getElem?_append_right (by omega),List.getElem?_replicate_of_lt (by omega),isStrings,
    List.getElem?_append_right (by rw [← isStrings]; omega),← isStrings,
    show (stringBytes args envp).length - 2 - ((terminated texts).flatten ++ init).length = 0 by omega] at same
  cases same
  exact nulFree (by simp)

/-- A call with the argument "busybox" and no environment: the string is lost. -/
theorem strings_covered : ¬ ∀ (mem : TaskMemInfo) (stackTop : Word) (args envp : List (List Byte)),
    stackTop.toNat % 4096 = 0 → 0x100000 ≤ stackTop.toNat → (∀ text ∈ args ++ envp, (0 : Byte) ∉ text) →
      (stringBytes args envp).length + 8 * (args.length + envp.length + 5) ≤ 4096 →
        EntryLayout (byteOf (runOps mem (setupStack stackTop args envp).2)) (setupStack stackTop args envp).1 args envp
          [(0,0)] := by
  intro all
  have fits : (stringBytes [ARG] []).length + 8 * (1 + 0 + 5) ≤ 4096 := by decide
  have nulFree : ∀ text ∈ [ARG] ++ [], (0 : Byte) ∉ text := by decide
  have layout := all TaskMemInfo.default STACK_TOP [ARG] [] (by decide) (by decide) nulFree fits
  have strings := ((layout_iff_strings fits TaskMemInfo.default nulFree).mp layout).2
  have same := (strings_kept_iff fits (by decide) (by decide) TaskMemInfo.default).mp strings 0 (by decide) (by decide)
  revert same
  decide

end Sel4Linux.EntryStack
