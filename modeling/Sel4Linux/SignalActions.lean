import Sel4Linux.EntryStack
import Sel4Linux.Runs

/-!
`sys_rt_sigaction` (`lcl/src/syscall/signal.rs`): an action of 32 bytes set and
then asked for. Of the bytes that it is given the call keeps the handler. What it
gives back are the 24 bytes of an entry, in the order that the compiler has given
the fields, and 8 bytes of the entry behind it (`sigaction_round_trip_iff`).
-/
namespace Sel4Linux.SignalActions
open Sel4Linux.Bytes Sel4Linux.TaskMem Sel4Linux.MemImage Sel4Linux.Client Sel4Linux.Task Sel4Linux.Runs Sel4Linux.Overlay
open Sel4Linux.EntryStack (words length_words words_inj)
set_option linter.unusedSimpArgs false

/-! ## Entries in memory -/

/-- Where the compiler puts the fields of `SignalAction` in its three words. The flags share theirs with padding, which has
    some content in each entry. -/
structure Layout where
  handlerAt : Nat
  maskAt : Nat
  flagsAt : Nat
  places : [handlerAt,maskAt,flagsAt].Perm [0,1,2]
  flagsHigh : Bool
  padding : Nat → BitVec 32

variable (L : Layout)

def Layout.flagsWord (index : Nat) (a : SignalAction) : Word :=
  if L.flagsHigh then a.flags ++ L.padding index else L.padding index ++ a.flags

/-- Word `k` of an entry. -/
def Layout.word (index : Nat) (a : SignalAction) (k : Nat) : Word :=
  if k = L.handlerAt then a.handler else if k = L.maskAt then a.mask else L.flagsWord index a

/-- `signal.actions[index]`. -/
def entry (actions : List SignalAction) (index : Nat) : SignalAction := actions.getD index ⟨0,0,0⟩

/-- The four words from the start of an entry on. -/
def Layout.rawWords (actions : List SignalAction) (index : Nat) : List Word :=
  (List.range 3).map (L.word index (entry actions index)) ++ [L.word (index + 1) (entry actions (index + 1)) 0]

/-- `from_raw_parts` of 32 bytes at an entry. -/
def Layout.raw (actions : List SignalAction) (index : Nat) : List Byte := words (L.rawWords actions index)

/-! ## Calls -/

structure SigactionCall where
  sig : Word
  act : Word
  oldact : Word
  deriving DecidableEq, Repr

/-- One call; none fails. -/
def callStep (task : Sel4Task) (c : SigactionCall) : Except Empty (SysResult × Sel4Task) :=
  .ok (sysRtSigaction task L.raw c.sig c.act c.oldact)

/-- An action as a program gives it, in four words. -/
structure KernelAction where
  handler : Word
  flags : Word
  restorer : Word
  mask : Word
  deriving DecidableEq, Repr

def KernelAction.words (a : KernelAction) : List Word := [a.handler,a.flags,a.restorer,a.mask]

def KernelAction.bytes (a : KernelAction) : List Byte := EntryStack.words a.words

/-- The handler as it is read from an address: what lies behind the end of its page reads as 0. -/
def cut (act handler : Word) : Word := packWord ((leBytes handler).take (PAGE_SIZE - pageOffset act)) 0

/-- The four words of the action are those that lie at the entry: with the handler that has been read, and with the mask and
    the flags that the entry has had, followed by the first word of the entry behind. -/
def Survives (before after : List SignalAction) (index : Nat) (act : Word) (a : KernelAction) : Prop :=
  a.words = (List.range 3).map (L.word index { entry before index with handler := cut act a.handler }) ++
    [L.word (index + 1) (entry after (index + 1)) 0]

/-! ## One call -/

variable {task : Sel4Task} {sig act oldact : Word}

/-- What the call reads as the handler. -/
theorem handler_read {a : KernelAction} (stored : Reads (byteOf task.mem) act a.bytes) :
    packWord ((task.mem.readBytes act (List.replicate 32 0)).getD (List.replicate 32 0)) 0 = cut act a.handler := by
  have whole : a.bytes.length = 32 := length_words a.words
  have front : ∀ j < 8, a.bytes[j]? = some (byteAt a.handler j) := by
    intro j low
    show (leBytes a.handler ++ words [a.flags,a.restorer,a.mask])[j]? = _
    rw [List.getElem?_append_left (by rw [leBytes_length]; exact low),leBytes,List.getElem?_map,List.getElem?_range low]
    rfl
  have present : (byteOf task.mem act).isSome = true := by
    have first := stored 0 (by rw [whole]; omega)
    rw [add_ofNat_zero] at first
    rw [first,front 0 (by omega)]
    rfl
  apply word_ext
  intro j low
  have near : j < 32 := by omega
  rw [cut,byteAt_packWord _ _ _ low,byteAt_packWord _ _ _ low,Nat.zero_mul,Nat.zero_add,read_zeros act present near,
    List.getD_eq_getElem?_getD,List.getElem?_take,stored j (by rw [whole]; exact near),front j low]
  by_cases inside : j < PAGE_SIZE - pageOffset act
  · rw [if_pos inside,if_pos inside,leBytes,List.getElem?_map,List.getElem?_range low]
    rfl
  · rw [if_neg inside,if_neg inside]
    rfl

theorem index_lt (low : 0 < sig) (high : sig ≤ 64) : (sig - 1).toNat < 64 ∧ (sig - 1).toNat + 1 = sig.toNat := by
  have positive : 0 < sig.toNat := low
  have bound : sig.toNat ≤ 64 := high
  rw [BitVec.toNat_sub]
  show (2 ^ 64 - 1 + sig.toNat) % 2 ^ 64 < 64 ∧ (2 ^ 64 - 1 + sig.toNat) % 2 ^ 64 + 1 = _
  omega

/-- A call with an action sets the handler of its entry. -/
theorem sigaction_set (low : 0 < sig) (high : sig ≤ 64) (given : act ≠ 0) {a : KernelAction}
    (stored : Reads (byteOf task.mem) act a.bytes) :
    sysRtSigaction task L.raw sig act 0 = (.ok 0,{ task with signal := { task.signal with
      actions := task.signal.actions.modify (sig - 1).toNat fun entry => { entry with handler := cut act a.handler } } }) := by
  have invalid : ¬ (sig = 0 ∨ 64 < sig) := by
    rintro (rfl | above)
    · simp at low
    · exact absurd high (BitVec.not_le.mpr above)
  rw [sysRtSigaction,if_neg invalid]
  simp only [if_true,if_neg given,handler_read stored]

/-- A call that asks for the action writes what lies at its entry. -/
theorem sigaction_get (low : 0 < sig) (high : sig ≤ 64) (asked : oldact ≠ 0) :
    sysRtSigaction task L.raw sig 0 oldact = (.ok 0,task.write oldact (L.raw task.signal.actions (sig - 1).toNat)) := by
  have invalid : ¬ (sig = 0 ∨ 64 < sig) := by
    rintro (rfl | above)
    · simp at low
    · exact absurd high (BitVec.not_le.mpr above)
  rw [sysRtSigaction,if_neg invalid]
  simp only [if_true,if_neg asked]

/-! ## Runs -/

theorem entry_set {actions : List SignalAction} {index : Nat} (inside : index < actions.length) (f : SignalAction → SignalAction) :
    entry (actions.modify index f) index = f (entry actions index) := by
  rw [entry,entry,List.getD_eq_getElem?_getD,List.getD_eq_getElem?_getD,List.getElem?_modify_eq,List.getElem?_eq_getElem inside]
  rfl

theorem entry_other {actions : List SignalAction} {index other : Nat} (apart : other ≠ index) (f : SignalAction → SignalAction) :
    entry (actions.modify other f) index = entry actions index := by
  simp only [entry,List.getD_eq_getElem?_getD,List.getElem?_modify,if_neg apart,Option.map_eq_map,Option.map_id']

/-- A call for another signal leaves the entry of a signal alone. -/
theorem call_other {c : SigactionCall} (low : 0 < sig) (high : sig ≤ 64) (other : c.sig ≠ sig) :
    entry (sysRtSigaction task L.raw c.sig c.act c.oldact).2.signal.actions (sig - 1).toNat =
      entry task.signal.actions (sig - 1).toNat := by
  rw [sysRtSigaction]
  by_cases invalid : c.sig = 0 ∨ 64 < c.sig
  · rw [if_pos invalid]
  · rw [if_neg invalid]
    have valid := not_or.mp invalid
    have apart : (c.sig - 1).toNat ≠ (sig - 1).toNat := by
      intro same
      have mine := (index_lt low high).2
      have positive : 0 < c.sig := BitVec.toNat_pos_of_ne_zero valid.1
      have theirs := (index_lt positive (BitVec.not_lt.mp valid.2)).2
      exact other (BitVec.eq_of_toNat_eq (by omega))
    dsimp only
    split_ifs
    · rfl
    · rfl
    · exact entry_other apart _
    · exact entry_other apart _

/-- A new task has 65 entries, and a call changes none of the count. -/
theorem sigaction_entries : TaskSignal.new.actions.length = 65 ∧ ∀ raw : List SignalAction → Nat → List Byte,
    (sysRtSigaction task raw sig act oldact).2.signal.actions.length = task.signal.actions.length := by
  refine ⟨List.length_replicate,fun raw => ?_⟩
  rw [sysRtSigaction]
  dsimp only
  split_ifs
  · rfl
  · rfl
  · rfl
  · exact List.length_modify ..
  · exact List.length_modify ..

/-- Calls for other signals all return, and leave the entry of a signal alone. -/
theorem calls_other {calls : List SigactionCall} (low : 0 < sig) (high : sig ≤ 64) (others : ∀ c ∈ calls, c.sig ≠ sig) :
    ∃ results task', run (callStep L) task calls = .ok (results,task') ∧
      entry task'.signal.actions (sig - 1).toNat = entry task.signal.actions (sig - 1).toNat := by
  have each : Each (callStep L) (fun _ _ _ _ => True) task calls :=
    each_of_step (I := fun _ => True) (fun task c _ => ⟨_,_,rfl,trivial,trivial⟩) trivial
  obtain ⟨results,task',ran⟩ := each_ran each
  refine ⟨results,task',ran,?_⟩
  refine run_invariant_on (I := fun task' => entry task'.signal.actions (sig - 1).toNat = entry task.signal.actions (sig - 1).toNat)
    (C := fun c => c.sig ≠ sig) (fun before c o after same other stepped => ?_) rfl others ran
  have isAfter : after = (sysRtSigaction before L.raw c.sig c.act c.oldact).2 := congrArg Prod.snd (Except.ok.inj stepped).symm
  rw [← same,isAfter]
  exact call_other L low high other

theorem words_at {mem : TaskMemInfo} {addr : Word} {ws ws' : List Word} (there : Reads (byteOf mem) addr (words ws))
    (same : ws.length = ws'.length) : Reads (byteOf mem) addr (words ws') ↔ ws' = ws := by
  constructor
  · intro reads
    exact words_inj (reads_unique reads there (by rw [length_words,length_words,same]))
  · rintro rfl
    exact there

/-- What is at the address once the action has been asked for. -/
theorem get_reads (task : Sel4Task) (low : 0 < sig) (high : sig ≤ 64) (asked : oldact ≠ 0) :
    Reads (byteOf (sysRtSigaction task L.raw sig 0 oldact).2.mem) oldact (words (L.rawWords task.signal.actions (sig - 1).toNat)) := by
  rw [sigaction_get L low high asked]
  intro i inside
  have small : (L.raw task.signal.actions (sig - 1).toNat).length = 32 := length_words _
  exact byteOf_written oldact (by rw [small]; omega) inside

/-- The action is set, calls for other signals follow, and then the action is asked for. -/
def RoundTrip (task : Sel4Task) (sig act oldact : Word) (a : KernelAction) (calls : List SigactionCall) : Prop :=
  ∃ task₁ results task₂ task₃, sysRtSigaction task L.raw sig act 0 = (.ok 0,task₁) ∧
    run (callStep L) task₁ calls = .ok (results,task₂) ∧ sysRtSigaction task₂ L.raw sig 0 oldact = (.ok 0,task₃) ∧
    Reads (byteOf task₃.mem) oldact a.bytes

section
variable {task : Sel4Task} (entries : task.signal.actions.length = 65) {sig act oldact : Word} (low : 0 < sig) (high : sig ≤ 64)
  (given : act ≠ 0) {a : KernelAction} (stored : Reads (byteOf task.mem) act a.bytes) {calls : List SigactionCall}
  (others : ∀ c ∈ calls, c.sig ≠ sig)
include entries low high given stored others

/-- The entry of the signal when the action is asked for. -/
theorem set_then_others : ∃ task₁ results task₂, sysRtSigaction task L.raw sig act 0 = (.ok 0,task₁) ∧
    run (callStep L) task₁ calls = .ok (results,task₂) ∧ entry task₂.signal.actions (sig - 1).toNat =
      { entry task.signal.actions (sig - 1).toNat with handler := cut act a.handler } := by
  obtain ⟨results,task₂,ran,same⟩ := calls_other L low high others
  refine ⟨_,results,task₂,sigaction_set L low high given stored,ran,?_⟩
  rw [same,entry_set (by rw [entries]; exact Nat.lt_succ_of_lt (index_lt low high).1)]

/-- In every layout, from every task with its 65 entries, for every signal and every action in its memory: every call returns,
    and the action that has been set is given back just when its words are those that lie at the entry. -/
theorem sigaction_round_trip_iff (asked : oldact ≠ 0) :
    ∃ task₁ results task₂, sysRtSigaction task L.raw sig act 0 = (.ok 0,task₁) ∧
      run (callStep L) task₁ calls = .ok (results,task₂) ∧
      (RoundTrip L task sig act oldact a calls ↔ Survives L task.signal.actions task₂.signal.actions (sig - 1).toNat act a) := by
  obtain ⟨task₁,results,task₂,set,ran,same⟩ := set_then_others L entries low high given stored others
  refine ⟨task₁,results,task₂,set,ran,?_⟩
  have written := get_reads L task₂ low high asked
  have back := @words_at _ _ _ a.words written rfl
  rw [Layout.rawWords,same] at back
  rw [Survives,← back,sigaction_get L low high asked]
  constructor
  · rintro ⟨task₁',results',task₂',task₃,set',ran',get',reads⟩
    rw [set] at set'
    cases set'
    rw [ran] at ran'
    cases ran'
    rw [sigaction_get L low high asked] at get'
    cases get'
    exact reads
  · intro reads
    exact ⟨task₁,results,task₂,_,set,ran,sigaction_get L low high asked,reads⟩

end

/-! ## The usual layout -/

/-- The fields by their alignment: handler, mask, flags, and padding of zeros. -/
def usual : Layout :=
  { handlerAt := 0, maskAt := 1, flagsAt := 2, places := List.Perm.refl _, flagsHigh := false, padding := fun _ => 0 }

/-- In the usual layout an action survives whose handler is in one page, whose flags are the entry's mask, whose restorer is
    the entry's flags and whose mask is the handler of the signal behind. -/
theorem survives_usual_iff {before after : List SignalAction} {index : Nat} {act : Word} {a : KernelAction} :
    Survives usual before after index act a ↔ a.handler = cut act a.handler ∧ a.flags = (entry before index).mask ∧
      a.restorer = (entry before index).flags.setWidth 64 ∧ a.mask = (entry after (index + 1)).handler := by
  have flags : usual.flagsWord index { entry before index with handler := cut act a.handler } =
      (entry before index).flags.setWidth 64 := by
    apply BitVec.eq_of_getLsbD_eq
    intro i inside
    show ((0 : BitVec 32) ++ (entry before index).flags : BitVec (32 + 32)).getLsbD i = _
    rw [BitVec.getLsbD_append,BitVec.getLsbD_setWidth]
    by_cases low : i < 32
    · simp [low,inside]
    · rw [BitVec.getLsbD_of_ge _ _ (Nat.le_of_not_lt low)]
      simp [low]
  have range : List.range 3 = [0,1,2] := rfl
  simp only [Survives,KernelAction.words,range,List.map_cons,List.map_nil,List.cons_append,List.nil_append,List.cons.injEq,and_true]
  show a.handler = _ ∧ a.flags = _ ∧ a.restorer = usual.flagsWord index _ ∧ a.mask = _ ↔ _
  rw [flags]
  exact Iff.rfl

/-- `SA_SIGINFO` with a restorer, for signal 10. -/
def siginfo : KernelAction := { handler := 0x401000, flags := 0x4000004, restorer := 0x401100, mask := 0 }

/-- A new task with an action at 0x1000. -/
def holding (a : KernelAction) : Sel4Task := (Sel4Task.new 1 1).write 0x1000 a.bytes

theorem holding_stored (a : KernelAction) : Reads (byteOf (holding a).mem) 0x1000 a.bytes := by
  intro i inside
  have small : a.bytes.length = 32 := length_words a.words
  exact byteOf_written 0x1000 (by rw [small]; omega) inside

theorem holding_actions (a : KernelAction) : (holding a).signal.actions = List.replicate 65 ⟨0,0,0⟩ := rfl

/-- The flags of an action are not given back. -/
theorem sigaction_no_round_trip : Reads (byteOf (holding siginfo).mem) 0x1000 siginfo.bytes ∧
    ¬ RoundTrip usual (holding siginfo) 10 0x1000 0x2000 siginfo [] := by
  refine ⟨holding_stored siginfo,?_⟩
  rintro ⟨task₁,results,task₂,task₃,set,ran,get,reads⟩
  cases ran
  have there := @get_reads usual 10 0x2000 task₁ (by simp) (by simp) (by simp)
  rw [get] at there
  have second := congrArg (fun ws => ws[1]?) ((@words_at _ _ _ siginfo.words there rfl).mp reads)
  rw [sigaction_set usual (by simp) (by simp) (by simp) (holding_stored siginfo)] at set
  cases set
  have flags : some (0x4000004 : Word) = some 0 := second
  simp at flags

/-- An action that is nothing but a handler. -/
def plain : KernelAction := { handler := 0x401000, flags := 0, restorer := 0, mask := 0 }

theorem sigaction_round_trip_plain :
    RoundTrip usual (holding plain) 10 0x1000 0x2000 plain [{ sig := 12, act := 0x1000, oldact := 0 }] := by
  have others : ∀ c ∈ [({ sig := 12, act := 0x1000, oldact := 0 } : SigactionCall)], c.sig ≠ 10 := by simp
  have entries : (holding plain).signal.actions.length = 65 := by
    rw [holding_actions,List.length_replicate]
  obtain ⟨task₁,results,task₂,set,ran,back⟩ := @sigaction_round_trip_iff usual (holding plain) entries 10 0x1000 0x2000 (by simp)
    (by simp) (by simp) plain (holding_stored plain) _ others (by simp)
  refine back.mpr (survives_usual_iff.mpr ⟨by decide,rfl,rfl,?_⟩)
  rw [sigaction_set usual (by simp) (by simp) (by simp) (holding_stored plain)] at set
  cases set
  cases ran
  rfl

end Sel4Linux.SignalActions
