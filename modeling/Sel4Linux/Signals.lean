import Sel4Linux.Task
import Sel4Linux.Runs

/-!
Pending signals of a task (`lcl/src/task/signal.rs`). A signal is owed from the
time it is added until it is popped. Over every history a pop delivers the least
signal that is owed and not masked, and pops with one mask deliver all of these
in order (`signals_delivered`).
-/
namespace Sel4Linux.Signals
open Sel4Linux.Bytes Sel4Linux.Task Sel4Linux.Runs
set_option linter.unusedSimpArgs false

/-- `add_signal`: numbers other than 1 to 64 are ignored. -/
def addSignal (s : TaskSignal) (sig _fromTid : Word) : TaskSignal :=
  if 0 < sig ∧ sig ≤ 64 then { s with pending := s.pending ||| (1 <<< (sig - 1).toNat) } else s

def hasUnmaskedSignal (s : TaskSignal) : Bool := s.pending &&& ~~~s.mask ≠ 0

def popSignal (s : TaskSignal) : Option Nat × TaskSignal :=
  let pending := s.pending &&& ~~~s.mask
  if pending = 0 then (none,s)
  else
    let sig := pending.ctz.toNat + 1
    (some sig,{ s with pending := s.pending &&& ~~~((1 : Word) <<< (sig - 1)) })

/-! ## Histories -/

inductive SignalOp where
  | add (sig fromTid : Word)
  | setMask (mask : Word)
  | pop
  deriving DecidableEq, Repr

/-- Only a pop has a result. -/
inductive SignalResult where
  | done
  | popped (sig : Option Nat)
  deriving DecidableEq, Repr

/-- One operation; none fails. -/
def signalStep (s : TaskSignal) : SignalOp → Except Empty (SignalResult × TaskSignal)
  | .add sig fromTid => .ok (.done,addSignal s sig fromTid)
  | .setMask mask => .ok (.done,{ s with mask := mask })
  | .pop => .ok (.popped (popSignal s).1,(popSignal s).2)

def Pending (s : TaskSignal) (n : Nat) : Prop := 1 ≤ n ∧ n ≤ 64 ∧ s.pending.getLsbD (n - 1) = true

def Unmasked (s : TaskSignal) (n : Nat) : Prop := s.mask.getLsbD (n - 1) = false

/-- What has been done and given, the latest first. -/
abbrev History := List (SignalOp × SignalResult)

/-- The signal has been added and not been popped since; at the beginning those of `start` are pending. -/
def Owed (start : TaskSignal) : History → Nat → Prop
  | [], n => Pending start n
  | (.add sig _,_) :: past, n => (1 ≤ n ∧ n ≤ 64 ∧ sig.toNat = n) ∨ Owed start past n
  | (.pop,.popped (some sig)) :: past, n => n ≠ sig ∧ Owed start past n
  | _ :: past, n => Owed start past n

/-- The signals that a pop may deliver. -/
def Due (start s : TaskSignal) (past : History) (n : Nat) : Prop := Owed start past n ∧ Unmasked s n

/-- What a pop gives after a history: the least signal that is due, and none just when none is. -/
def Delivers (start s : TaskSignal) (past : History) : SignalOp → SignalResult → Prop
  | .pop, .popped (some sig) => hasUnmaskedSignal s = true ∧ 1 ≤ sig ∧ sig ≤ 64 ∧ Due start s past sig ∧
      ∀ n, Due start s past n → sig ≤ n
  | .pop, .popped none => hasUnmaskedSignal s = false ∧ ∀ n, ¬ Due start s past n
  | .pop, .done => False
  | .add _ _, o | .setMask _, o => o = .done

/-! ## One operation -/

variable {s : TaskSignal} {n : Nat}

theorem bit_iff {m : Nat} (low : 1 ≤ m) (high : m ≤ 64) (positive : 1 ≤ n) :
    ((1 : Word) <<< (m - 1)).getLsbD (n - 1) = true ↔ m = n := by
  have bit : ((1 : Word) <<< (m - 1)).getLsbD (n - 1) = (decide (m - 1 < 64) && decide (m - 1 = n - 1)) := by
    rw [← BitVec.getLsbD_twoPow,BitVec.twoPow_eq]
    rfl
  rw [bit,Bool.and_eq_true,decide_eq_true_eq,decide_eq_true_eq]
  omega

theorem pending_add (sig fromTid : Word) : Pending (addSignal s sig fromTid) n ↔
    (1 ≤ n ∧ n ≤ 64 ∧ sig.toNat = n) ∨ Pending s n := by
  rw [addSignal]
  by_cases valid : 0 < sig ∧ sig ≤ 64
  · have low : 1 ≤ sig.toNat := valid.1
    have high : sig.toNat ≤ 64 := valid.2
    have index : (sig - 1).toNat = sig.toNat - 1 := by
      rw [BitVec.toNat_sub]
      show (2 ^ 64 - 1 + sig.toNat) % 2 ^ 64 = _
      omega
    rw [if_pos valid]
    simp only [Pending,BitVec.getLsbD_or,Bool.or_eq_true,index]
    constructor
    · rintro ⟨from1,upTo,before | new⟩
      · exact .inr ⟨from1,upTo,before⟩
      · exact .inl ⟨from1,upTo,(bit_iff low high from1).mp new⟩
    · rintro (⟨from1,upTo,same⟩ | ⟨from1,upTo,before⟩)
      · exact ⟨from1,upTo,.inr ((bit_iff low high from1).mpr same)⟩
      · exact ⟨from1,upTo,.inl before⟩
  · rw [if_neg valid]
    constructor
    · exact .inr
    · rintro (⟨from1,upTo,same⟩ | before)
      · refine absurd ⟨?_,?_⟩ valid
        · show 0 < sig.toNat
          omega
        · show sig.toNat ≤ 64
          omega
      · exact before

/-- The signals that are pending and not masked. -/
theorem unmasked_bit (low : 1 ≤ n) (high : n ≤ 64) :
    (s.pending &&& ~~~s.mask).getLsbD (n - 1) = true ↔ Pending s n ∧ Unmasked s n := by
  have inside : n - 1 < 64 := by omega
  simp only [BitVec.getLsbD_and,BitVec.getLsbD_not,Bool.and_eq_true,inside,decide_true,Bool.not_eq_true',true_and,Pending,
    Unmasked,low,high,Bool.true_and]

theorem popSignal_none (empty : hasUnmaskedSignal s = false) : popSignal s = (none,s) ∧ ∀ n, ¬ (Pending s n ∧ Unmasked s n) := by
  have zero : s.pending &&& ~~~s.mask = 0 := by simpa [hasUnmaskedSignal] using empty
  refine ⟨by simp only [popSignal,zero,if_true],fun n due => ?_⟩
  have bit := (unmasked_bit due.1.1 due.1.2.1).mpr due
  rw [zero] at bit
  simp at bit

/-- Clearing the bit of a signal takes this one away. -/
theorem pending_clear {sig : Nat} (low : 1 ≤ sig) (high : sig ≤ 64) :
    Pending { s with pending := s.pending &&& ~~~((1 : Word) <<< (sig - 1)) } n ↔ n ≠ sig ∧ Pending s n := by
  simp only [Pending,BitVec.getLsbD_and,BitVec.getLsbD_not,Bool.and_eq_true,Bool.not_eq_true']
  constructor
  · rintro ⟨from1,upTo,before,_,cleared⟩
    refine ⟨?_,from1,upTo,before⟩
    rintro rfl
    rw [(bit_iff low high from1).mpr rfl] at cleared
    cases cleared
  · rintro ⟨other,from1,upTo,before⟩
    refine ⟨from1,upTo,before,decide_eq_true (by omega),?_⟩
    apply Bool.eq_false_iff.mpr
    intro bit
    exact other ((bit_iff low high from1).mp bit).symm

/-- A pop takes the least signal that is pending and not masked, and no other. -/
theorem popSignal_some (nonempty : hasUnmaskedSignal s = true) : ∃ sig t, popSignal s = (some sig,t) ∧
    Pending s sig ∧ Unmasked s sig ∧ (∀ n, Pending s n → Unmasked s n → sig ≤ n) ∧ t.mask = s.mask ∧
    ∀ n, Pending t n ↔ n ≠ sig ∧ Pending s n := by
  have nonzero : s.pending &&& ~~~s.mask ≠ 0#64 := by simpa [hasUnmaskedSignal] using nonempty
  have inside : (s.pending &&& ~~~s.mask).ctz.toNat < 64 := BitVec.ctz_lt_iff_ne_zero.mpr nonzero
  have low : 1 ≤ (s.pending &&& ~~~s.mask).ctz.toNat + 1 := Nat.le_add_left _ _
  have set := BitVec.getLsbD_true_ctz_of_ne_zero nonzero
  obtain ⟨pending,unmasked⟩ := (unmasked_bit low inside).mp set
  refine ⟨_,_,if_neg nonzero,pending,unmasked,fun n isPending isUnmasked => ?_,rfl,fun n => pending_clear low inside⟩
  have bit := (unmasked_bit isPending.1 isPending.2.1).mpr ⟨isPending,isUnmasked⟩
  have positive := isPending.1
  apply Nat.le_of_not_lt
  intro below
  rw [BitVec.getLsbD_false_of_lt_ctz (by omega)] at bit
  cases bit

/-! ## Every history -/

def note (_ : TaskSignal) (op : SignalOp) (o : SignalResult) (_ : TaskSignal) (past : History) : History := (op,o) :: past

/-- What is pending is what is owed. -/
def Tracks (start : TaskSignal) (state : TaskSignal × History) : Prop := ∀ n, Pending state.1 n ↔ Owed start state.2 n

/-- Every operation keeps account of what is owed, and a pop delivers from it. -/
theorem step_delivers {start : TaskSignal} {past : History} (tracks : Tracks start (s,past)) (op : SignalOp) :
    ∃ o t, recorded signalStep note (s,past) op = .ok (o,t) ∧ Delivers start s past op o ∧ Tracks start t := by
  cases op with
  | add sig fromTid =>
    refine ⟨.done,_,rfl,rfl,fun n => ?_⟩
    show Pending (addSignal s sig fromTid) n ↔ (1 ≤ n ∧ n ≤ 64 ∧ sig.toNat = n) ∨ Owed start past n
    rw [pending_add,tracks n]
  | setMask mask => exact ⟨.done,_,rfl,rfl,tracks⟩
  | pop =>
    cases has : hasUnmaskedSignal s with
    | false =>
      obtain ⟨popped,nothing⟩ := popSignal_none has
      refine ⟨.popped none,(s,(.pop,.popped none) :: past),by simp only [recorded,signalStep,popped]; rfl,⟨has,?_⟩,tracks⟩
      intro n due
      exact nothing n ⟨(tracks n).mpr due.1,due.2⟩
    | true =>
      obtain ⟨sig,t,popped,pending,unmasked,least,_,left⟩ := popSignal_some has
      refine ⟨.popped (some sig),(t,(.pop,.popped (some sig)) :: past),by simp only [recorded,signalStep,popped]; rfl,
        ⟨has,pending.1,pending.2.1,⟨(tracks sig).mp pending,unmasked⟩,?_⟩,fun n => ?_⟩
      · intro n due
        exact least n ((tracks n).mpr due.1) due.2
      · show Pending t n ↔ n ≠ sig ∧ Owed start past n
        rw [left,tracks n]

/-- Pops with one mask take the signals of an increasing list from its front. -/
theorem pops_in_order {due : List Nat} (increasing : due.Pairwise (· < ·)) (all : ∀ n, n ∈ due ↔ Pending s n ∧ Unmasked s n)
    (k : Nat) : ∃ t, run signalStep s (List.replicate k .pop) = .ok ((List.range k).map fun i => .popped due[i]?,t) ∧
      t.mask = s.mask ∧ ∀ n, Pending t n ↔ Pending s n ∧ n ∉ due.take k := by
  induction k generalizing s due with
  | zero => exact ⟨s,rfl,rfl,fun n => by simp⟩
  | succ k ih =>
    cases has : hasUnmaskedSignal s with
    | false =>
      obtain ⟨popped,nothing⟩ := popSignal_none has
      have none_due : due = [] := by
        apply List.eq_nil_iff_forall_not_mem.mpr
        intro n inDue
        exact nothing n ((all n).mp inDue)
      subst none_due
      have stepped : signalStep s .pop = .ok (.popped none,s) := by rw [signalStep,popped]
      obtain ⟨t,ran,mask,left⟩ := ih increasing all
      refine ⟨t,run_cons_iff.mpr ⟨.popped none,s,_,stepped,ran,?_⟩,mask,fun n => by rw [left n]; simp⟩
      rw [List.range_succ_eq_map,List.map_cons,List.map_map]
      rfl
    | true =>
      obtain ⟨sig,t,popped,pending,unmasked,least,mask,left⟩ := popSignal_some has
      cases due with
      | nil => exact absurd ((all sig).mpr ⟨pending,unmasked⟩) List.not_mem_nil
      | cons first rest =>
        obtain ⟨before,increasing'⟩ := List.pairwise_cons.mp increasing
        have isFirst : sig = first := by
          have first_due := (all first).mp List.mem_cons_self
          rcases List.mem_cons.mp ((all sig).mpr ⟨pending,unmasked⟩) with same | later
          · exact same
          · exact Nat.le_antisymm (least first first_due.1 first_due.2) (Nat.le_of_lt (before sig later))
        subst isFirst
        have restDue : ∀ n, n ∈ rest ↔ Pending t n ∧ Unmasked t n := by
          intro n
          rw [left n,Unmasked,mask,← Unmasked,and_assoc,← all n,List.mem_cons]
          constructor
          · exact fun later => ⟨Nat.ne_of_gt (before n later),.inr later⟩
          · rintro ⟨other,same | later⟩
            · exact absurd same other
            · exact later
        have stepped : signalStep s .pop = .ok (.popped (some sig),t) := by rw [signalStep,popped]
        obtain ⟨u,ran,mask',left'⟩ := ih increasing' restDue
        refine ⟨u,run_cons_iff.mpr ⟨.popped (some sig),t,_,stepped,ran,?_⟩,mask'.trans mask,fun n => ?_⟩
        · rw [List.range_succ_eq_map,List.map_cons,List.map_map]
          rfl
        · rw [left' n,left n,List.take_succ_cons,List.mem_cons,not_or,and_assoc,and_left_comm]

/-- The signals that are pending and not masked, in order. -/
theorem due_list (s : TaskSignal) : ∃ due : List Nat, due.Pairwise (· < ·) ∧ ∀ n, n ∈ due ↔ Pending s n ∧ Unmasked s n := by
  refine ⟨(List.range' 1 64).filter fun n => (s.pending &&& ~~~s.mask).getLsbD (n - 1),
    (List.pairwise_lt_range').filter _,fun n => ?_⟩
  rw [List.mem_filter,List.mem_range'_1]
  constructor
  · rintro ⟨⟨low,high⟩,bit⟩
    exact (unmasked_bit low (by omega)).mp bit
  · rintro ⟨pending,unmasked⟩
    exact ⟨⟨pending.1,by have := pending.2.1; omega⟩,(unmasked_bit pending.1 pending.2.1).mpr ⟨pending,unmasked⟩⟩

/-- Over every history, every pop gives the least signal that has been added, not been popped since and is not masked, or
    none just when `has_unmasked_signal` is false. Pops with one mask give each signal that is pending and not masked once,
    in increasing order and then none, and leave exactly those that are masked. -/
theorem signals_delivered (start : TaskSignal) (ops : List SignalOp) :
    Each (recorded signalStep note) (fun state op o _ => Delivers start state.1 state.2 op o) (start,[]) ops ∧
    ∀ s : TaskSignal, ∃ due : List Nat, due.Pairwise (· < ·) ∧ (∀ n, n ∈ due ↔ Pending s n ∧ Unmasked s n) ∧
      ∀ k, ∃ t, run signalStep s (List.replicate k .pop) = .ok ((List.range k).map fun i => .popped due[i]?,t) ∧ t.mask = s.mask ∧
        (due.length ≤ k → ∀ n, Pending t n ↔ Pending s n ∧ ¬ Unmasked s n) := by
  constructor
  · exact each_of_step (I := Tracks start) (fun state op tracks => step_delivers tracks op) (fun _ => Iff.rfl)
  · intro s
    obtain ⟨due,increasing,all⟩ := due_list s
    refine ⟨due,increasing,all,fun k => ?_⟩
    obtain ⟨t,ran,mask,left⟩ := pops_in_order increasing all k
    refine ⟨t,ran,mask,fun enough n => ?_⟩
    rw [left n,List.take_of_length_le enough,all n,not_and]
    exact and_congr_right fun pending => ⟨fun masked => masked pending,fun masked _ => masked⟩

/-- Both ends of the word: 64 and 1 are added, the lower comes first, and a masked 9 stays. -/
example : (run signalStep TaskSignal.new [.add 64 0,.add 9 0,.add 1 0,.add 65 0,.setMask 0x100,.pop,.pop,.pop]).map Prod.fst =
    .ok [.done,.done,.done,.done,.done,.popped (some 1),.popped (some 64),.popped none] := by decide +kernel

end Sel4Linux.Signals
