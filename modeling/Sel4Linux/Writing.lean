import Sel4Linux.Descriptors

/-!
Writes in a row on one descriptor. The service writes where the descriptor's
offset points and leaves the offset there, so every write of a freshly opened
file starts at its front: the file ends up as the concatenation of the writes
exactly when no more than one of them has any bytes (`sequential_write_iff`).
-/
namespace Sel4Linux.Writing
open Sel4Linux.Bytes Sel4Linux.Utf8 Sel4Linux.Ipc Sel4Linux.Ext4 Sel4Linux.Service Sel4Linux.Runs Sel4Linux.Files
open Sel4Linux.Descriptors
set_option linter.unusedSimpArgs false

/-! ## Writes at the front -/

/-- A file after writes that all start at its front. -/
def overwritten (c : List Byte) (ds : List (List Byte)) : List Byte := ds.foldl (fun c d => splice c 0 d) c

theorem splice_front (c d : List Byte) : splice c 0 d = d ++ c.drop d.length := by simp [splice]

theorem overwritten_length_le (c : List Byte) (ds : List (List Byte)) :
    (overwritten c ds).length ≤ c.length + ds.flatten.length := by
  induction ds generalizing c with
  | nil => simp [overwritten]
  | cons d rest ih =>
    have later := ih (splice c 0 d)
    have first : (splice c 0 d).length ≤ c.length + d.length := by
      rw [splice_front,List.length_append,List.length_drop]; omega
    simp only [overwritten,List.foldl_cons,List.flatten_cons,List.length_append] at later ⊢
    omega

/-- Writes at the front append to `c` only when they write nothing, or when `c` is empty
    and at most one of them writes anything. -/
theorem overwritten_eq_append_iff (c : List Byte) (ds : List (List Byte)) :
    overwritten c ds = c ++ ds.flatten ↔ (ds.filter (· ≠ [])).length = 0 ∨ (c = [] ∧ (ds.filter (· ≠ [])).length ≤ 1) := by
  induction ds generalizing c with
  | nil => simp [overwritten]
  | cons d rest ih =>
    by_cases none : d = []
    · subst none
      have same := ih c
      simp only [overwritten,List.foldl_cons,splice_front,List.length_nil,List.drop_zero,List.nil_append,List.flatten_cons,
        ne_eq,not_true_eq_false,decide_false,Bool.false_eq_true,not_false_eq_true,List.filter_cons_of_neg] at same ⊢
      exact same
    · by_cases fresh : c = []
      · subst fresh
        have same := ih d
        simp only [overwritten,List.foldl_cons,splice_front,List.drop_nil,List.append_nil,List.flatten_cons,List.nil_append,
          ne_eq,none,not_false_eq_true,decide_true,List.filter_cons_of_pos,List.length_cons,true_and,false_and,
          or_false] at same ⊢
        rw [same]
        omega
      · -- The file had bytes and gets bytes at its front: it is too short afterwards.
        have later := overwritten_length_le (splice c 0 d) rest
        have first : (splice c 0 d).length < c.length + d.length := by
          have := List.length_pos_iff.mpr none
          have := List.length_pos_iff.mpr fresh
          rw [splice_front,List.length_append,List.length_drop]; omega
        have short : overwritten c (d :: rest) ≠ c ++ (d :: rest).flatten := by
          intro same
          have total := congrArg List.length same
          simp only [overwritten,List.foldl_cons,List.flatten_cons,List.length_append] at total later
          omega
        constructor
        · intro same
          exact absurd same short
        · rintro (nothing | ⟨empty,_⟩)
          · simp [none] at nothing
          · exact absurd empty fresh

/-! ## Runs of writes -/

variable {σ φ : Type} {X : Externs σ φ} (V : FileView X)

/-- A descriptor at offset 0 of an object that shows `c`. -/
structure AtFront (s : FsService σ φ) (fd : Word) (inode : Nat) (c : List Byte) : Prop where
  file : 3 ≤ fd.toNat
  entry : ∃ e, s.entry fd = some e ∧ e.inode = inode ∧ e.offset = 0
  shown : V.at s.fs inode = some c

variable {V}

/-- One write stores its bytes at the front, answers with their number and leaves the offset. -/
theorem write_front {s : FsService σ φ} {fd : Word} {inode : Nat} {c : List Byte} (front : AtFront V s fd inode c)
    (data : List Byte) :
    ∃ t, s.invoke X (.writeWithData fd data) = .ok (.Ok (BitVec.ofNat 64 data.length),t) ∧
      AtFront V t fd inode (splice c 0 data) := by
  obtain ⟨file,⟨e,live,rfl,start⟩,shown⟩ := front
  obtain ⟨disk,f,written,after⟩ := writeAt_splice V shown (show (0 : Word).toNat ≤ c.length from Nat.zero_le _) data
  have apart : ¬ fd = 0 ∧ ¬ (fd = 1 ∨ fd = 2) := by
    constructor
    · rintro rfl; simp at file
    · rintro (rfl | rfl) <;> simp at file
  refine ⟨{ s with fs := s.fs.put disk e.inode (some f) },?_,file,⟨e,live,rfl,start⟩,after⟩
  simp only [FsService.invoke,FsService.handleWriteWithData,if_neg apart.1,if_neg apart.2,live,start,written,ok_bind]

theorem run_writes {s : FsService σ φ} {fd : Word} {inode : Nat} {c : List Byte} (front : AtFront V s fd inode c)
    (ds : List (List Byte)) :
    ∃ t, run (FsService.invoke X) s (ds.map (.writeWithData fd)) = .ok (ds.map fun d => .Ok (BitVec.ofNat 64 d.length),t) ∧
      AtFront V t fd inode (overwritten c ds) := by
  induction ds generalizing s c with
  | nil => exact ⟨s,rfl,front⟩
  | cons d rest ih =>
    obtain ⟨u,first,mid⟩ := write_front front d
    obtain ⟨t,later,final⟩ := ih mid
    exact ⟨t,run_cons_iff.mpr ⟨_,u,_,first,later,rfl⟩,final⟩

/-- A file that an opening has just made: the writes on its descriptor are all answered with their
    lengths, and the file is their concatenation exactly when at most one of them has bytes. -/
theorem sequential_write_iff {disk : σ} {invs : List Invocation} {resps : List FsResponse} {s₀ s : FsService σ φ}
    (ran : run (FsService.invoke X) (FsService.new disk) invs = .ok (resps,s₀)) {path : Str} {flags : BitVec 32} {fd : Word}
    (opened : s₀.invoke X (.openWithPath path flags) = .ok (.Ok fd,s)) {entry : FileEntry} (live : s.entry fd = some entry)
    (empty : V.at s.fs entry.inode = some []) (ds : List (List Byte)) :
    ∃ t c, run (FsService.invoke X) s (ds.map (.writeWithData fd)) = .ok (ds.map fun d => .Ok (BitVec.ofNat 64 d.length),t) ∧
      V.at t.fs entry.inode = some c ∧ (c = ds.flatten ↔ (ds.filter (· ≠ [])).length ≤ 1) := by
  have consistent := run_consistent ran
  have effect := invoke_effect opened
  have start : entry.offset = 0 := by
    obtain ⟨e,live',start⟩ := opened_entry consistent opened
    rw [live] at live'
    cases live'
    exact start
  obtain ⟨t,wrote,final⟩ :=
    run_writes (V := V) ⟨((effect_consistent consistent effect).live live).1,⟨entry,live,rfl,start⟩,empty⟩ ds
  refine ⟨t,_,wrote,final.shown,?_⟩
  have concatenated := overwritten_eq_append_iff [] ds
  simp only [List.nil_append,true_and] at concatenated
  rw [concatenated]
  omega

/-- The path of a new file. -/
def madePath : Str := ascii ['/','f']

/-- The file made on an empty disk, on descriptor 3. -/
def made : FsService (List MemFs.Node) MemFs.Handle :=
  match (FsService.new []).invoke MemFs.memFs (.openWithPath madePath MemFs.O_CREAT) with
  | .ok (_,s) => s
  | .error _ => FsService.new []

theorem sequential_write_one : ∃ t c,
    run (FsService.invoke MemFs.memFs) made ([[],[1,2],[]].map (.writeWithData 3)) = .ok ([.Ok 0,.Ok 2,.Ok 0],t) ∧
      MemFs.memFsView.at t.fs 0 = some c ∧ (c = [1,2] ↔ ([[],[1,2],[]].filter fun d : List Byte => d ≠ []).length ≤ 1) := by
  have ran : run (FsService.invoke MemFs.memFs) (FsService.new []) [] = .ok ([],FsService.new []) := rfl
  have opened : (FsService.new []).invoke MemFs.memFs (.openWithPath madePath MemFs.O_CREAT) = .ok (.Ok 3,made) := rfl
  have live : made.entry 3 = some { path := madePath, inode := 0, size := 0, offset := 0, flags := MemFs.O_CREAT } := rfl
  have empty : MemFs.memFsView.at made.fs 0 = some [] := rfl
  exact sequential_write_iff ran opened live empty [[],[1,2],[]]

/-- The second of two writes takes the place of the first. -/
theorem second_write_overwrites : ∃ t,
    run (FsService.invoke MemFs.memFs) made [.writeWithData 3 [1,2],.writeWithData 3 [3]] = .ok ([.Ok 2,.Ok 1],t) ∧
      MemFs.memFsView.at t.fs 0 = some [3,2] ∧ MemFs.memFsView.at t.fs 0 ≠ some ([1,2] ++ [3]) :=
  ⟨_,rfl,by decide,by decide⟩

end Sel4Linux.Writing
