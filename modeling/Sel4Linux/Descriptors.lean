import Sel4Linux.Files
import Sel4Linux.Service

/-!
The descriptor table of the file service and the object store behind it. What
one request can do to the two is said once (`Effect`); over any run of requests
descriptors are handed out one after the other from 3 on, and the live ones name
exactly the occupied slots, each one slot (`descriptor_invariant`).
-/
namespace Sel4Linux.Descriptors
open Sel4Linux.Bytes Sel4Linux.Utf8 Sel4Linux.Ipc Sel4Linux.Ext4 Sel4Linux.FdTable Sel4Linux.Service Sel4Linux.Runs
set_option linter.unusedSimpArgs false

variable {σ φ : Type} {X : Externs σ φ}

/-- The descriptor that a request is on. -/
def fdOf : Invocation → Option Word
  | .writeWithData fd _ | .lseek fd _ _ => some fd
  | .request (.Read fd _ _) | .request (.Write fd _ _) | .request (.Close fd) => some fd
  | .request (.Getdents64 fd _ _) | .request (.FileSize fd) => some fd
  | _ => none

/-- The requests that change which descriptors are live, when they succeed. -/
def Changes (s : FsService σ φ) : Invocation → Prop
  | .openWithPath _ _ => True
  | .request (.Close fd) => 3 ≤ fd.toNat ∧ ∃ entry, s.entry fd = some entry
  | _ => False

/-- What an answered request has done to descriptors and slots, and how many bytes its response has. -/
inductive Effect (s t : FsService σ φ) : Invocation → FsResponse → Prop where
  /-- A new descriptor, on an object in a slot that was free. -/
  | opened {path : Str} {flags : BitVec 32} {entry : FileEntry} {table : List (Option FileEntry)}
      (grew : growTable HEAP_SIZE FILE_ENTRY_SIZE s.fdTable s.nextFd.toNat = .ok table)
      (fdTable : t.fdTable = table.set s.nextFd.toNat (some entry)) (nextFd : t.nextFd = s.nextFd + 1)
      (start : entry.offset = 0) (free : s.fs.used entry.inode = false)
      (used : ∀ j, t.fs.used j = if j = entry.inode then true else s.fs.used j) :
      Effect s t (.openWithPath path flags) (.Ok s.nextFd)
  /-- A descriptor given up, with its slot. -/
  | closed {fd : Word} {entry : FileEntry} (live : s.entry fd = some entry)
      (fdTable : t.fdTable = s.fdTable.set fd.toNat none) (nextFd : t.nextFd = s.nextFd)
      (used : ∀ j, t.fs.used j = if j = entry.inode then false else s.fs.used j) :
      Effect s t (.request (.Close fd)) (.Ok 0)
  /-- The offset of a descriptor moved. -/
  | moved {inv : Invocation} {resp : FsResponse} {fd : Word} {entry : FileEntry} {offset : Word} (on : fdOf inv = some fd)
      (live : s.entry fd = some entry) (fdTable : t.fdTable = s.fdTable.set fd.toNat (some { entry with offset := offset }))
      (nextFd : t.nextFd = s.nextFd) (used : t.fs.used = s.fs.used) (answered : resp.isErr = false) (still : ¬ Changes s inv)
      (short : resp.payload.length ≤ inv.count) : Effect s t inv resp
  /-- Neither descriptors nor slots changed. -/
  | kept {inv : Invocation} {resp : FsResponse} (fdTable : t.fdTable = s.fdTable) (nextFd : t.nextFd = s.nextFd)
      (used : t.fs.used = s.fs.used) (answered : Changes s inv → resp.isErr = true)
      (short : resp.payload.length ≤ 20) : Effect s t inv resp

/-! ## What each handler does -/

section
variable {s t : FsService σ φ} {resp : FsResponse}

theorem openWithPath_effect {path : Str} {flags : BitVec 32} (ran : s.handleOpenWithPath X path flags = .ok (resp,t)) :
    Effect s t (.openWithPath path flags) resp := by
  unfold FsService.handleOpenWithPath at ran
  split at ran
  · cases ran
    exact .kept rfl rfl rfl (fun _ => rfl) (Nat.zero_le _)
  · rcases open_opening X s.fs path flags with ⟨e,disk,failed⟩ | ⟨i,size,disk,file,opened,_,free⟩
    · rw [failed] at ran
      cases ran
      exact .kept rfl rfl rfl (fun _ => rfl) (Nat.zero_le _)
    · rw [opened] at ran
      simp only [bind_ok_iff,Except.ok.injEq,Prod.mk.injEq] at ran
      obtain ⟨table,grew,_,_,rfl,rfl⟩ := ran
      exact .opened grew rfl rfl rfl free (fun j => by rw [used_put]; rfl)

private theorem reclosed {fs fs' : EXT4FSImpl σ φ} {i : Nat} {disk : σ} {file : φ} {mid : EXT4FSImpl σ φ}
    (free : fs.used i = false) (between : mid.used = (fs.put disk i (some file)).used)
    (closed : mid.close X i = .ok fs') : fs'.used = fs.used := by
  funext j
  rw [close_used closed j,between,used_put]
  split
  · next here => rw [here,free]
  · rfl

theorem statWithPath_effect {path : Str} (ran : s.handleStatWithPath X path = .ok (resp,t)) :
    Effect s t (.statWithPath path) resp := by
  unfold FsService.handleStatWithPath at ran
  split at ran
  · cases ran
    exact .kept rfl rfl rfl False.elim (Nat.zero_le _)
  · rcases open_opening X s.fs path 0#32 with ⟨e,disk,failed⟩ | ⟨i,size,disk,file,opened,_,free⟩
    · rw [failed] at ran
      cases ran
      exact .kept rfl rfl rfl False.elim (Nat.zero_le _)
    · rw [opened] at ran
      simp only [bind_ok_iff,Except.ok.injEq,Prod.mk.injEq] at ran
      obtain ⟨fs,closed,rfl,rfl⟩ := ran
      exact .kept rfl rfl (reclosed free (stat_used i) closed) False.elim (Nat.le_refl 20)

theorem accessWithPath_effect {path : Str} (ran : s.handleAccessWithPath X path = .ok (resp,t)) :
    Effect s t (.accessWithPath path) resp := by
  unfold FsService.handleAccessWithPath at ran
  split at ran
  · cases ran
    exact .kept rfl rfl rfl False.elim (Nat.zero_le _)
  · rcases open_opening X s.fs path 0#32 with ⟨e,disk,failed⟩ | ⟨i,size,disk,file,opened,_,free⟩
    · rw [failed] at ran
      cases ran
      exact .kept rfl rfl rfl False.elim (Nat.zero_le _)
    · rw [opened] at ran
      simp only [bind_ok_iff,Except.ok.injEq,Prod.mk.injEq] at ran
      obtain ⟨fs,closed,rfl,rfl⟩ := ran
      exact .kept rfl rfl (reclosed free rfl closed) False.elim (Nat.zero_le _)

theorem mkdirWithPath_effect {path : Str} (ran : s.handleMkdirWithPath X path = .ok (resp,t)) :
    Effect s t (.mkdirWithPath path) resp := by
  unfold FsService.handleMkdirWithPath at ran
  split at ran
  · cases ran
    exact .kept rfl rfl rfl False.elim (Nat.zero_le _)
  · simp only [bind_ok_iff,Except.ok.injEq,Prod.mk.injEq] at ran
    obtain ⟨fs,made,rfl,rfl⟩ := ran
    exact .kept rfl rfl (mkdir_used made) False.elim (Nat.zero_le _)

theorem unlinkWithPath_effect {path : Str} (ran : s.handleUnlinkWithPath X path = .ok (resp,t)) :
    Effect s t (.unlinkWithPath path) resp := by
  unfold FsService.handleUnlinkWithPath at ran
  split at ran
  · cases ran
    exact .kept rfl rfl rfl False.elim (Nat.zero_le _)
  · simp only [bind_ok_iff,Except.ok.injEq,Prod.mk.injEq] at ran
    obtain ⟨fs,removed,rfl,rfl⟩ := ran
    exact .kept rfl rfl (unlink_used removed) False.elim (Nat.zero_le _)

theorem writeWithData_effect {fd : Word} {data : List Byte} (ran : s.handleWriteWithData X fd data = .ok (resp,t)) :
    Effect s t (.writeWithData fd data) resp := by
  unfold FsService.handleWriteWithData at ran
  split at ran
  · cases ran
    exact .kept rfl rfl rfl False.elim (Nat.zero_le _)
  · split at ran
    · cases ran
      exact .kept rfl rfl rfl False.elim (Nat.zero_le _)
    · split at ran
      · simp only [bind_ok_iff,Except.ok.injEq,Prod.mk.injEq] at ran
        obtain ⟨written,done,rfl,rfl⟩ := ran
        exact .kept rfl rfl (writeAt_used done) False.elim (Nat.zero_le _)
      · cases ran
        exact .kept rfl rfl rfl False.elim (Nat.zero_le _)

theorem lseek_effect {fd offset : Word} {whence : BitVec 32} (ran : s.handleLseek fd offset whence = .ok (resp,t)) :
    Effect s t (.lseek fd offset whence) resp := by
  unfold FsService.handleLseek at ran
  split at ran
  · cases ran
    exact .kept rfl rfl rfl False.elim (Nat.zero_le _)
  · split at ran
    · next entry live =>
      split at ran
      · cases ran
        exact .moved rfl live rfl rfl rfl rfl False.elim (Nat.zero_le _)
      · cases ran
        exact .kept rfl rfl rfl False.elim (Nat.zero_le _)
    · cases ran
      exact .kept rfl rfl rfl False.elim (Nat.zero_le _)

theorem read_effect {fd addr count : Word} (ran : s.handleRead X fd count = .ok (resp,t)) :
    Effect s t (.request (.Read fd addr count)) resp := by
  unfold FsService.handleRead at ran
  split at ran
  · cases ran
    exact .kept rfl rfl rfl False.elim (Nat.zero_le _)
  · split at ran
    · cases ran
      exact .kept rfl rfl rfl False.elim (Nat.zero_le _)
    · split at ran
      · next entry live =>
        simp only [bind_ok_iff,Except.ok.injEq,Prod.mk.injEq] at ran
        obtain ⟨_,_,got,done,rfl,rfl⟩ := ran
        refine .moved rfl live rfl rfl (readAt_used done) rfl False.elim ?_
        have length := readAt_length done
        simp only [FsResponse.payload,Invocation.count,List.length_take,List.length_replicate] at length ⊢
        omega
      · cases ran
        exact .kept rfl rfl rfl False.elim (Nat.zero_le _)

theorem close_effect {fd : Word} (ran : s.handleClose X fd = .ok (resp,t)) : Effect s t (.request (.Close fd)) resp := by
  unfold FsService.handleClose at ran
  split at ran
  · next standard =>
    cases ran
    exact .kept rfl rfl rfl (fun changes => absurd changes.1 (by omega)) (Nat.zero_le _)
  · split at ran
    · next entry live =>
      simp only [bind_ok_iff,Except.ok.injEq,Prod.mk.injEq] at ran
      obtain ⟨fs,done,rfl,rfl⟩ := ran
      exact .closed live rfl rfl (close_used done)
    · cases ran
      exact .kept rfl rfl rfl (fun _ => rfl) (Nat.zero_le _)

theorem getdents64_effect {fd addr count : Word} (ran : s.handleGetdents64 X fd count = .ok (resp,t)) :
    Effect s t (.request (.Getdents64 fd addr count)) resp := by
  unfold FsService.handleGetdents64 at ran
  split at ran
  · next entry live =>
    simp only [bind_ok_iff,Except.ok.injEq,Prod.mk.injEq] at ran
    obtain ⟨_,_,got,done,rfl,rfl⟩ := ran
    refine .moved rfl live rfl rfl (getdents64_used done) rfl False.elim ?_
    have within := getdents64_within done
    simp only [FsResponse.payload,Invocation.count,List.length_take,List.length_replicate] at within ⊢
    omega
  · cases ran
    exact .kept rfl rfl rfl False.elim (Nat.zero_le _)

theorem fileSize_effect {fd : Word} (ran : s.handleFileSize fd = .ok (resp,t)) :
    Effect s t (.request (.FileSize fd)) resp := by
  unfold FsService.handleFileSize at ran
  split at ran
  all_goals
    cases ran
    exact .kept rfl rfl rfl False.elim (Nat.zero_le _)

/-- Every answered request has one of the four effects. -/
theorem invoke_effect {inv : Invocation} (ran : s.invoke X inv = .ok (resp,t)) : Effect s t inv resp := by
  cases inv with
  | openWithPath path flags => exact openWithPath_effect ran
  | statWithPath path => exact statWithPath_effect ran
  | mkdirWithPath path => exact mkdirWithPath_effect ran
  | unlinkWithPath path => exact unlinkWithPath_effect ran
  | accessWithPath path => exact accessWithPath_effect ran
  | writeWithData fd data => exact writeWithData_effect ran
  | lseek fd offset whence => exact lseek_effect ran
  | request r =>
    cases r with
    | Read fd addr count => exact read_effect ran
    | Close fd => exact close_effect ran
    | Getdents64 fd addr count => exact getdents64_effect ran
    | FileSize fd => exact fileSize_effect ran
    | _ =>
      cases ran
      exact .kept rfl rfl rfl False.elim (Nat.zero_le _)

end

/-! ## The invariant -/

/-- The table is numbered, and the slots in use are exactly those of the live entries, each of one entry only. -/
structure Consistent (s : FsService σ φ) : Prop extends Numbered s.fdTable s.nextFd where
  distinct : ∀ fd fd' e e', s.entry fd = some e → s.entry fd' = some e' → e.inode = e'.inode → fd = fd'
  occupied : ∀ i, s.fs.used i = true ↔ ∃ fd e, s.entry fd = some e ∧ e.inode = i

theorem new_consistent (disk : σ) : Consistent (FsService.new disk : FsService σ φ) := by
  have none : ∀ fd, (FsService.new disk : FsService σ φ).entry fd = none := lookup_nones
  refine ⟨nones_numbered,?_,fun i => ⟨fun taken => (by cases taken),?_⟩⟩
  · intro fd fd' e e' live
    rw [none] at live
    cases live
  · rintro ⟨fd,e,live,_⟩
    rw [none] at live
    cases live

variable {s t : FsService σ φ} {inv : Invocation} {resp : FsResponse}

/-- The entries after an opening, seen from a consistent service. -/
theorem Consistent.entry_opened (c : Consistent s) {entry : FileEntry} {table : List (Option FileEntry)}
    (grew : growTable HEAP_SIZE FILE_ENTRY_SIZE s.fdTable s.nextFd.toNat = .ok table)
    (fdTable : t.fdTable = table.set s.nextFd.toNat (some entry)) (nextFd : t.nextFd = s.nextFd + 1) :
    Numbered t.fdTable t.nextFd ∧ t.nextFd.toNat = s.nextFd.toNat + 1 ∧ s.entry s.nextFd = none ∧
      ∀ fd, t.entry fd = if fd = s.nextFd then some entry else s.entry fd := by
  obtain ⟨numbered,next,entries⟩ := c.toNumbered.opened (by decide) (by decide) grew entry
  rw [← fdTable,← nextFd] at numbered
  refine ⟨numbered,nextFd ▸ next,c.next_dead,fun fd => ?_⟩
  rw [FsService.entry,fdTable,entries]
  rfl

theorem entry_set {fd : Word} {old : FileEntry} {new : Option FileEntry} (live : s.entry fd = some old)
    (fdTable : t.fdTable = s.fdTable.set fd.toNat new) (other : Word) :
    t.entry other = if other = fd then new else s.entry other := by
  rw [FsService.entry,fdTable,lookup_set (lookup_inside live)]
  rfl

theorem setEntry_entry {fd : Word} {old : FileEntry} (live : s.entry fd = some old) (new : Option FileEntry) :
    (s.setEntry fd new).entry fd = new := by
  rw [entry_set (t := s.setEntry fd new) live rfl,if_pos rfl]

theorem entry_kept (fdTable : t.fdTable = s.fdTable) (fd : Word) : t.entry fd = s.entry fd := by
  rw [FsService.entry,fdTable]; rfl

/-- A new entry on an object in a free slot keeps the invariant. -/
private theorem opened_consistent (c : Consistent s) {fd : Word} {entry : FileEntry} (numbered : Numbered t.fdTable t.nextFd)
    (fresh : s.entry fd = none) (entries : ∀ other, t.entry other = if other = fd then some entry else s.entry other)
    (free : s.fs.used entry.inode = false) (used : ∀ j, t.fs.used j = if j = entry.inode then true else s.fs.used j) :
    Consistent t := by
  have unused : ∀ other e, s.entry other = some e → e.inode ≠ entry.inode := by
    intro other e live same
    have taken := (c.occupied e.inode).mpr ⟨other,e,live,rfl⟩
    rw [same,free] at taken
    cases taken
  refine ⟨numbered,fun a b e e' => ?_,fun i => ?_⟩
  · rw [entries,entries]
    split
    · next here =>
      split
      · next here' => intro _ _ _; rw [here,here']
      · intro first second same
        cases first
        exact absurd same.symm (unused b e' second)
    · split
      · intro first second same
        cases second
        exact absurd same (unused a e first)
      · exact c.distinct a b e e'
  · rw [used]
    constructor
    · intro taken
      by_cases here : i = entry.inode
      · exact ⟨fd,entry,by rw [entries,if_pos rfl],here.symm⟩
      · rw [if_neg here,c.occupied] at taken
        obtain ⟨other,e,live,same⟩ := taken
        have apart : other ≠ fd := by
          rintro rfl
          rw [fresh] at live
          cases live
        exact ⟨other,e,by rw [entries,if_neg apart,live],same⟩
    · rintro ⟨other,e,live,same⟩
      rw [entries] at live
      split at live
      · cases live
        simp [same]
      · rw [if_neg (by rw [← same]; exact unused other e live),c.occupied]
        exact ⟨other,e,live,same⟩

/-- An entry given up with its slot keeps the invariant. -/
private theorem closed_consistent (c : Consistent s) {fd : Word} {entry : FileEntry} (numbered : Numbered t.fdTable t.nextFd)
    (live : s.entry fd = some entry) (entries : ∀ other, t.entry other = if other = fd then none else s.entry other)
    (used : ∀ j, t.fs.used j = if j = entry.inode then false else s.fs.used j) : Consistent t := by
  refine ⟨numbered,fun a b e e' => ?_,fun i => ?_⟩
  · rw [entries,entries]
    split
    · intro first; cases first
    · split
      · intro _ second; cases second
      · exact c.distinct a b e e'
  · rw [used]
    constructor
    · intro taken
      by_cases here : i = entry.inode
      · simp [here] at taken
      · rw [if_neg here,c.occupied] at taken
        obtain ⟨other,e,live',same⟩ := taken
        have apart : other ≠ fd := by
          rintro rfl
          rw [live] at live'
          cases live'
          exact here same.symm
        exact ⟨other,e,by rw [entries,if_neg apart,live'],same⟩
    · rintro ⟨other,e,live',same⟩
      rw [entries] at live'
      split at live'
      · cases live'
      · next apart =>
        have away : i ≠ entry.inode := by
          intro here
          exact apart (c.distinct other fd e entry live' live (same.trans here))
        rw [if_neg away,c.occupied]
        exact ⟨other,e,live',same⟩

/-- Entries on the same objects as before keep the invariant. -/
private theorem moved_consistent (c : Consistent s) (numbered : Numbered t.fdTable t.nextFd) (used : t.fs.used = s.fs.used)
    (forth : ∀ fd e, t.entry fd = some e → ∃ e', s.entry fd = some e' ∧ e'.inode = e.inode)
    (back : ∀ fd e, s.entry fd = some e → ∃ e', t.entry fd = some e' ∧ e'.inode = e.inode) : Consistent t := by
  refine ⟨numbered,fun a b e e' first second same => ?_,fun i => ?_⟩
  · obtain ⟨e₁,live₁,same₁⟩ := forth a e first
    obtain ⟨e₂,live₂,same₂⟩ := forth b e' second
    exact c.distinct a b e₁ e₂ live₁ live₂ (by rw [same₁,same₂,same])
  · rw [used,c.occupied]
    constructor
    · rintro ⟨fd,e,live,same⟩
      obtain ⟨e',live',same'⟩ := back fd e live
      exact ⟨fd,e',live',same'.trans same⟩
    · rintro ⟨fd,e,live,same⟩
      obtain ⟨e',live',same'⟩ := forth fd e live
      exact ⟨fd,e',live',same'.trans same⟩

/-- Every answered request keeps the invariant. -/
theorem effect_consistent (c : Consistent s) (effect : Effect s t inv resp) : Consistent t := by
  cases effect with
  | opened grew fdTable nextFd start free used =>
    obtain ⟨numbered,_,fresh,entries⟩ := c.entry_opened grew fdTable nextFd
    exact opened_consistent c numbered fresh entries free used
  | closed live fdTable nextFd used =>
    have numbered : Numbered t.fdTable t.nextFd := by
      rw [fdTable,nextFd]
      exact c.toNumbered.set live none
    exact closed_consistent c numbered live (entry_set live fdTable) used
  | @moved _ _ fd entry offset _ live fdTable nextFd used _ _ _ =>
    have entries := entry_set live fdTable
    have numbered : Numbered t.fdTable t.nextFd := by
      rw [fdTable,nextFd]
      exact c.toNumbered.set live _
    refine moved_consistent c numbered used ?_ ?_
    · intro other e live'
      rw [entries] at live'
      split at live'
      · next here =>
        cases live'
        exact ⟨entry,by rw [here,live],rfl⟩
      · exact ⟨e,live',rfl⟩
    · intro other e live'
      by_cases here : other = fd
      · rw [here,live] at live'
        cases live'
        exact ⟨{ entry with offset := offset },by rw [entries,if_pos here],rfl⟩
      · exact ⟨e,by rw [entries,if_neg here,live'],rfl⟩
  | kept fdTable nextFd used _ _ =>
    have entries := entry_kept fdTable
    have numbered : Numbered t.fdTable t.nextFd := by
      rw [fdTable,nextFd]
      exact c.toNumbered
    refine moved_consistent c numbered used ?_ ?_
    · intro fd e live
      exact ⟨e,by rw [← entries,live],rfl⟩
    · intro fd e live
      exact ⟨e,by rw [entries,live],rfl⟩

/-- A request changes no entry but that of its own descriptor, and an opening only the new one. -/
theorem effect_frame (c : Consistent s) (effect : Effect s t inv resp) {fd : Word} (other : fdOf inv ≠ some fd)
    (old : ∀ path flags, inv = .openWithPath path flags → resp ≠ .Ok fd) : t.entry fd = s.entry fd := by
  cases effect with
  | opened grew fdTable nextFd start free used =>
    obtain ⟨_,_,_,entries⟩ := c.entry_opened grew fdTable nextFd
    have apart : fd ≠ s.nextFd := by
      rintro rfl
      exact old _ _ rfl rfl
    rw [entries,if_neg apart]
  | closed live fdTable nextFd used =>
    rw [entry_set live fdTable,if_neg (by rintro rfl; exact other rfl)]
  | moved on live fdTable nextFd used answered still short =>
    rw [entry_set live fdTable,if_neg (by rintro rfl; exact other on)]
  | kept fdTable nextFd used answered short => exact entry_kept fdTable fd

/-- In particular an opening changes no live entry. -/
theorem effect_live (c : Consistent s) (effect : Effect s t inv resp) {fd : Word} {entry : FileEntry}
    (live : s.entry fd = some entry) (other : fdOf inv ≠ some fd) : t.entry fd = some entry := by
  rw [effect_frame c effect other ?_,live]
  rintro path flags rfl rfl
  cases effect with
  | opened =>
    have inside := (c.live live).2
    omega
  | moved _ _ _ _ _ _ still => exact still trivial
  | kept _ _ _ answered => cases answered trivial

/-- A request answered with an error has changed neither descriptors nor slots. -/
theorem effect_of_err (effect : Effect s t inv resp) (failed : resp.isErr = true) :
    t.fdTable = s.fdTable ∧ t.nextFd = s.nextFd ∧ t.fs.used = s.fs.used := by
  cases effect with
  | opened => cases failed
  | closed => cases failed
  | moved _ _ _ _ _ answered _ _ => rw [answered] at failed; cases failed
  | kept fdTable nextFd used _ _ => exact ⟨fdTable,nextFd,used⟩

/-- A response carries no more bytes than asked for, but for the twenty bytes of a status. -/
theorem effect_short (effect : Effect s t inv resp) : resp.payload.length ≤ max 20 inv.count := by
  cases effect with
  | opened => exact Nat.zero_le _
  | closed => exact Nat.zero_le _
  | moved _ _ _ _ _ _ _ short => omega
  | kept _ _ _ _ short => omega

/-! ## Runs -/

/-- The descriptors that the openings of a run return. -/
def openedFds (invs : List Invocation) (resps : List FsResponse) : List Word :=
  (invs.zip resps).filterMap fun
    | (.openWithPath _ _,.Ok fd) => some fd
    | _ => none

/-- The descriptor that one step opens, if it does. -/
theorem effect_next (c : Consistent s) (effect : Effect s t inv resp) :
    (openedFds [inv] [resp] = [s.nextFd] ∧ t.nextFd.toNat = s.nextFd.toNat + 1) ∨
      (openedFds [inv] [resp] = [] ∧ t.nextFd = s.nextFd) := by
  cases effect with
  | opened grew fdTable nextFd start free used =>
    obtain ⟨_,next,_,_⟩ := c.entry_opened grew fdTable nextFd
    exact .inl ⟨rfl,next⟩
  | closed live fdTable nextFd used => exact .inr ⟨rfl,nextFd⟩
  | moved on live fdTable nextFd used answered still short =>
    refine .inr ⟨?_,nextFd⟩
    cases inv <;> simp_all [openedFds,fdOf]
  | kept fdTable nextFd used answered short =>
    refine .inr ⟨?_,nextFd⟩
    cases inv with
    | openWithPath path flags =>
      have failed := answered trivial
      cases resp <;> simp_all [openedFds,FsResponse.isErr]
    | _ => rfl

theorem openedFds_cons (inv : Invocation) (invs : List Invocation) (resp : FsResponse) (resps : List FsResponse) :
    openedFds (inv :: invs) (resp :: resps) = openedFds [inv] [resp] ++ openedFds invs resps := by
  simp only [openedFds,List.zip_cons_cons,List.zip_nil_left,← List.filterMap_append,List.singleton_append]

/-- From a consistent service on, openings return one descriptor after the other. -/
theorem run_openedFds {invs : List Invocation} {resps : List FsResponse} (c : Consistent s)
    (ran : run (FsService.invoke X) s invs = .ok (resps,t)) :
    (openedFds invs resps).map BitVec.toNat = List.range' s.nextFd.toNat (openedFds invs resps).length := by
  induction invs generalizing s resps with
  | nil => cases ran; rfl
  | cons inv rest ih =>
    obtain ⟨resp,u,resps',first,later,rfl⟩ := run_cons_iff.mp ran
    have effect := invoke_effect first
    have tail := ih (effect_consistent c effect) later
    rw [openedFds_cons]
    rcases effect_next c effect with ⟨one,next⟩ | ⟨none,next⟩
    · rw [one,List.singleton_append,List.map_cons,tail,next]
      simp [List.range'_succ]
    · rw [none,List.nil_append,tail,next]

theorem run_consistent {disk : σ} {invs : List Invocation} {resps : List FsResponse}
    (ran : run (FsService.invoke X) (FsService.new disk) invs = .ok (resps,s)) : Consistent s :=
  run_invariant (fun _ _ _ _ c first => effect_consistent c (invoke_effect first)) (new_consistent disk) ran

/-- A descriptor that has just been opened is at offset 0. -/
theorem opened_entry (c : Consistent s) {path : Str} {flags : BitVec 32} {fd : Word}
    (opened : s.handleOpenWithPath X path flags = .ok (.Ok fd,t)) : ∃ e, t.entry fd = some e ∧ e.offset = 0 := by
  have effect := openWithPath_effect opened
  cases effect with
  | @opened _ _ entry _ grew fdTable nextFd start free used =>
    obtain ⟨_,_,_,entries⟩ := c.entry_opened grew fdTable nextFd
    exact ⟨entry,by rw [entries,if_pos rfl],start⟩
  | moved on => cases on
  | kept _ _ _ answered => cases answered trivial

/-- Over any run of requests from the start: descriptors come one after the other from 3 on, live
    descriptors name distinct slots, and these are the slots in use. Whatever request is answered
    next leaves every other descriptor alone, and all of it when the answer is an error. -/
theorem descriptor_invariant {disk : σ} {invs : List Invocation} {resps : List FsResponse} {s : FsService σ φ}
    (ran : run (FsService.invoke X) (FsService.new disk) invs = .ok (resps,s)) :
    (openedFds invs resps).map BitVec.toNat = List.range' 3 (openedFds invs resps).length ∧
    (∀ fd fd' e e', s.entry fd = some e → s.entry fd' = some e' → e.inode = e'.inode → fd = fd') ∧
    (∀ i, s.fs.used i = true ↔ ∃ fd e, s.entry fd = some e ∧ e.inode = i) ∧
    ∀ inv resp t, s.invoke X inv = .ok (resp,t) →
      (∀ fd, fdOf inv ≠ some fd → (∀ path flags, inv = .openWithPath path flags → resp ≠ .Ok fd) → t.entry fd = s.entry fd) ∧
      (resp.isErr = true → t.fdTable = s.fdTable ∧ t.nextFd = s.nextFd ∧ t.fs.used = s.fs.used) := by
  have consistent := run_consistent ran
  refine ⟨run_openedFds (new_consistent disk) ran,consistent.distinct,consistent.occupied,fun inv resp t next => ?_⟩
  have effect := invoke_effect next
  exact ⟨fun fd other old => effect_frame consistent effect other old,effect_of_err effect⟩

/-- Requests that open two new files, give one up and open the other again. -/
def openings : List Invocation :=
  let a := ascii ['/','a']
  let b := ascii ['/','b']
  [.openWithPath a MemFs.O_CREAT,.statWithPath a,.openWithPath b MemFs.O_CREAT,.request (.Close 3),.accessWithPath a,
    .openWithPath b 0]

theorem descriptor_invariant_openings : ∃ resps s, run (FsService.invoke MemFs.memFs) (FsService.new []) openings = .ok (resps,s) ∧
    (openedFds openings resps).map BitVec.toNat = List.range' 3 (openedFds openings resps).length ∧
    ∀ i, s.fs.used i = true ↔ ∃ fd e, s.entry fd = some e ∧ e.inode = i := by
  obtain ⟨resps,s,ran⟩ : ∃ resps s, run (FsService.invoke MemFs.memFs) (FsService.new []) openings = .ok (resps,s) :=
    ⟨_,_,rfl⟩
  have sound := descriptor_invariant ran
  exact ⟨resps,s,ran,sound.1,sound.2.2.1⟩

end Sel4Linux.Descriptors
