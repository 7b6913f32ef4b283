import Sel4Linux.Reading
import Mathlib.Data.Finset.Card

/-!
What the file service is for, seen from its client: a table of open files, each
with its bytes and the offset where it is read next (`Machine`). Over a library
whose files stay as they are (`Library`), every handler of the service does to
its descriptors and objects what the table does to its files (`Holds`).
-/
namespace Sel4Linux.OpenFiles
open Sel4Linux.Bytes Sel4Linux.Utf8 Sel4Linux.Ipc Sel4Linux.Ext4 Sel4Linux.FdTable Sel4Linux.Service Sel4Linux.ServiceLoop
open Sel4Linux.Files
open Sel4Linux.Client Sel4Linux.Requests Sel4Linux.Replies Sel4Linux.Descriptors Sel4Linux.System Sel4Linux.Reading Sel4Linux.Runs
set_option linter.unusedSimpArgs false

/-! ## Open files -/

/-- What a path names. -/
inductive Node where
  | missing
  | dir
  | file (content : List Byte)
  deriving DecidableEq

/-- An open file, and where it is read next. -/
structure Cursor where
  content : List Byte
  offset : Nat
  deriving DecidableEq

/-- The open files by descriptor, and the next descriptor. -/
structure Machine where
  cursor : Nat → Option Cursor
  next : Nat

def Machine.new : Machine := { cursor := fun _ => none, next := 3 }

/-- How many files are open. -/
def Machine.live (m : Machine) : Nat := ((Finset.range m.next).filter fun n => (m.cursor n).isSome).card

/-- One descriptor changed. -/
def Machine.set (m : Machine) (fd : Nat) (c : Option Cursor) : Machine :=
  { m with cursor := fun n => if n = fd then c else m.cursor n }

variable (tree : Str → Node) (m : Machine)

/-- The bytes of the file that a path names. -/
def resolve (path : Str) : Except Errno (List Byte) :=
  if MAX_PATH_IPC < path.len then .error (-36#32)
  else if path.isEmpty then .error (-22#32)
  else
    match tree path with
    | .file c => .ok c
    | _ => .error (-2#32)

def Machine.open (path : Str) : OpResult × Machine :=
  match resolve tree path with
  | .ok c => (.sys (.ok (BitVec.ofNat 64 m.next)),{ m.set m.next (some { content := c, offset := 0 }) with next := m.next + 1 })
  | .error e => (.sys (.error e),m)

def Machine.access (path : Str) : OpResult × Machine :=
  match resolve tree path with
  | .ok _ => (.sys (.ok 0),m)
  | .error e => (.sys (.error e),m)

def Machine.read (fd : Word) (buf : List Byte) : OpResult × Machine :=
  if fd = 0 then (.data (.ok 0) buf,m)
  else
    match m.cursor fd.toNat with
    | some cur =>
      let piece := chunk cur.content cur.offset (min buf.length MAX_DATA_IPC)
      (gives buf piece,m.set fd.toNat (some { cur with offset := cur.offset + piece.length }))
    | none => (.data (.error (-9#32)) buf,m)

/-- What is not a file that is open: the console, or nothing. -/
def Machine.write (fd : Word) (data : List Byte) : OpResult × Machine :=
  if fd = 1 ∨ fd = 2 then (.sys (.ok (BitVec.ofNat 64 data.length)),m) else (.sys (.error (-9#32)),m)

/-- Where a seek leads: counted from the front, from the offset, or, backwards only, from the end. -/
def Cursor.target (cur : Cursor) (offset : Word) (whence : BitVec 32) : Except Errno Nat :=
  if whence = 0 ∧ 0 ≤ offset.toInt then .ok offset.toNat
  else if whence = 1 then .ok (cur.offset + offset.toInt).toNat
  else if whence = 2 ∧ offset.toInt ≤ 0 then .ok (cur.content.length + offset.toInt).toNat
  else .error (-22#32)

def Machine.lseek (fd offset : Word) (whence : BitVec 32) : OpResult × Machine :=
  match m.cursor fd.toNat with
  | some cur =>
    match cur.target offset whence with
    | .ok p => (.sys (.ok (BitVec.ofNat 64 p)),m.set fd.toNat (some { cur with offset := p }))
    | .error e => (.sys (.error e),m)
  | none => (.sys (.error (-9#32)),m)

def Machine.close (fd : Word) : OpResult × Machine :=
  if fd.toNat ≤ 2 then (.sys (.ok 0),m)
  else
    match m.cursor fd.toNat with
    | some _ => (.sys (.ok 0),m.set fd.toNat none)
    | none => (.sys (.error (-9#32)),m)

def Machine.fileSize (fd : Word) : OpResult × Machine :=
  match m.cursor fd.toNat with
  | some cur => (.sys (.ok (BitVec.ofNat 64 cur.content.length)),m)
  | none => (.sys (.error (-9#32)),m)

/-- The operations that leave files as they are; nothing is said of the others. -/
def Machine.perform : Op → Except Unit (OpResult × Machine)
  | .open path _ => .ok (m.open tree path)
  | .access path _ => .ok (m.access tree path)
  | .read fd buf => .ok (m.read fd buf)
  | .write fd data => .ok (m.write fd data)
  | .lseek fd offset whence => .ok (m.lseek fd offset whence)
  | .close fd => .ok (m.close fd)
  | .fileSize fd => .ok (m.fileSize fd)
  | _ => .error ()

/-! ## The library -/

variable {σ φ : Type}

/-- What paths name on a disk, and the bytes that an open object shows. -/
structure View (σ φ : Type) where
  tree : σ → Str → Node
  content : σ → φ → Option (List Byte)

/-- Nothing that is seen has changed. -/
def View.Same (V : View σ φ) (st st' : σ) : Prop := V.tree st' = V.tree st ∧ V.content st' = V.content st

theorem View.Same.trans {V : View σ φ} {a b c : σ} (earlier : V.Same a b) (later : V.Same b c) : V.Same a c :=
  ⟨later.1.trans earlier.1,later.2.trans earlier.2⟩

/-- Flags to read a file with that is there. -/
def Plain (X : Externs σ φ) (flags : BitVec 32) : Prop := flags &&& X.O_CREAT ≠ X.O_CREAT ∧ flags &&& (X.O_TRUNC ||| 3#32) = 0

/-- A library that finds files and directories where they are, opens files to their bytes, tells their sizes, reads at
    the offset sought and closes them, and changes nothing that can be seen by any of it. -/
structure Library (X : Externs σ φ) extends View σ φ where
  creat : X.O_CREAT ≠ 0
  checked : ∀ st f path type, toView.Same st (X.checkInodeExist st f path type).2.1
  dir : ∀ st f path, (X.checkInodeExist st f path .EXT4_DE_DIR).1 = true ↔ tree st path = .dir
  file : ∀ st f path, tree st path ≠ .dir →
    ((X.checkInodeExist st f path .EXT4_DE_REG_FILE).1 = true ↔ ∃ c, tree st path = .file c)
  opened : ∀ st path flags c, tree st path = .file c → Plain X flags →
    ∃ w st' f, X.fileOpen st (X.new path .EXT4_DE_REG_FILE) path flags = (.ok w,st',f) ∧ content st' f = some c ∧ toView.Same st st'
  size : ∀ st f c, content st f = some c →
    ∃ st' f', X.fileSize st f = (BitVec.ofNat 64 c.length,st',f') ∧ content st' f' = some c ∧ toView.Same st st'
  read : ∀ st f c offset buf, content st f = some c → offset.toNat ≤ c.length →
    ∃ w st₁ f₁ st₂ f₂, X.fileSeek st f offset 0#32 = (.ok w,st₁,f₁) ∧
      X.fileRead st₁ f₁ buf = (.ok (BitVec.ofNat 64 (chunk c offset.toNat buf.length).length),
        chunk c offset.toNat buf.length ++ buf.drop (chunk c offset.toNat buf.length).length,st₂,f₂) ∧
      content st₂ f₂ = some c ∧ toView.Same st st₂
  closed : ∀ st f c, content st f = some c → ∃ w st' f', X.fileClose st f = (.ok w,st',f') ∧ toView.Same st st'

/-- The operation is one that the table describes: an opening names no directory, asks to read only and finds room; a
    read starts inside its file, a write is not one to a file, and a seek leads to an offset there can be. -/
def Allowed (X : Externs σ φ) (m : Machine) : Op → Prop
  | .open path flags =>
    tree path ≠ .dir ∧ Plain X flags ∧ m.live < STORE_CAP ∧ (m.next + 1) * FILE_ENTRY_SIZE ≤ Service.HEAP_SIZE
  | .access path _ => tree path ≠ .dir ∧ m.live < STORE_CAP
  | .read fd _ => ∀ cur, m.cursor fd.toNat = some cur → cur.offset ≤ cur.content.length
  | .write fd _ => m.cursor fd.toNat = none
  | .lseek fd offset whence => ∀ cur, m.cursor fd.toNat = some cur →
    (whence = 1 → 0 ≤ cur.offset + offset.toInt ∧ cur.offset + offset.toInt < 2 ^ 63) ∧
      (whence = 2 → offset.toInt ≤ 0 → 0 ≤ cur.content.length + offset.toInt)
  | .close _ | .fileSize _ => True
  | _ => False

/-! ## The object store -/

variable {X : Externs σ φ} (L : Library X)

/-- The bytes behind a slot of the object pool. -/
def Library.at (fs : EXT4FSImpl σ φ) (inode : Nat) : Option (List Byte) := (fs.stores inode).bind (L.content fs.disk)

variable {L} {fs : EXT4FSImpl σ φ}

theorem at_put_self {disk : σ} {i : Nat} {f : φ} {c : List Byte} (shown : L.content disk f = some c) :
    L.at (fs.put disk i (some f)) i = some c := by simp [Library.at,shown]

theorem at_put_other {disk : σ} {i j : Nat} {object : Option φ} (same : L.Same fs.disk disk) (apart : j ≠ i) :
    L.at (fs.put disk i object) j = L.at fs j := by
  simp [Library.at,EXT4FSImpl.put,apart,same.2]

theorem add_stored {disk : σ} {f : φ} {c : List Byte} (same : L.Same fs.disk disk) (shown : L.content disk f = some c)
    (room : (X.pick fs.used).isSome = true) :
    ∃ i disk' f', fs.add X disk f = (.ok (i,BitVec.ofNat 64 c.length),fs.put disk' i (some f')) ∧ fs.used i = false ∧
      L.content disk' f' = some c ∧ L.Same fs.disk disk' := by
  obtain ⟨i,picked⟩ := Option.isSome_iff_exists.mp room
  obtain ⟨disk',f',sized,shown',same'⟩ := L.size disk f c shown
  refine ⟨i,disk',f',?_,(X.pick_free _ _ picked).2,shown',same.trans same'⟩
  simp only [EXT4FSImpl.add,sized,picked]

/-- A file that is there is opened in a free slot. -/
theorem open_file {path : Str} {flags : BitVec 32} {c : List Byte} (named : L.tree fs.disk path = .file c) (plain : Plain X flags)
    (room : (X.pick fs.used).isSome = true) :
    ∃ i disk f, fs.open X path flags = (.ok (i,BitVec.ofNat 64 c.length),fs.put disk i (some f)) ∧ fs.used i = false ∧
      L.content disk f = some c ∧ L.Same fs.disk disk := by
  have noDir : ∀ st f, L.tree st path = .file c → (X.checkInodeExist st f path .EXT4_DE_DIR).1 = false := by
    intro st f there
    rw [Bool.eq_false_iff]
    intro found
    rw [(L.dir st f path).mp found] at there
    cases there
  have checked := L.checked fs.disk (X.new rootPath .EXT4_DE_DIR) path .EXT4_DE_DIR
  have absent := noDir fs.disk (X.new rootPath .EXT4_DE_DIR) named
  unfold EXT4FSImpl.open
  simp only [if_neg plain.1]
  generalize X.checkInodeExist fs.disk (X.new rootPath .EXT4_DE_DIR) path .EXT4_DE_DIR = looked at checked absent ⊢
  obtain ⟨found,disk,root⟩ := looked
  cases absent
  have named₁ : L.tree disk path = .file c := by rw [checked.1,named]
  have present := (L.file disk root path (by rw [named₁]; simp)).mpr ⟨c,named₁⟩
  have checked' := L.checked disk root path .EXT4_DE_REG_FILE
  simp only
  generalize X.checkInodeExist disk root path .EXT4_DE_REG_FILE = looked at checked' present ⊢
  obtain ⟨found,disk₂,root₂⟩ := looked
  cases present
  have named₂ : L.tree disk₂ path = .file c := by rw [checked'.1,named₁]
  obtain ⟨w,disk₃,f,opened,shown,same⟩ := L.opened disk₂ path flags c named₂ plain
  simp only [opened]
  exact add_stored ((checked.trans checked').trans same) shown room

theorem open_missing {path : Str} {flags : BitVec 32} (named : L.tree fs.disk path = .missing) (plain : Plain X flags) :
    ∃ disk, fs.open X path flags = (.error (-2#32),{ fs with disk := disk }) ∧ L.Same fs.disk disk := by
  have checked := L.checked fs.disk (X.new rootPath .EXT4_DE_DIR) path .EXT4_DE_DIR
  have absent : (X.checkInodeExist fs.disk (X.new rootPath .EXT4_DE_DIR) path .EXT4_DE_DIR).1 = false := by
    rw [Bool.eq_false_iff]
    intro found
    rw [(L.dir _ _ path).mp found] at named
    cases named
  unfold EXT4FSImpl.open
  simp only [if_neg plain.1]
  generalize X.checkInodeExist fs.disk (X.new rootPath .EXT4_DE_DIR) path .EXT4_DE_DIR = looked at checked absent ⊢
  obtain ⟨found,disk,root⟩ := looked
  cases absent
  have named₁ : L.tree disk path = .missing := by rw [checked.1,named]
  have absent' : (X.checkInodeExist disk root path .EXT4_DE_REG_FILE).1 = false := by
    rw [Bool.eq_false_iff]
    intro found
    obtain ⟨c,there⟩ := (L.file disk root path (by rw [named₁]; simp)).mp found
    rw [named₁] at there
    cases there
  have checked' := L.checked disk root path .EXT4_DE_REG_FILE
  simp only
  generalize X.checkInodeExist disk root path .EXT4_DE_REG_FILE = looked at checked' absent' ⊢
  obtain ⟨found,disk₂,root₂⟩ := looked
  cases absent'
  exact ⟨disk₂,rfl,checked.trans checked'⟩

theorem readAt_file {inode : Nat} {c : List Byte} {offset : Word} (shown : L.at fs inode = some c)
    (inside : offset.toNat ≤ c.length)
    (buf : List Byte) : ∃ disk f, fs.readAt X inode offset buf = .ok (BitVec.ofNat 64 (chunk c offset.toNat buf.length).length,
        chunk c offset.toNat buf.length ++ buf.drop (chunk c offset.toNat buf.length).length,fs.put disk inode (some f)) ∧
      L.content disk f = some c ∧ L.Same fs.disk disk := by
  obtain ⟨f,stored,content⟩ := Option.bind_eq_some_iff.mp shown
  obtain ⟨w,st₁,f₁,st₂,f₂,sought,done,after,same⟩ := L.read fs.disk f c offset buf content inside
  refine ⟨st₂,f₂,?_,after,same⟩
  simp [EXT4FSImpl.readAt,stored,sought,done,unwrap,bind,Except.bind]

theorem close_file {inode : Nat} {c : List Byte} (shown : L.at fs inode = some c) :
    ∃ disk, fs.close X inode = .ok (fs.put disk inode none) ∧ L.Same fs.disk disk := by
  obtain ⟨f,stored,content⟩ := Option.bind_eq_some_iff.mp shown
  obtain ⟨w,st',f',closed,same⟩ := L.closed fs.disk f c content
  refine ⟨st',?_,same⟩
  simp [EXT4FSImpl.close,stored,closed,unwrap,bind,Except.bind]

/-! ## The service -/

/-- An entry of the service's table is on the file of a cursor, at its offset. -/
structure On (L : Library X) (fs : EXT4FSImpl σ φ) (e : FileEntry) (cur : Cursor) : Prop where
  offset : e.offset.toNat = cur.offset
  size : e.size.toNat = cur.content.length
  shown : L.at fs e.inode = some cur.content

/-- The service has the files of the table open. -/
structure Holds (L : Library X) (tree : Str → Node) (m : Machine) (s : FsService σ φ) : Prop where
  consistent : Consistent s
  next : s.nextFd.toNat = m.next
  named : L.tree s.fs.disk = tree
  cursors : ∀ fd : Word, Option.Rel (On L s.fs) (s.entry fd) (m.cursor fd.toNat)

theorem rel_mono {α β : Type} {R S : α → β → Prop} {a : Option α} {b : Option β} (related : Option.Rel R a b)
    (mono : ∀ x y, a = some x → R x y → S x y) : Option.Rel S a b := by
  cases related with
  | none => exact .none
  | some here => exact .some (mono _ _ rfl here)

variable {tree m} {s t : FsService σ φ}

theorem Holds.live (holds : Holds L tree m s) {fd : Word} {cur : Cursor} (live : m.cursor fd.toNat = some cur) :
    3 ≤ fd.toNat ∧ ∃ e, s.entry fd = some e ∧ On L s.fs e cur := by
  have related := holds.cursors fd
  rw [live] at related
  cases served : s.entry fd with
  | none =>
    rw [served] at related
    cases related
  | some e =>
    rw [served] at related
    cases related with
    | some on => exact ⟨(holds.consistent.live served).1,e,rfl,on⟩

theorem Holds.dead (holds : Holds L tree m s) {fd : Word} (dead : m.cursor fd.toNat = none) : s.entry fd = none := by
  have related := holds.cursors fd
  rw [dead] at related
  cases served : s.entry fd with
  | none => rfl
  | some e =>
    rw [served] at related
    cases related

/-- Fewer files than slots are open: there is room for another one. -/
theorem Holds.room (holds : Holds L tree m s) (few : m.live < STORE_CAP) : (X.pick s.fs.used).isSome = true := by
  rw [Option.isSome_iff_ne_none]
  intro full
  refine absurd few (Nat.not_lt.mpr ?_)
  -- Every slot is in use, so each has a descriptor of its own.
  have every : ∀ i : Nat, i < STORE_CAP → ∃ n : Nat, (n < m.next ∧ (m.cursor n).isSome = true) ∧
      ((s.entry (BitVec.ofNat 64 n)).map FileEntry.inode).getD 0 = i := by
    intro i below
    obtain ⟨fd,e,served,slot⟩ := (holds.consistent.occupied i).mp (X.pick_full _ full i below)
    have related := holds.cursors fd
    rw [served] at related
    refine ⟨fd.toNat,⟨holds.next ▸ (holds.consistent.live served).2,?_⟩,?_⟩
    · cases open' : m.cursor fd.toNat with
      | some cur => rfl
      | none =>
        rw [open'] at related
        cases related
    · rw [BitVec.ofNat_toNat,BitVec.setWidth_eq,served]
      exact slot
  have onto : Set.SurjOn (fun n => ((s.entry (BitVec.ofNat 64 n)).map FileEntry.inode).getD 0)
      ((Finset.range m.next).filter fun n => (m.cursor n).isSome : Finset Nat) (Finset.range STORE_CAP) := by
    intro i below
    obtain ⟨n,live,slot⟩ := every i (Finset.mem_range.mp below)
    exact ⟨n,by simpa using live,slot⟩
  have enough := Finset.card_le_card_of_surjOn _ onto
  rwa [Finset.card_range] at enough

/-- One entry changed with its cursor, and all others on what they were on. -/
theorem Holds.changed (holds : Holds L tree m s) {fd : Word} {new : Option FileEntry} {cur : Option Cursor}
    (entries : ∀ other, t.entry other = if other = fd then new else s.entry other) (here : Option.Rel (On L t.fs) new cur)
    (others : ∀ other e, other ≠ fd → s.entry other = some e → L.at t.fs e.inode = L.at s.fs e.inode) (other : Word) :
    Option.Rel (On L t.fs) (t.entry other) ((m.set fd.toNat cur).cursor other.toNat) := by
  rw [entries]
  by_cases same : other = fd
  · rw [if_pos same,same]
    simpa [Machine.set] using here
  · have apart : other.toNat ≠ fd.toNat := fun equal => same (BitVec.eq_of_toNat_eq equal)
    rw [if_neg same]
    simp only [Machine.set,if_neg apart]
    refine rel_mono (holds.cursors other) fun e cur served on => ?_
    exact ⟨on.offset,on.size,(others other e same served).trans on.shown⟩

/-- Only the disk has changed, and nothing that is seen. -/
theorem Holds.looked (holds : Holds L tree m s) {disk : σ} (same : L.Same s.fs.disk disk) (consistent : Consistent t)
    (fs : t.fs = { s.fs with disk := disk }) (fdTable : t.fdTable = s.fdTable) (nextFd : t.nextFd = s.nextFd) :
    Holds L tree m t := by
  refine ⟨consistent,nextFd ▸ holds.next,by rw [fs]; exact same.1.trans holds.named,fun fd => ?_⟩
  rw [entry_kept fdTable]
  refine rel_mono (holds.cursors fd) fun e cur _ on => ?_
  exact ⟨on.offset,on.size,by rw [fs,Library.at,same.2]; exact on.shown⟩

/-- An object in a slot that was free is not the object of an entry. -/
theorem Holds.free (holds : Holds L tree m s) {i : Nat} (free : s.fs.used i = false) {fd : Word} {e : FileEntry}
    (served : s.entry fd = some e) : e.inode ≠ i := by
  rintro rfl
  have taken := (holds.consistent.occupied e.inode).mpr ⟨fd,e,served,rfl⟩
  rw [free] at taken
  cases taken

theorem open_served (holds : Holds L tree m s) {path : Str} {flags : BitVec 32} {c : List Byte} (named : tree path = .file c)
    (small : c.length < 2 ^ 63) (some' : path.isEmpty = false) (fits : path.len ≤ MAX_PATH_IPC) (plain : Plain X flags)
    (few : m.live < STORE_CAP) (room : (m.next + 1) * FILE_ENTRY_SIZE ≤ Service.HEAP_SIZE) :
    ∃ t, s.handleOpenWithPath X path flags = .ok (.Ok s.nextFd,t) ∧
      Holds L tree { m.set m.next (some { content := c, offset := 0 }) with next := m.next + 1 } t := by
  obtain ⟨i,disk,f,opened,free,shown,same⟩ := open_file (holds.named ▸ named) plain (holds.room few)
  have length := holds.next
  have short : path.len ≤ 944 := Nat.le_trans fits (by decide)
  have grew := holds.consistent.toNumbered.grow Service.HEAP_SIZE FILE_ENTRY_SIZE
  rw [allocate,length,if_pos room,ok_bind,← length] at grew
  obtain ⟨t,ran,fs,fdTable,nextFd⟩ : ∃ t, s.handleOpenWithPath X path flags = .ok (.Ok s.nextFd,t) ∧
      t.fs = s.fs.put disk i (some f) ∧ t.fdTable = (s.fdTable ++ [none]).set s.nextFd.toNat
        (some { path := path, inode := i, size := BitVec.ofNat 64 c.length, offset := 0, flags := flags }) ∧
      t.nextFd = s.nextFd + 1 := by
    simp only [FsService.handleOpenWithPath,some',opened,grew,ok_bind,allocate,
      if_pos (show path.len ≤ Service.HEAP_SIZE from heap_room short),if_false,
      Bool.false_eq_true]
    exact ⟨_,rfl,rfl,rfl,rfl⟩
  obtain ⟨_,next,_,entries⟩ := holds.consistent.entry_opened grew fdTable nextFd
  refine ⟨t,ran,effect_consistent holds.consistent (openWithPath_effect ran),next.trans (by rw [length]),?_,fun fd => ?_⟩
  · rw [fs]
    exact same.1.trans holds.named
  · rw [← length]
    refine holds.changed entries (.some ⟨rfl,?_,?_⟩) (fun other e _ served => ?_) fd
    · rw [BitVec.toNat_ofNat,Nat.mod_eq_of_lt (by omega)]
    · rw [fs]
      exact at_put_self shown
    · rw [fs]
      exact at_put_other same (holds.free free served)

theorem open_absent (holds : Holds L tree m s) {path : Str} {flags : BitVec 32} (named : tree path = .missing)
    (some' : path.isEmpty = false) (plain : Plain X flags) :
    ∃ t, s.handleOpenWithPath X path flags = .ok (.Err (-2#32),t) ∧ Holds L tree m t := by
  obtain ⟨disk,opened,same⟩ := open_missing (holds.named ▸ named) plain
  have ran : s.handleOpenWithPath X path flags = .ok (.Err (-2#32),{ s with fs := { s.fs with disk := disk } }) := by
    simp only [FsService.handleOpenWithPath,some',opened,if_false,Bool.false_eq_true]
  exact ⟨_,ran,holds.looked same (effect_consistent holds.consistent (openWithPath_effect ran)) rfl rfl rfl⟩

theorem plain_zero (L : Library X) : Plain X 0#32 := by
  refine ⟨?_,by simp⟩
  rw [BitVec.zero_and]
  exact fun none => L.creat none.symm

/-- A file that is there is opened and closed again. -/
theorem access_served (holds : Holds L tree m s) {path : Str} {c : List Byte} (named : tree path = .file c)
    (some' : path.isEmpty = false) (few : m.live < STORE_CAP) :
    ∃ t, s.handleAccessWithPath X path = .ok (.Ok 0,t) ∧ Holds L tree m t := by
  obtain ⟨i,disk,f,opened,free,shown,same⟩ := open_file (holds.named ▸ named) (plain_zero L) (holds.room few)
  have there : L.at (s.fs.put disk i (some f)) i = some c := at_put_self shown
  obtain ⟨disk',closed,same'⟩ := close_file there
  have freed : (s.fs.put disk i (some f)).put disk' i none = { s.fs with disk := disk' } := by
    have unused : s.fs.stores i = none := by simpa [EXT4FSImpl.used] using free
    simp only [EXT4FSImpl.put,EXT4FSImpl.mk.injEq,true_and]
    funext j
    by_cases here : j = i
    · rw [if_pos here,here,unused]
    · rw [if_neg here,if_neg here]
  have ran : s.handleAccessWithPath X path = .ok (.Ok 0,{ s with fs := { s.fs with disk := disk' } }) := by
    simp only [FsService.handleAccessWithPath,some',opened,closed,freed,ok_bind,if_false,Bool.false_eq_true]
  exact ⟨_,ran,holds.looked (same.trans same') (effect_consistent holds.consistent (accessWithPath_effect ran)) rfl rfl rfl⟩

theorem access_absent (holds : Holds L tree m s) {path : Str} (named : tree path = .missing) (some' : path.isEmpty = false) :
    ∃ t, s.handleAccessWithPath X path = .ok (.Err (-2#32),t) ∧ Holds L tree m t := by
  obtain ⟨disk,opened,same⟩ := open_missing (holds.named ▸ named) (plain_zero L)
  have ran : s.handleAccessWithPath X path = .ok (.Err (-2#32),{ s with fs := { s.fs with disk := disk } }) := by
    simp only [FsService.handleAccessWithPath,some',opened,if_false,Bool.false_eq_true]
  exact ⟨_,ran,holds.looked same (effect_consistent holds.consistent (accessWithPath_effect ran)) rfl rfl rfl⟩

/-- The entry of one descriptor changed, on its own file. -/
theorem Holds.moved (holds : Holds L tree m s) {fd : Word} {e new : FileEntry} {cur : Cursor} (served : s.entry fd = some e)
    (consistent : Consistent t) (nextFd : t.nextFd = s.nextFd) (named : L.tree t.fs.disk = L.tree s.fs.disk)
    (fdTable : t.fdTable = s.fdTable.set fd.toNat (some new)) (here : On L t.fs new cur)
    (others : ∀ other e', other ≠ fd → s.entry other = some e' → L.at t.fs e'.inode = L.at s.fs e'.inode) :
    Holds L tree (m.set fd.toNat (some cur)) t :=
  ⟨consistent,nextFd ▸ holds.next,named.trans holds.named,holds.changed (entry_set served fdTable) (.some here) others⟩

theorem read_served (holds : Holds L tree m s) {fd : Word} {cur : Cursor} (live : m.cursor fd.toNat = some cur)
    (small : cur.content.length < 2 ^ 63) (inside : cur.offset ≤ cur.content.length) {count : Nat} (most : count ≤ 944) :
    ∃ t, s.handleRead X fd (BitVec.ofNat 64 count) = .ok (.OkWithData (chunk cur.content cur.offset count),t) ∧
      Holds L tree (m.set fd.toNat (some { cur with offset := cur.offset + (chunk cur.content cur.offset count).length })) t := by
  obtain ⟨file,e,served,on⟩ := holds.live live
  have notStd := not_std file
  have counted : (BitVec.ofNat 64 count).toNat = count := by simp; omega
  obtain ⟨disk,f,done,shown,same⟩ := readAt_file on.shown (on.offset ▸ inside) (List.replicate count 0)
  have few := chunk_length cur.content cur.offset count
  rw [List.length_replicate,on.offset] at done
  have taken : ∀ rest, (chunk cur.content cur.offset count ++ rest).take
      (BitVec.ofNat 64 (chunk cur.content cur.offset count).length).toNat = chunk cur.content cur.offset count := by
    intro rest
    rw [show (BitVec.ofNat 64 (chunk cur.content cur.offset count).length).toNat = (chunk cur.content cur.offset count).length by
      simp; omega]
    exact List.take_left' rfl
  have ran : s.handleRead X fd (BitVec.ofNat 64 count) = .ok (.OkWithData (chunk cur.content cur.offset count),
      { s with fs := s.fs.put disk e.inode (some f) }.setEntry fd
        (some { e with offset := e.offset + BitVec.ofNat 64 (chunk cur.content cur.offset count).length })) := by
    simp only [FsService.handleRead,if_neg notStd.1,if_neg notStd.2,served,counted,allocate,
      if_pos (show count ≤ Service.HEAP_SIZE from heap_room most),ok_bind,
      done,taken]
  have effect : Effect s _ (.request (.Read fd 0 count)) _ := read_effect ran
  have consistent := effect_consistent holds.consistent effect
  refine ⟨_,ran,holds.moved served consistent rfl same.1 rfl ⟨?_,on.size,at_put_self shown⟩ fun other e' apart served' => ?_⟩
  · show (e.offset + BitVec.ofNat 64 _).toNat = cur.offset + _
    rw [BitVec.toNat_add,BitVec.toNat_ofNat,on.offset]
    omega
  · refine at_put_other same fun shared => apart ?_
    exact holds.consistent.distinct other fd e' e served' served shared

theorem close_served (holds : Holds L tree m s) {fd : Word} {cur : Cursor} (live : m.cursor fd.toNat = some cur) :
    ∃ t, s.handleClose X fd = .ok (.Ok 0,t) ∧ Holds L tree (m.set fd.toNat none) t := by
  obtain ⟨file,e,served,on⟩ := holds.live live
  obtain ⟨disk,closed,same⟩ := close_file on.shown
  have ran : s.handleClose X fd = .ok (.Ok 0,{ s with fs := s.fs.put disk e.inode none }.setEntry fd none) := by
    simp only [FsService.handleClose,if_neg (show ¬ fd.toNat ≤ 2 by omega),served,closed,ok_bind]
  refine ⟨_,ran,effect_consistent holds.consistent (close_effect ran),holds.next,same.1.trans holds.named,?_⟩
  refine holds.changed (entry_set served rfl) .none fun other e' apart served' => at_put_other same fun shared => apart ?_
  exact holds.consistent.distinct other fd e' e served' served shared

/-- The service's seek goes where the table's does, when that is an offset. -/
theorem seek_target {e : FileEntry} {cur : Cursor} (on : On L s.fs e cur) {offset : Word} {whence : BitVec 32}
    (small : cur.content.length < 2 ^ 63)
    (lands : (whence = 1 → 0 ≤ cur.offset + offset.toInt ∧ cur.offset + offset.toInt < 2 ^ 63) ∧
      (whence = 2 → offset.toInt ≤ 0 → 0 ≤ cur.content.length + offset.toInt)) :
    (seekTarget e offset whence).map BitVec.toNat = cur.target offset whence := by
  have sum (a : Word) (low : 0 ≤ a.toNat + offset.toInt) (high : a.toNat + offset.toInt < 2 ^ 63) :
      (a + offset).toNat = (a.toNat + offset.toInt).toNat := by
    have bound := offset.isLt
    rw [BitVec.toNat_add]
    rw [BitVec.toInt_eq_toNat_cond] at low high ⊢
    split at low
    · omega
    · omega
  unfold seekTarget Cursor.target
  by_cases front : whence = 0
  · simp only [front,if_true,true_and]
    by_cases back : offset.toInt < 0
    · rw [if_pos back,if_neg (by omega),if_neg (by decide),if_neg (by simp)]
      rfl
    · rw [if_neg back,if_pos (by omega)]
      rfl
  · simp only [front,false_and,if_false]
    by_cases here : whence = 1
    · simp only [if_pos here]
      obtain ⟨low,high⟩ := lands.1 here
      rw [← on.offset] at low high ⊢
      exact congrArg Except.ok (sum e.offset low high)
    · simp only [if_neg here]
      by_cases last : whence = 2
      · simp only [last,if_true,true_and]
        by_cases past : 0 < offset.toInt
        · rw [if_pos past,if_neg (by omega)]
          rfl
        · rw [if_neg past,if_pos (by omega)]
          have low := lands.2 last (by omega)
          rw [← on.size] at low small ⊢
          exact congrArg Except.ok (sum e.size low (by omega))
      · simp only [last,false_and,if_false]
        rfl

theorem lseek_served (holds : Holds L tree m s) {fd : Word} {cur : Cursor} (live : m.cursor fd.toNat = some cur)
    (small : cur.content.length < 2 ^ 63) {offset : Word} {whence : BitVec 32}
    (lands : (whence = 1 → 0 ≤ cur.offset + offset.toInt ∧ cur.offset + offset.toInt < 2 ^ 63) ∧
      (whence = 2 → offset.toInt ≤ 0 → 0 ≤ cur.content.length + offset.toInt)) :
    ∃ resp t, s.handleLseek fd offset whence = .ok (resp,t) ∧ match cur.target offset whence with
      | .ok p => resp = .Ok (BitVec.ofNat 64 p) ∧ Holds L tree (m.set fd.toNat (some { cur with offset := p })) t
      | .error e => resp = .Err e ∧ t = s := by
  obtain ⟨file,e,served,on⟩ := holds.live live
  rw [← seek_target on small lands]
  cases led : seekTarget e offset whence with
  | ok p =>
    have ran : s.handleLseek fd offset whence = .ok (.Ok p,s.setEntry fd (some { e with offset := p })) := by
      simp only [FsService.handleLseek,if_neg (show ¬ fd.toNat ≤ 2 by omega),served,led]
    refine ⟨_,_,ran,by rw [BitVec.ofNat_toNat,BitVec.setWidth_eq],?_⟩
    exact holds.moved served (effect_consistent holds.consistent (lseek_effect ran)) rfl rfl rfl ⟨rfl,on.size,on.shown⟩
      fun _ _ _ _ => rfl
  | error errno =>
    refine ⟨.Err errno,s,?_,rfl,rfl⟩
    simp only [FsService.handleLseek,if_neg (show ¬ fd.toNat ≤ 2 by omega),served,led]

end Sel4Linux.OpenFiles
