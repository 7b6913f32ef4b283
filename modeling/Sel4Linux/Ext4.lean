import Sel4Linux.Ipc
import Sel4Linux.Runs
import Sel4Linux.Utf8

/-!
The ext4 task (`lwext4-task/src/lib.rs`): the open objects and the operations
on them. The ext4 library itself and the object pool are other crates, so they
are parameters (`Externs`); what the interface of each guarantees about its
results is a field beside it.
-/
namespace Sel4Linux.Ext4
open Sel4Linux.Bytes Sel4Linux.Utf8 Sel4Linux.Ipc
open Sel4Linux.Runs (bind_ok_iff)
set_option linter.unusedSimpArgs false

/-- `i32` error numbers. -/
abbrev Errno := BitVec 32

/-- The directory entry types that the task names. -/
inductive InodeTypes where
  | EXT4_DE_DIR
  | EXT4_DE_REG_FILE
  | other
  deriving DecidableEq, Repr

/-- Slots of the object pool. -/
def STORE_CAP : Nat := 500

def O_DIRECTORY : BitVec 32 := 0o40000#32

/-- `lwext4_rust` over disk states `σ` and file objects `φ`, and `FlattenObjects`.
    Every operation may change both the disk and the object it is called on. -/
structure Externs (σ φ : Type) where
  O_CREAT : BitVec 32
  O_TRUNC : BitVec 32
  /-- `Ext4File::new`. -/
  new : Str → InodeTypes → φ
  checkInodeExist : σ → φ → Str → InodeTypes → Bool × σ × φ
  fileOpen : σ → φ → Str → BitVec 32 → Except Errno Word × σ × φ
  fileClose : σ → φ → Except Errno Word × σ × φ
  fileSize : σ → φ → Word × σ × φ
  fileModeGet : σ → φ → Except Errno (BitVec 32) × σ × φ
  fileSeek : σ → φ → Word → BitVec 32 → Except Errno Word × σ × φ
  /-- Fills the caller's buffer, which comes back beside the result. -/
  fileRead : σ → φ → List Byte → Except Errno Word × List Byte × σ × φ
  fileWrite : σ → φ → List Byte → Except Errno Word × σ × φ
  dirMk : σ → φ → Str → Except Errno Word × σ × φ
  fileRemove : σ → φ → Str → Except Errno Word × σ × φ
  lwext4DirEntries : σ → φ → Except Errno (List (List Byte) × List InodeTypes) × σ × φ
  /-- A slice keeps its length. -/
  fileRead_length : ∀ st f buf, (fileRead st f buf).2.1.length = buf.length
  /-- A vector has at most `isize::MAX` elements. -/
  dirEntries_length : ∀ st f names types, (lwext4DirEntries st f).1 = .ok (names,types) → names.length < 2 ^ 63
  /-- The slot that `FlattenObjects::add` takes among those not in use. -/
  pick : (Nat → Bool) → Option Nat
  pick_free : ∀ used i, pick used = some i → i < STORE_CAP ∧ used i = false
  pick_full : ∀ used, pick used = none → ∀ i < STORE_CAP, used i = true

structure Stat where
  ino : Word
  size : Word
  mode : BitVec 32
  nlink : BitVec 32
  blksize : BitVec 32
  deriving DecidableEq

/-- `EXT4FSImpl`: the disk behind `_fs`, and the open objects by slot. -/
structure EXT4FSImpl (σ φ : Type) where
  disk : σ
  stores : Nat → Option φ

variable {σ φ : Type} (X : Externs σ φ) (fs : EXT4FSImpl σ φ)

/-- The slots in use. -/
def EXT4FSImpl.used (i : Nat) : Bool := (fs.stores i).isSome

/-- The object in one slot replaced. -/
def EXT4FSImpl.put (disk : σ) (i : Nat) (object : Option φ) : EXT4FSImpl σ φ :=
  { disk := disk, stores := fun j => if j = i then object else fs.stores j }

/-- `EXT4FSImpl::new`, on a disk. -/
def EXT4FSImpl.new (disk : σ) : EXT4FSImpl σ φ := { disk := disk, stores := fun _ => none }

def rootPath : Str := ⟨[0x2F#8],by decide⟩

/-- The end of `open`: the size of the opened object, and its slot. -/
def EXT4FSImpl.add (disk : σ) (file : φ) : Except Errno (Nat × Word) × EXT4FSImpl σ φ :=
  let (size,disk,file) := X.fileSize disk file
  match X.pick fs.used with
  | some index => (.ok (index,size),fs.put disk index (some file))
  | none => (.error (-1#32),{ fs with disk := disk })

def EXT4FSImpl.open (path : Str) (flags : BitVec 32) : Except Errno (Nat × Word) × EXT4FSImpl σ φ :=
  let root := X.new rootPath .EXT4_DE_DIR
  if flags &&& X.O_CREAT = X.O_CREAT then
    if flags &&& O_DIRECTORY ≠ O_DIRECTORY then
      match X.fileOpen fs.disk (X.new path .EXT4_DE_REG_FILE) path (flags ||| X.O_TRUNC) with
      | (.error e,disk,_) => (.error e,{ fs with disk := disk })
      | (.ok _,disk,file) => fs.add X disk file
    else (.error (-1#32),fs)
  else
    match X.checkInodeExist fs.disk root path .EXT4_DE_DIR with
    | (true,disk,_) => fs.add X disk (X.new path .EXT4_DE_DIR)
    | (false,disk,root) =>
      match X.checkInodeExist disk root path .EXT4_DE_REG_FILE with
      | (true,disk,_) =>
        match X.fileOpen disk (X.new path .EXT4_DE_REG_FILE) path flags with
        | (.error e,disk,_) => (.error e,{ fs with disk := disk })
        | (.ok _,disk,file) => fs.add X disk file
      | (false,disk,_) => (.error (-2#32),{ fs with disk := disk })

/-- `read_at`, with the buffer as it is filled. -/
def EXT4FSImpl.readAt (inode : Nat) (offset : Word) (buf : List Byte) :
    Except Fault (Word × List Byte × EXT4FSImpl σ φ) :=
  match fs.stores inode with
  | some file => do
    let (sought,disk,file) := X.fileSeek fs.disk file offset 0#32
    let _ ← unwrap sought
    let (done,buf,disk,file) := X.fileRead disk file buf
    let n ← unwrap done
    .ok (n,buf,fs.put disk inode (some file))
  | none => .ok (0,buf,fs)

def EXT4FSImpl.writeAt (inode : Nat) (offset : Word) (data : List Byte) : Except Fault (Word × EXT4FSImpl σ φ) :=
  match fs.stores inode with
  | some file => do
    let (sought,disk,file) := X.fileSeek fs.disk file offset 0#32
    let _ ← unwrap sought
    let (done,disk,file) := X.fileWrite disk file data
    let n ← unwrap done
    .ok (n,fs.put disk inode (some file))
  | none => .ok (0,fs)

/-- `close`: the slot is freed before the file is closed. -/
def EXT4FSImpl.close (inode : Nat) : Except Fault (EXT4FSImpl σ φ) :=
  match fs.stores inode with
  | some file => do
    let (closed,disk,_) := X.fileClose fs.disk file
    let _ ← unwrap closed
    .ok (fs.put disk inode none)
  | none => .ok fs

def EXT4FSImpl.mkdir (path : Str) : Except Fault (EXT4FSImpl σ φ) := do
  let (made,disk,_) := X.dirMk fs.disk (X.new path .EXT4_DE_DIR) path
  let _ ← unwrap made
  .ok { fs with disk := disk }

def EXT4FSImpl.unlink (path : Str) : Except Fault (EXT4FSImpl σ φ) := do
  let (removed,disk,_) := X.fileRemove fs.disk (X.new path .EXT4_DE_DIR) path
  let _ ← unwrap removed
  .ok { fs with disk := disk }

/-- `stat`: a mode that cannot be read is 0. -/
def EXT4FSImpl.stat (inode : Nat) : Stat × EXT4FSImpl σ φ :=
  match fs.stores inode with
  | some file =>
    let (size,disk,file) := X.fileSize fs.disk file
    let (mode,disk,file) := X.fileModeGet disk file
    ({ ino := BitVec.ofNat 64 inode, size := size, mode := mode.toOption.getD 0, nlink := 1, blksize := 0x200 },
      fs.put disk inode (some file))
  | none => ({ ino := 0, size := 0, mode := 0, nlink := 0, blksize := 0 },fs)

/-! ## The slots in use -/

theorem used_put (disk : σ) (i j : Nat) (object : Option φ) :
    (fs.put disk i object).used j = if j = i then object.isSome else fs.used j := by
  simp only [EXT4FSImpl.used,EXT4FSImpl.put]
  split <;> rfl

theorem used_put_some {disk : σ} {i : Nat} {old object : φ} (stored : fs.stores i = some old) :
    (fs.put disk i (some object)).used = fs.used := by
  funext j
  rw [used_put]
  split
  · next here => simp [EXT4FSImpl.used,here,stored]
  · rfl

/-- A failed or a successful opening, on the objects: nothing is stored, or one object in a free slot. -/
def Opening (fs : EXT4FSImpl σ φ) (result : Except Errno (Nat × Word) × EXT4FSImpl σ φ) : Prop :=
  (∃ e disk, result = (.error e,{ fs with disk := disk })) ∨
    ∃ i size disk file, result = (.ok (i,size),fs.put disk i (some file)) ∧ i < STORE_CAP ∧ fs.used i = false

theorem add_opening (disk : σ) (file : φ) : Opening fs (fs.add X disk file) := by
  unfold EXT4FSImpl.add
  cases free : X.pick fs.used with
  | none => exact .inl ⟨-1#32,(X.fileSize disk file).2.1,by simp⟩
  | some i =>
    obtain ⟨below,unused⟩ := X.pick_free fs.used i free
    exact .inr ⟨i,(X.fileSize disk file).1,(X.fileSize disk file).2.1,(X.fileSize disk file).2.2,by simp,below,unused⟩

/-- A successful opening ends with an object stored. -/
theorem open_added {fs fs' : EXT4FSImpl σ φ} {path : Str} {flags : BitVec 32} {r : Nat × Word}
    (opened : fs.open X path flags = (.ok r,fs')) : ∃ disk file, fs.add X disk file = (.ok r,fs') := by
  unfold EXT4FSImpl.open at opened
  simp only at opened
  split at opened
  · split at opened
    · split at opened
      · cases opened
      · exact ⟨_,_,opened⟩
    · cases opened
  · split at opened
    · exact ⟨_,_,opened⟩
    · split at opened
      · split at opened
        · cases opened
        · exact ⟨_,_,opened⟩
      · cases opened

/-- An object is stored as it is after it has told its size. -/
theorem add_reported {fs fs' : EXT4FSImpl σ φ} {disk : σ} {file : φ} {inode : Nat} {w : Word}
    (added : fs.add X disk file = (.ok (inode,w),fs')) : w = (X.fileSize disk file).1 ∧
      fs' = fs.put (X.fileSize disk file).2.1 inode (some (X.fileSize disk file).2.2) := by
  unfold EXT4FSImpl.add at added
  simp only at added
  split at added
  · cases added
    exact ⟨rfl,rfl⟩
  · cases added

theorem open_opening (path : Str) (flags : BitVec 32) : Opening fs (fs.open X path flags) := by
  unfold EXT4FSImpl.open
  simp only
  split
  · split
    · split
      · next e disk _ _ => exact .inl ⟨e,disk,rfl⟩
      · exact add_opening X fs _ _
    · exact .inl ⟨-1#32,fs.disk,rfl⟩
  · split
    · exact add_opening X fs _ _
    · split
      · split
        · next e disk _ _ => exact .inl ⟨e,disk,rfl⟩
        · exact add_opening X fs _ _
      · next disk _ _ => exact .inl ⟨-2#32,disk,rfl⟩

variable {X fs}

theorem readAt_used {inode : Nat} {offset n : Word} {buf out : List Byte} {fs' : EXT4FSImpl σ φ}
    (done : fs.readAt X inode offset buf = .ok (n,out,fs')) : fs'.used = fs.used := by
  unfold EXT4FSImpl.readAt at done
  cases stored : fs.stores inode with
  | none => rw [stored] at done; cases done; rfl
  | some file =>
    simp only [stored,bind_ok_iff,Except.ok.injEq,Prod.mk.injEq] at done
    obtain ⟨_,_,_,_,_,_,rfl⟩ := done
    exact used_put_some fs stored

theorem readAt_length {inode : Nat} {offset n : Word} {buf out : List Byte} {fs' : EXT4FSImpl σ φ}
    (done : fs.readAt X inode offset buf = .ok (n,out,fs')) : out.length = buf.length := by
  unfold EXT4FSImpl.readAt at done
  cases stored : fs.stores inode with
  | none => rw [stored] at done; cases done; rfl
  | some file =>
    simp only [stored,bind_ok_iff,Except.ok.injEq,Prod.mk.injEq] at done
    obtain ⟨_,_,_,_,_,rfl,_⟩ := done
    exact X.fileRead_length _ _ _

theorem writeAt_used {inode : Nat} {offset n : Word} {data : List Byte} {fs' : EXT4FSImpl σ φ}
    (done : fs.writeAt X inode offset data = .ok (n,fs')) : fs'.used = fs.used := by
  unfold EXT4FSImpl.writeAt at done
  cases stored : fs.stores inode with
  | none => rw [stored] at done; cases done; rfl
  | some file =>
    simp only [stored,bind_ok_iff,Except.ok.injEq,Prod.mk.injEq] at done
    obtain ⟨_,_,_,_,_,rfl⟩ := done
    exact used_put_some fs stored

/-- `close` frees its slot and no other. -/
theorem close_used {inode : Nat} {fs' : EXT4FSImpl σ φ} (done : fs.close X inode = .ok fs') (j : Nat) :
    fs'.used j = if j = inode then false else fs.used j := by
  unfold EXT4FSImpl.close at done
  cases stored : fs.stores inode with
  | none =>
    rw [stored] at done; cases done
    split
    · next here => simp [EXT4FSImpl.used,here,stored]
    · rfl
  | some file =>
    simp only [stored,bind_ok_iff,Except.ok.injEq] at done
    obtain ⟨_,_,rfl⟩ := done
    rw [used_put]; rfl

theorem mkdir_used {path : Str} {fs' : EXT4FSImpl σ φ} (done : fs.mkdir X path = .ok fs') : fs'.used = fs.used := by
  simp only [EXT4FSImpl.mkdir,bind_ok_iff,Except.ok.injEq] at done
  obtain ⟨_,_,rfl⟩ := done
  rfl

theorem unlink_used {path : Str} {fs' : EXT4FSImpl σ φ} (done : fs.unlink X path = .ok fs') : fs'.used = fs.used := by
  simp only [EXT4FSImpl.unlink,bind_ok_iff,Except.ok.injEq] at done
  obtain ⟨_,_,rfl⟩ := done
  rfl

theorem stat_used (inode : Nat) : (fs.stat X inode).2.used = fs.used := by
  unfold EXT4FSImpl.stat
  cases stored : fs.stores inode with
  | none => rfl
  | some file => exact used_put_some fs stored

variable (X fs)

/-! ## Directory entries -/

/-- Bytes written into a buffer from `pos` on. -/
def splice (buf : List Byte) (pos : Nat) (bytes : List Byte) : List Byte :=
  buf.take pos ++ bytes ++ buf.drop (pos + bytes.length)

/-- `size_of::<Dirent64>()`: 275 bytes of fields, aligned to 8. -/
def DIRENT64_SIZE : Nat := 280

/-- The record length of a name. -/
def direntAligned (name : List Byte) : Nat := (name.length + DIRENT64_SIZE + 7) / 8 * 8

/-- The fields of `Dirent64` at `pos`, in the order in which they are assigned. -/
def writeDirent (buf : List Byte) (pos : Nat) (name : List Byte) : List Byte :=
  let buf := splice buf (pos + 18) [0]
  let buf := splice buf (pos + 16) ((leBytes (BitVec.ofNat 64 (direntAligned name))).take 2)
  let buf := splice buf pos (leBytes 0)
  let buf := splice buf (pos + 8) (leBytes (BitVec.ofNat 64 (pos + direntAligned name)))
  splice buf (pos + 19) (name.take 255)

/-- The loop of `getdents64`: records while they fit, with the bytes used and the next offset. -/
def direntLoop : List (List Byte × InodeTypes) → List Byte → Nat → Word → List Byte × Nat × Word
  | [], buf, realRlen, offset => (buf,realRlen,offset)
  | (name,_) :: rest, buf, realRlen, offset =>
    if buf.length < realRlen + direntAligned name then (buf,realRlen,offset)
    else direntLoop rest (writeDirent buf realRlen name) (realRlen + direntAligned name) (offset + 1)

/-- `getdents64`: the bytes used and the new offset, with the buffer as it is filled. -/
def EXT4FSImpl.getdents64 (inode : Nat) (offset : Word) (buf : List Byte) :
    Except Fault (Nat × Word × List Byte × EXT4FSImpl σ φ) :=
  match fs.stores inode with
  | some file => do
    let (listed,disk,file) := X.lwext4DirEntries fs.disk file
    let entries ← unwrap listed
    let (buf,realRlen,offset) := direntLoop ((entries.1.zip entries.2).drop offset.toNat) buf 0 offset
    .ok (realRlen,offset,buf,fs.put disk inode (some file))
  | none => .ok (0,offset,buf,fs)

variable {X fs}

theorem getdents64_used {fs' : EXT4FSImpl σ φ} {inode rlen : Nat} {offset newOffset : Word} {buf filled : List Byte}
    (done : fs.getdents64 X inode offset buf = .ok (rlen,newOffset,filled,fs')) : fs'.used = fs.used := by
  unfold EXT4FSImpl.getdents64 at done
  cases stored : fs.stores inode with
  | none => rw [stored] at done; cases done; rfl
  | some file =>
    simp only [stored,bind_ok_iff,Except.ok.injEq,Prod.mk.injEq] at done
    obtain ⟨_,_,_,_,_,rfl⟩ := done
    exact used_put_some fs stored

theorem splice_getElem? {buf bytes : List Byte} {pos : Nat} (fits : pos + bytes.length ≤ buf.length) (k : Nat) :
    (splice buf pos bytes)[k]? = if pos ≤ k ∧ k < pos + bytes.length then bytes[k - pos]? else buf[k]? := by
  have front : (buf.take pos).length = pos := by simp; omega
  unfold splice
  by_cases before : k < pos
  · rw [List.append_assoc,List.getElem?_append_left (by omega),List.getElem?_take,if_pos before,if_neg (by omega)]
  · by_cases inside : k < pos + bytes.length
    · rw [List.append_assoc,List.getElem?_append_right (by omega),List.getElem?_append_left (by omega),front,
        if_pos (by omega)]
    · rw [List.getElem?_append_right (by simp; omega),List.getElem?_drop,if_neg (by omega)]
      congr 1
      simp; omega

theorem splice_length {buf bytes : List Byte} {pos : Nat} (fits : pos + bytes.length ≤ buf.length) :
    (splice buf pos bytes).length = buf.length := by
  simp [splice]; omega

theorem direntAligned_le (name : List Byte) : name.length + 280 ≤ direntAligned name := by
  unfold direntAligned DIRENT64_SIZE; omega

/-- A record stays inside its length, and its first eight bytes are the inode number 0. -/
theorem writeDirent_spec (buf : List Byte) (pos : Nat) (name : List Byte) (fits : pos + direntAligned name ≤ buf.length) :
    (writeDirent buf pos name).length = buf.length ∧ (∀ k < pos, (writeDirent buf pos name)[k]? = buf[k]?) ∧
      ∀ k < 8, (writeDirent buf pos name)[pos + k]? = some 0 := by
  have room := direntAligned_le name
  have reclen : ((leBytes (BitVec.ofNat 64 (direntAligned name))).take 2).length = 2 := by simp
  have cut : (name.take 255).length ≤ name.length := by simp
  set b₁ := splice buf (pos + 18) [0] with is₁
  set b₂ := splice b₁ (pos + 16) ((leBytes (BitVec.ofNat 64 (direntAligned name))).take 2) with is₂
  set b₃ := splice b₂ pos (leBytes 0) with is₃
  set b₄ := splice b₃ (pos + 8) (leBytes (BitVec.ofNat 64 (pos + direntAligned name))) with is₄
  have whole : writeDirent buf pos name = splice b₄ (pos + 19) (name.take 255) := rfl
  have l₁ : b₁.length = buf.length := splice_length (by simp; omega)
  have l₂ : b₂.length = buf.length := (splice_length (by omega)).trans l₁
  have l₃ : b₃.length = buf.length := (splice_length (by simp; omega)).trans l₂
  have l₄ : b₄.length = buf.length := (splice_length (by simp; omega)).trans l₃
  have front : ∀ k < pos + 8, (writeDirent buf pos name)[k]? = b₃[k]? := by
    intro k low
    rw [whole,splice_getElem? (by omega),if_neg (by omega),is₄,splice_getElem? (by simp; omega),if_neg (by omega)]
  refine ⟨by rw [whole,splice_length (by omega),l₄],?_,?_⟩
  · intro k low
    rw [front k (by omega),is₃,splice_getElem? (by simp; omega),if_neg (by omega),is₂,splice_getElem? (by omega),
      if_neg (by omega),is₁,splice_getElem? (by simp; omega),if_neg (by omega)]
  · intro k low
    rw [front _ (by omega),is₃,splice_getElem? (by simp; omega),if_pos (by simp; omega),Nat.add_sub_cancel_left]
    have zeros : ∀ j < 8, (leBytes 0)[j]? = some 0 := by decide
    exact zeros k low

/-- The loop ends between its start and the end of the buffer and leaves what lies before its start. -/
theorem direntLoop_spec (entries : List (List Byte × InodeTypes)) (buf : List Byte) (pos : Nat) (offset : Word)
    (start : pos ≤ buf.length) :
    ∃ n ≤ entries.length, (direntLoop entries buf pos offset).2.2 = offset + BitVec.ofNat 64 n ∧
      pos ≤ (direntLoop entries buf pos offset).2.1 ∧ (direntLoop entries buf pos offset).2.1 ≤ buf.length ∧
      (direntLoop entries buf pos offset).1.length = buf.length ∧
      ∀ k < pos, (direntLoop entries buf pos offset).1[k]? = buf[k]? := by
  induction entries generalizing buf pos offset with
  | nil => exact ⟨0,by simp,by simp [direntLoop],by simp [direntLoop],by simpa [direntLoop],rfl,by simp [direntLoop]⟩
  | cons entry rest ih =>
    obtain ⟨name,type⟩ := entry
    by_cases full : buf.length < pos + direntAligned name
    · simp only [direntLoop,if_pos full]
      exact ⟨0,by simp,by simp,Nat.le_refl _,start,by simp⟩
    · obtain ⟨length,before,_⟩ := writeDirent_spec buf pos name (by omega)
      obtain ⟨n,most,next,least,within,same,kept⟩ :=
        ih (writeDirent buf pos name) (pos + direntAligned name) (offset + 1) (by omega)
      simp only [direntLoop,if_neg full]
      refine ⟨n + 1,by simp; omega,?_,by omega,by omega,same.trans length,fun k low => ?_⟩
      · rw [next]
        apply BitVec.eq_of_toNat_eq
        simp [BitVec.toNat_add]; omega
      · rw [kept k (by omega),before k low]

theorem getdents64_within {fs' : EXT4FSImpl σ φ} {inode rlen : Nat} {offset newOffset : Word} {buf filled : List Byte}
    (done : fs.getdents64 X inode offset buf = .ok (rlen,newOffset,filled,fs')) :
    rlen ≤ buf.length ∧ filled.length = buf.length := by
  unfold EXT4FSImpl.getdents64 at done
  cases stored : fs.stores inode with
  | none => rw [stored] at done; cases done; exact ⟨Nat.zero_le _,rfl⟩
  | some file =>
    simp only [stored,bind_ok_iff,Except.ok.injEq,Prod.mk.injEq] at done
    obtain ⟨entries,_,rfl,_,rfl,_⟩ := done
    obtain ⟨_,_,_,_,within,length,_⟩ :=
      direntLoop_spec ((entries.1.zip entries.2).drop offset.toNat) buf 0 offset (Nat.zero_le _)
    exact ⟨within,length⟩

/-- When the next record fits, the listing starts with eight zero bytes and moves its offset on. -/
theorem direntLoop_cons {name : List Byte} {buf : List Byte} (type : InodeTypes) (rest : List (List Byte × InodeTypes))
    (offset : Word) (fits : direntAligned name ≤ buf.length) :
    ∃ n ≤ rest.length, (direntLoop ((name,type) :: rest) buf 0 offset).2.2 = offset + BitVec.ofNat 64 (n + 1) ∧
      280 ≤ (direntLoop ((name,type) :: rest) buf 0 offset).2.1 ∧
      (direntLoop ((name,type) :: rest) buf 0 offset).2.1 ≤ buf.length ∧
      (direntLoop ((name,type) :: rest) buf 0 offset).1.length = buf.length ∧
      ∀ k < 8, (direntLoop ((name,type) :: rest) buf 0 offset).1[k]? = some 0 := by
  have room := direntAligned_le name
  obtain ⟨length,_,zeros⟩ := writeDirent_spec buf 0 name (by omega)
  obtain ⟨n,most,next,least,within,same,kept⟩ :=
    direntLoop_spec rest (writeDirent buf 0 name) (0 + direntAligned name) (offset + 1) (by omega)
  simp only [direntLoop,if_neg (show ¬ buf.length < 0 + direntAligned name by omega)]
  refine ⟨n,most,?_,by omega,by omega,same.trans length,fun k low => ?_⟩
  · rw [next]
    apply BitVec.eq_of_toNat_eq
    simp [BitVec.toNat_add]; omega
  · rw [kept k (by omega)]
    simpa using zeros k low

end Sel4Linux.Ext4
