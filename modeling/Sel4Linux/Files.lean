import Sel4Linux.Ext4

/-!
What is assumed of reading and writing in the ext4 library (`FileView`): an
object shows the bytes of a file, a seek to an offset inside the file followed
by a read or a write acts at that offset. `readAt` and `writeAt` of the task
then do the same. A small file system in memory (`MemFs`) meets the assumption.
-/
namespace Sel4Linux.Files
open Sel4Linux.Bytes Sel4Linux.Utf8 Sel4Linux.Ipc Sel4Linux.Ext4
set_option linter.unusedSimpArgs false

/-- The bytes that a read of at most `len` bytes from `offset` gives. -/
def chunk (c : List Byte) (offset len : Nat) : List Byte := (c.drop offset).take len

theorem chunk_length (c : List Byte) (offset len : Nat) : (chunk c offset len).length = min len (c.length - offset) := by
  simp [chunk]

theorem take_append_chunk (c : List Byte) (offset len : Nat) :
    c.take offset ++ chunk c offset len = c.take (offset + len) := by
  rw [chunk,List.take_add]

variable {σ φ : Type}

/-- The contents of files as the library's objects show them. -/
structure FileView (X : Externs σ φ) where
  content : σ → φ → Option (List Byte)
  read : ∀ st f c offset buf, content st f = some c → offset.toNat ≤ c.length →
    ∃ w st₁ f₁ st₂ f₂, X.fileSeek st f offset 0#32 = (.ok w,st₁,f₁) ∧
      X.fileRead st₁ f₁ buf = (.ok (BitVec.ofNat 64 (chunk c offset.toNat buf.length).length),
        chunk c offset.toNat buf.length ++ buf.drop (chunk c offset.toNat buf.length).length,st₂,f₂) ∧
      content st₂ f₂ = some c
  write : ∀ st f c offset data, content st f = some c → offset.toNat ≤ c.length →
    ∃ w st₁ f₁ st₂ f₂, X.fileSeek st f offset 0#32 = (.ok w,st₁,f₁) ∧
      X.fileWrite st₁ f₁ data = (.ok (BitVec.ofNat 64 data.length),st₂,f₂) ∧
      content st₂ f₂ = some (splice c offset.toNat data)

variable {X : Externs σ φ} (V : FileView X)

/-- The content behind a slot of the object pool. -/
def FileView.at (fs : EXT4FSImpl σ φ) (inode : Nat) : Option (List Byte) :=
  (fs.stores inode).bind (V.content fs.disk)

@[simp] theorem put_stores_self (fs : EXT4FSImpl σ φ) (disk : σ) (i : Nat) (object : Option φ) :
    (fs.put disk i object).stores i = object := by simp [EXT4FSImpl.put]

@[simp] theorem put_disk (fs : EXT4FSImpl σ φ) (disk : σ) (i : Nat) (object : Option φ) :
    (fs.put disk i object).disk = disk := rfl

theorem readAt_chunk {fs : EXT4FSImpl σ φ} {inode : Nat} {c : List Byte} {offset : Word} (shown : V.at fs inode = some c)
    (inside : offset.toNat ≤ c.length) (buf : List Byte) :
    ∃ disk file, fs.readAt X inode offset buf = .ok (BitVec.ofNat 64 (chunk c offset.toNat buf.length).length,
        chunk c offset.toNat buf.length ++ buf.drop (chunk c offset.toNat buf.length).length,
        fs.put disk inode (some file)) ∧ V.at (fs.put disk inode (some file)) inode = some c := by
  obtain ⟨file,stored,content⟩ := Option.bind_eq_some_iff.mp shown
  obtain ⟨w,st₁,f₁,st₂,f₂,sought,done,after⟩ := V.read fs.disk file c offset buf content inside
  refine ⟨st₂,f₂,?_,by simp [FileView.at,after]⟩
  simp [EXT4FSImpl.readAt,stored,sought,done,unwrap,bind,Except.bind]

theorem writeAt_splice {fs : EXT4FSImpl σ φ} {inode : Nat} {c : List Byte} {offset : Word} (shown : V.at fs inode = some c)
    (inside : offset.toNat ≤ c.length) (data : List Byte) :
    ∃ disk file, fs.writeAt X inode offset data = .ok (BitVec.ofNat 64 data.length,fs.put disk inode (some file)) ∧
      V.at (fs.put disk inode (some file)) inode = some (splice c offset.toNat data) := by
  obtain ⟨file,stored,content⟩ := Option.bind_eq_some_iff.mp shown
  obtain ⟨w,st₁,f₁,st₂,f₂,sought,done,after⟩ := V.write fs.disk file c offset data content inside
  refine ⟨st₂,f₂,?_,by simp [FileView.at,after]⟩
  simp [EXT4FSImpl.writeAt,stored,sought,done,unwrap,bind,Except.bind]

end Sel4Linux.Files

namespace Sel4Linux.MemFs
open Sel4Linux.Bytes Sel4Linux.Utf8 Sel4Linux.Ipc Sel4Linux.Ext4 Sel4Linux.Files
set_option linter.unusedSimpArgs false

/-- A file or a directory. -/
structure Node where
  path : List Byte
  type : InodeTypes
  bytes : List Byte
  deriving DecidableEq

/-- An open object: what it names, and where the next read or write is. -/
structure Handle where
  path : List Byte
  type : InodeTypes
  pos : Nat
  deriving DecidableEq

def O_CREAT : BitVec 32 := 0o100#32
def O_TRUNC : BitVec 32 := 0o1000#32
def ENOENT : Errno := 2
def EEXIST : Errno := 17
def EINVAL : Errno := 22

/-- The node that a handle names. -/
def node (disk : List Node) (h : Handle) : Option Node := disk.find? fun n => n.path = h.path ∧ n.type = h.type

/-- The bytes of the file that a handle names. -/
def content (disk : List Node) (h : Handle) : Option (List Byte) := (node disk h).map Node.bytes

/-- The bytes of the file that a handle names replaced. -/
def store (disk : List Node) (h : Handle) (bytes : List Byte) : List Node :=
  disk.map fun n => if n.path = h.path ∧ n.type = h.type then { n with bytes := bytes } else n

/-- `file_open`: `O_CREAT` makes the file, `O_TRUNC` empties it. -/
def fileOpen (disk : List Node) (h : Handle) (flags : BitVec 32) : Except Errno Word × List Node × Handle :=
  let h := { h with pos := 0 }
  if (node disk h).isSome then (.ok 0,if flags &&& O_TRUNC = O_TRUNC then store disk h [] else disk,h)
  else if flags &&& O_CREAT = O_CREAT then (.ok 0,disk ++ [{ path := h.path, type := h.type, bytes := [] }],h)
  else (.error ENOENT,disk,h)

/-- `file_seek` from the start: not past the end. -/
def fileSeek (disk : List Node) (h : Handle) (offset : Word) : Except Errno Word × List Node × Handle :=
  match content disk h with
  | some c => if offset.toNat ≤ c.length then (.ok 0,disk,{ h with pos := offset.toNat }) else (.error EINVAL,disk,h)
  | none => (.error ENOENT,disk,h)

def fileRead (disk : List Node) (h : Handle) (buf : List Byte) : Except Errno Word × List Byte × List Node × Handle :=
  match content disk h with
  | some c =>
    let got := chunk c h.pos buf.length
    (.ok (BitVec.ofNat 64 got.length),got ++ buf.drop got.length,disk,{ h with pos := h.pos + got.length })
  | none => (.error ENOENT,buf,disk,h)

def fileWrite (disk : List Node) (h : Handle) (data : List Byte) : Except Errno Word × List Node × Handle :=
  match content disk h with
  | some c =>
    (.ok (BitVec.ofNat 64 data.length),store disk h (splice c h.pos data),{ h with pos := h.pos + data.length })
  | none => (.error ENOENT,disk,h)

def fileModeGet (disk : List Node) (h : Handle) : Except Errno (BitVec 32) :=
  match node disk h with
  | some n => .ok (if n.type = .EXT4_DE_DIR then 0o40755#32 else 0o100644#32)
  | none => .error ENOENT

def dirMk (disk : List Node) (h : Handle) : Except Errno Word × List Node × Handle :=
  if disk.any (·.path = h.path) then (.error EEXIST,disk,h)
  else (.ok 0,disk ++ [{ path := h.path, type := .EXT4_DE_DIR, bytes := [] }],h)

def fileRemove (disk : List Node) (h : Handle) : Except Errno Word × List Node × Handle :=
  if disk.any (·.path = h.path) then (.ok 0,disk.filter (·.path ≠ h.path),h) else (.error ENOENT,disk,h)

/-- The names on the disk, the root's own entries first. -/
def names (disk : List Node) : List (List Byte) := [[0x2E#8],[0x2E#8,0x2E#8]] ++ disk.map Node.path

/-- The first unused slot among `fuel` ones from `i` on. -/
def firstFree (used : Nat → Bool) : Nat → Nat → Option Nat
  | 0, _ => none
  | fuel + 1, i => if used i then firstFree used fuel (i + 1) else some i

theorem firstFree_some {used : Nat → Bool} {fuel i j : Nat} (found : firstFree used fuel i = some j) :
    j < i + fuel ∧ used j = false := by
  induction fuel generalizing i with
  | zero => simp [firstFree] at found
  | succ fuel ih =>
    by_cases taken : used i
    · simp only [firstFree,if_pos taken] at found
      have later := ih found
      exact ⟨by omega,later.2⟩
    · simp only [firstFree,if_neg taken,Option.some.injEq] at found
      subst found
      exact ⟨by omega,by simpa using taken⟩

theorem firstFree_none {used : Nat → Bool} {fuel i : Nat} (missing : firstFree used fuel i = none) :
    ∀ j, i ≤ j → j < i + fuel → used j = true := by
  induction fuel generalizing i with
  | zero => intro j from' below; omega
  | succ fuel ih =>
    intro j from' below
    by_cases taken : used i
    · by_cases here : j = i
      · rwa [here]
      · simp only [firstFree,if_pos taken] at missing
        exact ih missing j (by omega) (by omega)
    · simp [firstFree,taken] at missing

/-- A file system in memory, with the first free slot for an object. -/
def memFs : Externs (List Node) Handle where
  O_CREAT := O_CREAT
  O_TRUNC := O_TRUNC
  new path type := { path := path.bytes, type := type, pos := 0 }
  checkInodeExist disk h path type := ((node disk { h with path := path.bytes, type := type }).isSome,disk,h)
  fileOpen disk h _ flags := fileOpen disk h flags
  fileClose disk h := (.ok 0,disk,h)
  fileSize disk h := (BitVec.ofNat 64 ((content disk h).getD []).length,disk,h)
  fileModeGet disk h := (fileModeGet disk h,disk,h)
  fileSeek disk h offset _ := fileSeek disk h offset
  fileRead := fileRead
  fileWrite := fileWrite
  dirMk disk h _ := dirMk disk h
  fileRemove disk h _ := fileRemove disk h
  lwext4DirEntries disk h :=
    (if (names disk).length < 2 ^ 63 ∧ h.type = .EXT4_DE_DIR then
      .ok (names disk,(names disk).map fun _ => .EXT4_DE_REG_FILE) else .error EINVAL,disk,h)
  fileRead_length := by
    intro disk h buf
    unfold fileRead
    cases content disk h with
    | none => rfl
    | some c => simp [chunk_length]
  dirEntries_length := by
    intro disk h got types listed
    by_cases fits : (names disk).length < 2 ^ 63 ∧ h.type = .EXT4_DE_DIR
    · simp only [if_pos fits,Except.ok.injEq,Prod.mk.injEq] at listed
      exact listed.1 ▸ fits.1
    · simp only [if_neg fits,reduceCtorEq] at listed
  pick used := firstFree used STORE_CAP 0
  pick_free := by
    intro used i found
    obtain ⟨below,free⟩ := firstFree_some found
    exact ⟨by omega,free⟩
  pick_full := by
    intro used missing i below
    exact firstFree_none missing i (by omega) (by omega)

theorem node_store (disk : List Node) (h : Handle) (bytes : List Byte) {n : Node} (found : node disk h = some n) :
    node (store disk h bytes) h = some { n with bytes := bytes } := by
  induction disk with
  | nil => simp [node] at found
  | cons first rest ih =>
    by_cases here : first.path = h.path ∧ first.type = h.type
    · simp only [node,List.find?_cons,here,and_self,decide_true,Option.some.injEq] at found
      simp [node,store,here,← found]
    · simp only [node,List.find?_cons,here,decide_false] at found
      simpa [node,store,here] using ih found

/-- Reads and writes of the file system in memory act at the offset sought. -/
def memFsView : FileView memFs where
  content := content
  read := by
    intro disk h c offset buf shown inside
    refine ⟨0,disk,{ h with pos := offset.toNat },disk,
      { h with pos := offset.toNat + (chunk c offset.toNat buf.length).length },?_,?_,shown⟩
    · simp [memFs,fileSeek,shown,inside]
    · have same : content disk { h with pos := offset.toNat } = some c := shown
      simp [memFs,fileRead,same]
  write := by
    intro disk h c offset data shown inside
    refine ⟨0,disk,{ h with pos := offset.toNat },store disk h (splice c offset.toNat data),
      { h with pos := offset.toNat + data.length },?_,?_,?_⟩
    · simp [memFs,fileSeek,shown,inside]
    · have same : content disk { h with pos := offset.toNat } = some c := shown
      simp [memFs,fileWrite,same,store]
    · obtain ⟨n,found,_⟩ := Option.map_eq_some_iff.mp shown
      have stored := node_store disk h (splice c offset.toNat data) found
      simpa [content,node] using congrArg (Option.map Node.bytes) stored

end Sel4Linux.MemFs
