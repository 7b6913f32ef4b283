import Sel4Linux.Files

/-!
What an opening does to a file that is already there. The library empties a file
that is opened with `O_TRUNC` and no other (`TruncLaws`). The task's `open` adds
this flag to every opening with `O_CREAT`, so such an opening destroys the file
(`open_content`); without `O_CREAT` it keeps it (`open_keeps_iff`).
-/
namespace Sel4Linux.Truncation
open Sel4Linux.Bytes Sel4Linux.Utf8 Sel4Linux.Ipc Sel4Linux.Ext4
set_option linter.unusedSimpArgs false

variable {σ φ : Type}

/-- The content of an opened file that had content `c`. -/
def emptied (X : Externs σ φ) (flags : BitVec 32) (c : List Byte) : List Byte :=
  if flags &&& X.O_TRUNC = X.O_TRUNC then [] else c

/-- What the library says of the regular files on a disk, by their paths: a check changes none and takes none for a
    directory, an opening empties a file with `O_TRUNC` only, and `file_size` tells the length of the opened one. -/
structure TruncLaws (X : Externs σ φ) (content : σ → Str → Option (List Byte)) : Prop where
  checked : ∀ st f path type, content (X.checkInodeExist st f path type).2.1 = content st
  notDir : ∀ st f path c, content st path = some c → (X.checkInodeExist st f path .EXT4_DE_DIR).1 = false
  library : ∀ st path flags c w st' f', content st path = some c →
    X.fileOpen st (X.new path .EXT4_DE_REG_FILE) path flags = (.ok w,st',f') →
    content st' path = some (emptied X flags c) ∧ content (X.fileSize st' f').2.1 path = some (emptied X flags c) ∧
      (X.fileSize st' f').1 = BitVec.ofNat 64 (emptied X flags c).length

variable {X : Externs σ φ} {content : σ → Str → Option (List Byte)} {fs fs' : EXT4FSImpl σ φ} {path : Str}
  {flags : BitVec 32} {c : List Byte} {inode : Nat} {w : Word}

/-- The flags that `open` hands on to the library. -/
def handed (X : Externs σ φ) (flags : BitVec 32) : BitVec 32 :=
  if flags &&& X.O_CREAT = X.O_CREAT then flags ||| X.O_TRUNC else flags

/-- A successful opening of a regular file is one of the library, with the flags handed on. -/
theorem open_library (laws : TruncLaws X content) (existing : content fs.disk path = some c)
    (success : fs.open X path flags = (.ok (inode,w),fs')) : ∃ disk n disk' file, content disk path = some c ∧
      X.fileOpen disk (X.new path .EXT4_DE_REG_FILE) path (handed X flags) = (.ok n,disk',file) ∧
      fs.add X disk' file = (.ok (inode,w),fs') := by
  unfold EXT4FSImpl.open at success
  simp only at success
  rw [handed]
  split at success
  · next creating =>
    rw [if_pos creating]
    split at success
    · split at success
      · cases success
      · next n disk' file done => exact ⟨fs.disk,n,disk',file,existing,done,success⟩
    · cases success
  · next opening =>
    rw [if_neg opening]
    have noDir := laws.notDir fs.disk (X.new rootPath .EXT4_DE_DIR) path c existing
    have still : content (X.checkInodeExist fs.disk (X.new rootPath .EXT4_DE_DIR) path .EXT4_DE_DIR).2.1 path = some c := by
      rw [laws.checked,existing]
    split at success
    · next dir => rw [dir] at noDir; cases noDir
    · next disk root dir =>
      rw [dir] at still
      have still' : content (X.checkInodeExist disk root path .EXT4_DE_REG_FILE).2.1 path = some c := by
        rw [laws.checked,still]
      split at success
      · next disk₁ _ reg =>
        rw [reg] at still'
        split at success
        · cases success
        · next n disk' file done => exact ⟨disk₁,n,disk',file,still',done,success⟩
      · cases success

/-- The content of an existing file after a successful opening, and the size that is reported. -/
theorem open_content (laws : TruncLaws X content) (existing : content fs.disk path = some c)
    (success : fs.open X path flags = (.ok (inode,w),fs')) :
    content fs'.disk path = some (emptied X (handed X flags) c) ∧
      w = BitVec.ofNat 64 (emptied X (handed X flags) c).length := by
  obtain ⟨disk,n,disk',file,still,done,added⟩ := open_library laws existing success
  obtain ⟨rfl,rfl⟩ := add_reported X added
  obtain ⟨_,after,told⟩ := laws.library _ _ _ _ _ _ _ still done
  exact ⟨after,told⟩

/-- Opening an existing regular file without `O_TRUNC` keeps its content and reports its length just when the flags
    are without `O_CREAT`, or the file is empty. -/
theorem open_keeps_iff (laws : TruncLaws X content) (existing : content fs.disk path = some c)
    (plain : flags &&& X.O_TRUNC ≠ X.O_TRUNC) (success : fs.open X path flags = (.ok (inode,w),fs')) :
    content fs'.disk path = some c ∧ w = BitVec.ofNat 64 c.length ↔ flags &&& X.O_CREAT ≠ X.O_CREAT ∨ c = [] := by
  obtain ⟨after,told⟩ := open_content laws existing success
  rw [after,told]
  by_cases creating : flags &&& X.O_CREAT = X.O_CREAT
  · have empty : emptied X (handed X flags) c = [] := by
      rw [emptied,handed,if_pos creating,if_pos (by ext i; simp; grind)]
    rw [empty]
    constructor
    · rintro ⟨same,_⟩
      exact Or.inr (Option.some.inj same).symm
    · rintro (without | rfl)
      · exact absurd creating without
      · exact ⟨rfl,rfl⟩
  · rw [emptied,handed,if_neg creating,if_neg plain]
    exact iff_of_true ⟨rfl,rfl⟩ (Or.inl creating)

/-- The regular files of the file system in memory. -/
def memContent (disk : List MemFs.Node) (path : Str) : Option (List Byte) :=
  if (MemFs.node disk { path := path.bytes, type := .EXT4_DE_DIR, pos := 0 }).isSome then none
  else MemFs.content disk { path := path.bytes, type := .EXT4_DE_REG_FILE, pos := 0 }

theorem node_store_isSome (disk : List MemFs.Node) (h h' : MemFs.Handle) (bytes : List Byte) :
    (MemFs.node (MemFs.store disk h bytes) h').isSome = (MemFs.node disk h').isSome := by
  have same : (fun n : MemFs.Node => decide (n.path = h'.path ∧ n.type = h'.type)) ∘
      (fun n => if n.path = h.path ∧ n.type = h.type then { n with bytes := bytes } else n) =
        fun n => decide (n.path = h'.path ∧ n.type = h'.type) := by
    funext n
    simp only [Function.comp_apply]
    split <;> rfl
  rw [MemFs.node,MemFs.store,List.find?_map,same,Option.isSome_map]
  rfl

theorem memContent_store {disk : List MemFs.Node} {path : Str} {c : List Byte} (existing : memContent disk path = some c)
    (bytes : List Byte) :
    memContent (MemFs.store disk { path := path.bytes, type := .EXT4_DE_REG_FILE, pos := 0 } bytes) path = some bytes := by
  unfold memContent at existing ⊢
  rw [node_store_isSome]
  split at existing
  · cases existing
  · next noDir =>
    rw [if_neg noDir]
    obtain ⟨n,found,_⟩ := Option.map_eq_some_iff.mp existing
    rw [MemFs.content,MemFs.node_store disk _ bytes found]
    rfl

theorem memContent_some {disk : List MemFs.Node} {path : Str} {c : List Byte} (existing : memContent disk path = some c) :
    MemFs.content disk { path := path.bytes, type := .EXT4_DE_REG_FILE, pos := 0 } = some c := by
  unfold memContent at existing
  split at existing
  · cases existing
  · exact existing

theorem memLaws : TruncLaws MemFs.memFs memContent where
  checked disk h path type := rfl
  notDir disk h path c existing := by
    unfold memContent at existing
    split at existing
    · cases existing
    · next noDir => simpa [MemFs.memFs,MemFs.node] using noDir
  library disk path flags c w disk' h existing done := by
    have run : MemFs.fileOpen disk { path := path.bytes, type := .EXT4_DE_REG_FILE, pos := 0 } flags = (.ok w,disk',h) := done
    obtain ⟨n,found,_⟩ := Option.map_eq_some_iff.mp (memContent_some existing)
    rw [MemFs.fileOpen,if_pos (by rw [found]; rfl)] at run
    cases run
    have after : memContent (if flags &&& MemFs.O_TRUNC = MemFs.O_TRUNC then
        MemFs.store disk { path := path.bytes, type := .EXT4_DE_REG_FILE, pos := 0 } [] else disk) path =
          some (emptied MemFs.memFs flags c) := by
      have flag : MemFs.memFs.O_TRUNC = MemFs.O_TRUNC := rfl
      rw [emptied,flag]
      split
      · exact memContent_store existing []
      · exact existing
    refine ⟨after,after,?_⟩
    show BitVec.ofNat 64 ((MemFs.content _ _).getD []).length = _
    rw [memContent_some after]
    rfl

/-- The file `/a` with three bytes. -/
def threeBytes : EXT4FSImpl (List MemFs.Node) MemFs.Handle :=
  EXT4FSImpl.new [{ path := [0x2F#8,0x61#8], type := .EXT4_DE_REG_FILE, bytes := [1,2,3] }]

theorem open_keeps_three : ∃ fs', threeBytes.open MemFs.memFs (ascii ['/','a']) 2 = (.ok (0,3),fs') ∧
    (memContent fs'.disk (ascii ['/','a']) = some [1,2,3] ∧ (3 : Word) = BitVec.ofNat 64 3 ↔
      (2 : BitVec 32) &&& MemFs.memFs.O_CREAT ≠ MemFs.memFs.O_CREAT ∨ ([1,2,3] : List Byte) = []) := by
  obtain ⟨fs',success⟩ : ∃ fs', threeBytes.open MemFs.memFs (ascii ['/','a']) 2 = (.ok (0,3),fs') := ⟨_,rfl⟩
  exact ⟨fs',success,open_keeps_iff memLaws rfl (by decide) success⟩

/-- Opened for reading and writing with `O_CREAT` but without `O_TRUNC`, the file is empty. -/
theorem open_creat_empties : TruncLaws MemFs.memFs memContent ∧ ∃ fs',
    threeBytes.open MemFs.memFs (ascii ['/','a']) (0o102#32) = (.ok (0,0),fs') ∧
    0o102#32 &&& MemFs.O_TRUNC ≠ MemFs.O_TRUNC ∧ memContent threeBytes.disk (ascii ['/','a']) = some [1,2,3] ∧
    memContent fs'.disk (ascii ['/','a']) = some [] := ⟨memLaws,_,rfl,by decide,rfl,rfl⟩

end Sel4Linux.Truncation
