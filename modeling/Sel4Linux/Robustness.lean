import Sel4Linux.Descriptors
import Sel4Linux.ServiceHeap

/-!
When a round of the service loop ends in a reply. The library calls that a
request leads to are listed with what the code does about an error
(`libraryCalls`): an opening passes it on, most unwrap it. A round is answered,
within the registers of a message and with an error status for a library
failure, exactly when none of the unwrapped calls fails and what it needs has
room, in the registers and in what is left of the heap (`heapRound_served_iff`);
over whole runs this is `service_robust_iff`.
-/
namespace Sel4Linux.Robustness
open Sel4Linux.Bytes Sel4Linux.Utf8 Sel4Linux.Ipc Sel4Linux.Ext4 Sel4Linux.FdTable Sel4Linux.Service Sel4Linux.ServiceLoop
open Sel4Linux.Descriptors Sel4Linux.Runs Sel4Linux.Metered Sel4Linux.HeapUse Sel4Linux.ServiceHeap
set_option linter.unusedSimpArgs false

/-! ## Library calls -/

/-- What the code does about an error of a library call. -/
inductive Handling where
  | propagated
  | unwrapped
  | defaulted
  deriving DecidableEq, Repr

/-- A library call that can fail: what is done about an error, and whether there was none. -/
structure LibraryCall where
  handling : Handling
  ok : Bool
  deriving DecidableEq, Repr

def made {α : Type} (handling : Handling) (result : Except Errno α) : LibraryCall :=
  { handling := handling, ok := result.isOk }

variable {σ φ : Type} (X : Externs σ φ)

section
variable (fs : EXT4FSImpl σ φ)

/-- The fallible calls of `open`. -/
def openCalls (path : Str) (flags : BitVec 32) : List LibraryCall :=
  let root := X.new rootPath .EXT4_DE_DIR
  if flags &&& X.O_CREAT = X.O_CREAT then
    if flags &&& O_DIRECTORY ≠ O_DIRECTORY then
      [made .propagated (X.fileOpen fs.disk (X.new path .EXT4_DE_REG_FILE) path (flags ||| X.O_TRUNC)).1]
    else []
  else
    match X.checkInodeExist fs.disk root path .EXT4_DE_DIR with
    | (true,_,_) => []
    | (false,disk,root) =>
      match X.checkInodeExist disk root path .EXT4_DE_REG_FILE with
      | (true,disk,_) => [made .propagated (X.fileOpen disk (X.new path .EXT4_DE_REG_FILE) path flags).1]
      | (false,_,_) => []

/-- The fallible calls of `read_at`. -/
def readAtCalls (inode : Nat) (offset : Word) (buf : List Byte) : List LibraryCall :=
  match fs.stores inode with
  | some file =>
    let (sought,disk,file) := X.fileSeek fs.disk file offset 0#32
    made .unwrapped sought :: if sought.isOk then [made .unwrapped (X.fileRead disk file buf).1] else []
  | none => []

/-- The fallible calls of `write_at`. -/
def writeAtCalls (inode : Nat) (offset : Word) (data : List Byte) : List LibraryCall :=
  match fs.stores inode with
  | some file =>
    let (sought,disk,file) := X.fileSeek fs.disk file offset 0#32
    made .unwrapped sought :: if sought.isOk then [made .unwrapped (X.fileWrite disk file data).1] else []
  | none => []

/-- The fallible call of `close`. -/
def closeCalls (inode : Nat) : List LibraryCall :=
  match fs.stores inode with
  | some file => [made .unwrapped (X.fileClose fs.disk file).1]
  | none => []

/-- The fallible call of `mkdir`. -/
def mkdirCalls (path : Str) : List LibraryCall :=
  [made .unwrapped (X.dirMk fs.disk (X.new path .EXT4_DE_DIR) path).1]

/-- The fallible call of `unlink`. -/
def unlinkCalls (path : Str) : List LibraryCall :=
  [made .unwrapped (X.fileRemove fs.disk (X.new path .EXT4_DE_DIR) path).1]

/-- The fallible call of `stat`. -/
def statCalls (inode : Nat) : List LibraryCall :=
  match fs.stores inode with
  | some file =>
    let (_,disk,file) := X.fileSize fs.disk file
    [made .defaulted (X.fileModeGet disk file).1]
  | none => []

/-- The fallible call of `getdents64`. -/
def getdents64Calls (inode : Nat) : List LibraryCall :=
  match fs.stores inode with
  | some file => [made .unwrapped (X.lwext4DirEntries fs.disk file).1]
  | none => []

/-- The number that the library gives for the bytes of a read. -/
def bytesRead (inode : Nat) (offset : Word) (buf : List Byte) : Nat :=
  match fs.stores inode with
  | some file =>
    let (_,disk,file) := X.fileSeek fs.disk file offset 0#32
    ((X.fileRead disk file buf).1.toOption.getD 0).toNat
  | none => 0

/-- The bytes of the records that a listing places in a buffer of `count` bytes. -/
def bytesListed (inode : Nat) (offset : Word) (count : Nat) : Nat :=
  match fs.stores inode with
  | some file =>
    match (X.lwext4DirEntries fs.disk file).1 with
    | .ok entries => (direntLoop ((entries.1.zip entries.2).drop offset.toNat) (List.replicate count 0) 0 offset).2.1
    | .error _ => 0
  | none => 0

end

variable (s : FsService σ φ)

/-- The calls of `access` and `stat` on what they have opened. -/
def afterOpen (path : Str) (calls : Nat → EXT4FSImpl σ φ → List LibraryCall) : List LibraryCall :=
  match s.fs.open X path 0#32 with
  | (.ok (inode,_),fs) => calls inode fs
  | (.error _,_) => []

/-- The fallible library calls of a handler. -/
def libraryCalls : Invocation → List LibraryCall
  | .openWithPath path flags => if path.isEmpty then [] else openCalls X s.fs path flags
  | .statWithPath path =>
    if path.isEmpty then []
    else openCalls X s.fs path 0#32 ++
      afterOpen X s path (fun inode fs => statCalls X fs inode ++ closeCalls X (fs.stat X inode).2 inode)
  | .mkdirWithPath path => if path.isEmpty then [] else mkdirCalls X s.fs path
  | .unlinkWithPath path => if path.isEmpty then [] else unlinkCalls X s.fs path
  | .accessWithPath path =>
    if path.isEmpty then []
    else openCalls X s.fs path 0#32 ++ afterOpen X s path (fun inode fs => closeCalls X fs inode)
  | .writeWithData fd data =>
    if fd = 0 then []
    else if fd = 1 ∨ fd = 2 then []
    else match s.entry fd with
      | some entry => writeAtCalls X s.fs entry.inode entry.offset data
      | none => []
  | .request (.Read fd _ count) =>
    if fd = 0 then []
    else if fd = 1 ∨ fd = 2 then []
    else match s.entry fd with
      | some entry => readAtCalls X s.fs entry.inode entry.offset (List.replicate count.toNat 0)
      | none => []
  | .request (.Close fd) =>
    if fd.toNat ≤ 2 then []
    else match s.entry fd with
      | some entry => closeCalls X s.fs entry.inode
      | none => []
  | .request (.Getdents64 fd _ _) =>
    match s.entry fd with
    | some entry => getdents64Calls X s.fs entry.inode
    | none => []
  | _ => []

/-! ## Room -/

/-- The registers that a response takes. -/
def responseMrs : FsResponse → Nat
  | .Ok _ | .Err _ => 2
  | .Ok2 _ _ => 3
  | .OkWithData data => 2 + mrsFor data.length
  | .OkWithData2 data _ => 3 + mrsFor data.length

theorem writeResponse_mrs (ib : IpcBuffer) (resp : FsResponse) : (writeResponse ib resp).1 = responseMrs resp := by
  cases resp <;> rfl

/-- The length that a reply of so many registers announces: seven bits of it. -/
def announced (replyMrs : Nat) : Nat := infoLength (replyWord replyMrs)

/-- What a handler needs room for: the registers of the bytes of a read or a listing. -/
def RegistersFit : Invocation → Prop
  | .request (.Read fd _ count) =>
    ¬ fd = 0 → ¬ (fd = 1 ∨ fd = 2) → ∀ entry, s.entry fd = some entry →
      announced (2 + mrsFor (min (bytesRead X s.fs entry.inode entry.offset (List.replicate count.toNat 0)) count.toNat)) ≤ 120
  | .request (.Getdents64 fd _ count) =>
    ∀ entry, s.entry fd = some entry → announced (3 + mrsFor (bytesListed X s.fs entry.inode entry.offset count.toNat)) ≤ 120
  | _ => True

/-- With a heap of its own for every block: the longer descriptor table of an opening, and the buffer of a read or a listing,
    beside the registers. -/
def Room : Invocation → Prop
  | .openWithPath path flags =>
    path.isEmpty = false → (s.fs.open X path flags).1.isOk = true → (s.nextFd.toNat + 1) * FILE_ENTRY_SIZE ≤ HEAP_SIZE
  | .request (.Read fd _ count) =>
    ¬ fd = 0 → ¬ (fd = 1 ∨ fd = 2) → ∀ entry, s.entry fd = some entry → count.toNat ≤ HEAP_SIZE ∧
      announced (2 + mrsFor (min (bytesRead X s.fs entry.inode entry.offset (List.replicate count.toNat 0)) count.toNat)) ≤ 120
  | .request (.Getdents64 fd _ count) =>
    ∀ entry, s.entry fd = some entry → count.toNat ≤ HEAP_SIZE ∧
      announced (3 + mrsFor (bytesListed X s.fs entry.inode entry.offset count.toNat)) ≤ 120
  | _ => True

/-- With a heap of its own for every block, the condition on the state and the registers of a request. -/
structure ServedApart (ib : IpcBuffer) : Prop where
  /-- The bytes carried, and the text made of them, each fit in the heap. -/
  decodes : ∀ start len, carried ib = some (start,len) →
    len.toNat ≤ HEAP_SIZE ∧ (lossy (unpackMrs ib start len.toNat)).length ≤ HEAP_SIZE
  /-- Only calls whose errors are passed on fail. -/
  calls : ∀ inv, dispatch ib = .ok (some inv) → ∀ call ∈ libraryCalls X s inv, call.ok = true ∨ call.handling = .propagated
  room : ∀ inv, dispatch ib = .ok (some inv) → Room X s inv

/-- The condition on the state, on what is left of the heap and on the registers of a request. -/
structure Served (D : Drain σ φ) (p : FsService σ φ × FsHeap) (ib : IpcBuffer) : Prop where
  /-- Only calls whose errors are passed on fail. -/
  calls : ∀ inv, dispatch ib = .ok (some inv) → ∀ call ∈ libraryCalls X p.1 inv, call.ok = true ∨ call.handling = .propagated
  registers : ∀ inv, dispatch ib = .ok (some inv) → RegistersFit X p.1 inv
  /-- The blocks of the round, one behind the other, fit in what is left of the heap. -/
  heap : ∃ k, roundUses X D p.1 ib p.2 = .ok k

/-! ## Operations of the task -/

section
variable {X} {fs : EXT4FSImpl σ φ}

@[simp] theorem made_ok {α : Type} (handling : Handling) (result : Except Errno α) : (made handling result).ok = result.isOk := rfl

@[simp] theorem made_handling {α : Type} (handling : Handling) (result : Except Errno α) :
    (made handling result).handling = handling := rfl

/-- A computation that ends without a fault exactly when these calls succeed. -/
def Settles {α : Type} (result : Except Fault α) (calls : List LibraryCall) : Prop :=
  (∀ call ∈ calls, call.handling = .unwrapped) ∧ ((∃ a, result = .ok a) ↔ ∀ call ∈ calls, call.ok = true)

theorem settles_ok {α : Type} (a : α) : Settles (.ok a : Except Fault α) [] := ⟨by simp,by simp⟩

/-- A call that is unwrapped, and the calls that follow it if it succeeds. -/
theorem settles_unwrap {α β : Type} {result : Except Errno α} {rest : α → Except Fault β} {later : List LibraryCall}
    (more : ∀ a, Settles (rest a) later) :
    Settles (unwrap result >>= rest) (made .unwrapped result :: if result.isOk then later else []) := by
  cases result with
  | error e => simp [Settles,unwrap,Except.isOk,Except.toBool]
  | ok a =>
    obtain ⟨unwrapped,ends⟩ := more a
    refine ⟨List.forall_mem_cons.mpr ⟨rfl,unwrapped⟩,ends.trans ?_⟩
    exact ⟨fun good => List.forall_mem_cons.mpr ⟨rfl,good⟩,fun good => (List.forall_mem_cons.mp good).2⟩

theorem settles_last {α β : Type} {result : Except Errno α} {rest : α → Except Fault β} (more : ∀ a, Settles (rest a) []) :
    Settles (unwrap result >>= rest) [made .unwrapped result] := by
  have one := @settles_unwrap α β result rest [] more
  rwa [ite_self] at one

theorem readAt_settles (inode : Nat) (offset : Word) (buf : List Byte) :
    Settles (fs.readAt X inode offset buf) (readAtCalls X fs inode offset buf) := by
  rw [EXT4FSImpl.readAt,readAtCalls]
  cases fs.stores inode with
  | none => exact settles_ok _
  | some file => exact settles_unwrap fun _ => settles_last fun _ => settles_ok _

/-- The number that `read_at` returns is the library's. -/
theorem readAt_bytesRead {inode : Nat} {offset n : Word} {buf out : List Byte} {fs' : EXT4FSImpl σ φ}
    (done : fs.readAt X inode offset buf = .ok (n,out,fs')) : n.toNat = bytesRead X fs inode offset buf := by
  unfold EXT4FSImpl.readAt at done
  unfold bytesRead
  cases stored : fs.stores inode with
  | none => rw [stored] at done; cases done; rfl
  | some file =>
    simp only [stored,bind_ok_iff,unwrap_ok_iff,Except.ok.injEq,Prod.mk.injEq] at done
    obtain ⟨w,_,n',isRead,rfl,_⟩ := done
    simp only [isRead]
    rfl

theorem writeAt_settles (inode : Nat) (offset : Word) (data : List Byte) :
    Settles (fs.writeAt X inode offset data) (writeAtCalls X fs inode offset data) := by
  rw [EXT4FSImpl.writeAt,writeAtCalls]
  cases fs.stores inode with
  | none => exact settles_ok _
  | some file => exact settles_unwrap fun _ => settles_last fun _ => settles_ok _

theorem close_settles (inode : Nat) : Settles (fs.close X inode) (closeCalls X fs inode) := by
  rw [EXT4FSImpl.close,closeCalls]
  cases fs.stores inode with
  | none => exact settles_ok _
  | some file => exact settles_last fun _ => settles_ok _

theorem mkdir_settles (path : Str) : Settles (fs.mkdir X path) (mkdirCalls X fs path) :=
  settles_last fun _ => settles_ok _

theorem unlink_settles (path : Str) : Settles (fs.unlink X path) (unlinkCalls X fs path) :=
  settles_last fun _ => settles_ok _

theorem getdents64_settles (inode : Nat) (offset : Word) (buf : List Byte) :
    Settles (fs.getdents64 X inode offset buf) (getdents64Calls X fs inode) := by
  rw [EXT4FSImpl.getdents64,getdents64Calls]
  cases fs.stores inode with
  | none => exact settles_ok _
  | some file => exact settles_last fun _ => settles_ok _

theorem getdents64_bytesListed {inode rlen count : Nat} {offset newOffset : Word} {filled : List Byte} {fs' : EXT4FSImpl σ φ}
    (done : fs.getdents64 X inode offset (List.replicate count 0) = .ok (rlen,newOffset,filled,fs')) :
    rlen = bytesListed X fs inode offset count := by
  unfold EXT4FSImpl.getdents64 at done
  unfold bytesListed
  cases stored : fs.stores inode with
  | none => rw [stored] at done; cases done; rfl
  | some file =>
    simp only [stored,bind_ok_iff,unwrap_ok_iff,Except.ok.injEq,Prod.mk.injEq] at done
    obtain ⟨entries,listed,isRlen,_⟩ := done
    simp only [listed]
    exact isRlen.symm

theorem openCalls_propagated (path : Str) (flags : BitVec 32) :
    ∀ call ∈ openCalls X fs path flags, call.handling = .propagated := by
  unfold openCalls
  simp only
  split
  · split <;> simp
  · split
    · simp
    · split <;> simp

/-- `open` passes the library's error on. -/
theorem open_of_failed {path : Str} {flags : BitVec 32} (failed : ∃ call ∈ openCalls X fs path flags, call.ok = false) :
    ∃ e fs', fs.open X path flags = (.error e,fs') := by
  obtain ⟨call,member,bad⟩ := failed
  unfold openCalls at member
  unfold EXT4FSImpl.open
  simp only at member ⊢
  split
  · next create =>
    rw [if_pos create] at member
    split
    · next file =>
      rw [if_pos file] at member
      split
      · exact ⟨_,_,rfl⟩
      · next opened =>
        rw [opened] at member
        simp only [List.mem_singleton] at member
        subst member
        cases bad
    · exact ⟨_,_,rfl⟩
  · next plain =>
    rw [if_neg plain] at member
    split
    · next dir =>
      rw [dir] at member
      cases member
    · next notDir =>
      rw [notDir] at member
      simp only at member
      split
      · next reg =>
        rw [reg] at member
        simp only at member
        split
        · exact ⟨_,_,rfl⟩
        · next opened =>
          rw [opened] at member
          simp only [List.mem_singleton] at member
          subst member
          cases bad
      · exact ⟨_,_,rfl⟩

end

/-! ## Handlers -/

/-- A handler ends in a response that fits a message and, when a library call has failed, is an error. -/
def Good (result : Except Fault (FsResponse × FsService σ φ)) (calls : List LibraryCall) : Prop :=
  ∃ resp t, result = .ok (resp,t) ∧ announced (responseMrs resp) ≤ 120 ∧
    ((∃ call ∈ calls, call.ok = false) → resp.isErr = true)

/-- Only calls whose errors are passed on fail. -/
def Passed (calls : List LibraryCall) : Prop := ∀ call ∈ calls, call.ok = true ∨ call.handling = .propagated

variable {X} {s}

theorem two_announced : announced 2 ≤ 120 := by decide

theorem good_now {resp : FsResponse} {t : FsService σ φ} (short : announced (responseMrs resp) ≤ 120) : Good (.ok (resp,t)) [] :=
  ⟨resp,t,rfl,short,by simp⟩

theorem passed_nil : Passed [] := by simp [Passed]

/-- A handler that unwraps all its library calls is good when they succeed and its response fits. -/
theorem settled_good {α : Type} {result : Except Fault α} {calls : List LibraryCall} (settles : Settles result calls)
    {end' : α → FsResponse × FsService σ φ} {F : Prop}
    (fits : ∀ a, result = .ok a → (announced (responseMrs (end' a).1) ≤ 120 ↔ F)) :
    Good (result >>= fun a => .ok (end' a)) calls ↔ Passed calls ∧ F := by
  obtain ⟨unwrapped,ends⟩ := settles
  have passed : Passed calls ↔ ∀ call ∈ calls, call.ok = true := by
    constructor
    · intro pass call member
      rcases pass call member with ok | propagated
      · exact ok
      · rw [unwrapped call member] at propagated
        cases propagated
    · intro all call member
      exact .inl (all call member)
  rw [passed,← ends]
  constructor
  · rintro ⟨resp,t,done,short,_⟩
    obtain ⟨a,isA,isEnd⟩ := bind_ok_iff.mp done
    have fit := fits a isA
    rw [Except.ok.inj isEnd] at fit
    exact ⟨⟨a,isA⟩,fit.mp short⟩
  · rintro ⟨⟨a,isA⟩,fit⟩
    refine ⟨(end' a).1,(end' a).2,by rw [isA]; rfl,(fits a isA).mpr fit,?_⟩
    rintro ⟨call,member,bad⟩
    rw [ends.mp ⟨a,isA⟩ call member] at bad
    cases bad

theorem settled_good' {α : Type} {result : Except Fault α} {calls : List LibraryCall} (settles : Settles result calls)
    {end' : α → FsResponse × FsService σ φ} (two : ∀ a, responseMrs (end' a).1 = 2) :
    Good (result >>= fun a => .ok (end' a)) calls ↔ Passed calls ∧ True :=
  settled_good settles (fun a _ => by rw [two a]; exact ⟨fun _ => trivial,fun _ => two_announced⟩)

theorem now_good {resp : FsResponse} {t : FsService σ φ} (short : announced (responseMrs resp) ≤ 120) :
    Good (.ok (resp,t)) [] ↔ Passed [] ∧ True :=
  ⟨fun _ => ⟨passed_nil,trivial⟩,fun _ => good_now short⟩

theorem mkdir_good (path : Str) :
    Good (s.handleMkdirWithPath X path) (libraryCalls X s (.mkdirWithPath path)) ↔
      Passed (libraryCalls X s (.mkdirWithPath path)) ∧ True := by
  simp only [FsService.handleMkdirWithPath,libraryCalls]
  by_cases empty : path.isEmpty = true
  · simp only [if_pos empty]
    exact now_good two_announced
  · simp only [if_neg empty]
    exact settled_good' (mkdir_settles path) (fun _ => rfl)

theorem unlink_good (path : Str) :
    Good (s.handleUnlinkWithPath X path) (libraryCalls X s (.unlinkWithPath path)) ↔
      Passed (libraryCalls X s (.unlinkWithPath path)) ∧ True := by
  simp only [FsService.handleUnlinkWithPath,libraryCalls]
  by_cases empty : path.isEmpty = true
  · simp only [if_pos empty]
    exact now_good two_announced
  · simp only [if_neg empty]
    exact settled_good' (unlink_settles path) (fun _ => rfl)

theorem write_good (fd : Word) (data : List Byte) :
    Good (s.handleWriteWithData X fd data) (libraryCalls X s (.writeWithData fd data)) ↔
      Passed (libraryCalls X s (.writeWithData fd data)) ∧ True := by
  simp only [FsService.handleWriteWithData,libraryCalls]
  by_cases zero : fd = 0
  · simp only [if_pos zero]
    exact now_good two_announced
  · by_cases std : fd = 1 ∨ fd = 2
    · simp only [if_neg zero,if_pos std]
      exact now_good two_announced
    · simp only [if_neg zero,if_neg std]
      cases s.entry fd with
      | none => exact now_good two_announced
      | some entry => exact settled_good' (writeAt_settles _ _ _) (fun _ => rfl)

theorem close_good (fd : Word) :
    Good (s.handleClose X fd) (libraryCalls X s (.request (.Close fd))) ↔
      Passed (libraryCalls X s (.request (.Close fd))) ∧ True := by
  simp only [FsService.handleClose,libraryCalls]
  by_cases std : fd.toNat ≤ 2
  · simp only [if_pos std]
    exact now_good two_announced
  · simp only [if_neg std]
    cases s.entry fd with
    | none => exact now_good two_announced
    | some entry => exact settled_good' (close_settles _) (fun _ => rfl)

theorem lseek_good (fd offset : Word) (whence : BitVec 32) : Good (s.handleLseek fd offset whence) [] := by
  unfold FsService.handleLseek
  split
  · exact good_now two_announced
  · split
    · split
      all_goals exact good_now two_announced
    · exact good_now two_announced

theorem read_good (fd addr count : Word) :
    Good (s.handleRead X fd count) (libraryCalls X s (.request (.Read fd addr count))) ↔
      Passed (libraryCalls X s (.request (.Read fd addr count))) ∧ Room X s (.request (.Read fd addr count)) := by
  simp only [FsService.handleRead,libraryCalls,Room]
  by_cases zero : fd = 0
  · simp only [if_pos zero,zero,not_true_eq_false,false_implies]
    exact now_good two_announced
  · by_cases std : fd = 1 ∨ fd = 2
    · simp only [if_neg zero,if_pos std,std,not_true_eq_false,false_implies,implies_true]
      exact now_good two_announced
    · simp only [if_neg zero,if_neg std]
      cases live : s.entry fd with
      | none => exact ⟨fun _ => ⟨passed_nil,by simp⟩,fun _ => good_now two_announced⟩
      | some entry =>
        by_cases heap : count.toNat ≤ HEAP_SIZE
        · simp only [allocate,if_pos heap,ok_bind]
          rw [settled_good (readAt_settles _ _ _) (F := announced (2 + mrsFor (min
            (bytesRead X s.fs entry.inode entry.offset (List.replicate count.toNat 0)) count.toNat)) ≤ 120)]
          · refine and_congr_right fun _ => ⟨fun fit _ _ e same => ?_,fun room => (room zero std entry rfl).2⟩
            cases same
            exact ⟨heap,fit⟩
          · rintro ⟨n,out,fs'⟩ done
            have length := readAt_length done
            rw [List.length_replicate] at length
            simp only [responseMrs,List.length_take,length,readAt_bytesRead done]
        · simp only [allocate,if_neg heap,error_bind]
          constructor
          · rintro ⟨_,_,wrong,_⟩; cases wrong
          · rintro ⟨_,room⟩
            exact absurd (room zero std entry rfl).1 heap

theorem getdents64_good (fd addr count : Word) :
    Good (s.handleGetdents64 X fd count) (libraryCalls X s (.request (.Getdents64 fd addr count))) ↔
      Passed (libraryCalls X s (.request (.Getdents64 fd addr count))) ∧ Room X s (.request (.Getdents64 fd addr count)) := by
  simp only [FsService.handleGetdents64,libraryCalls,Room]
  cases live : s.entry fd with
  | none => exact ⟨fun _ => ⟨passed_nil,by simp⟩,fun _ => good_now two_announced⟩
  | some entry =>
    by_cases heap : count.toNat ≤ HEAP_SIZE
    · simp only [allocate,if_pos heap,ok_bind]
      rw [settled_good (getdents64_settles _ _ _)
        (F := announced (3 + mrsFor (bytesListed X s.fs entry.inode entry.offset count.toNat)) ≤ 120)]
      · simp [heap]
      · rintro ⟨rlen,newOffset,filled,fs'⟩ done
        have within := getdents64_within done
        simp only [responseMrs,List.length_take,← getdents64_bytesListed done,
          Nat.min_eq_left (show rlen ≤ filled.length by omega)]
    · simp only [allocate,if_neg heap,error_bind]
      constructor
      · rintro ⟨_,_,wrong,_⟩; cases wrong
      · rintro ⟨_,room⟩
        exact absurd (room entry rfl).1 heap

/-- Calls that succeeded change nothing about what is good. -/
theorem good_append {result : Except Fault (FsResponse × FsService σ φ)} {before calls : List LibraryCall}
    (fine : ∀ call ∈ before, call.ok = true) : Good result (before ++ calls) ↔ Good result calls := by
  have same : (∃ call ∈ before ++ calls, call.ok = false) ↔ ∃ call ∈ calls, call.ok = false := by
    constructor
    · rintro ⟨call,member,bad⟩
      rcases List.mem_append.mp member with early | late
      · rw [fine call early] at bad
        cases bad
      · exact ⟨call,late,bad⟩
    · rintro ⟨call,member,bad⟩
      exact ⟨call,List.mem_append_right _ member,bad⟩
  simp only [Good,same]

theorem passed_append {before calls : List LibraryCall} (propagated : ∀ call ∈ before, call.handling = .propagated) :
    Passed (before ++ calls) ↔ Passed calls := by
  constructor
  · intro pass call member
    exact pass call (List.mem_append_right _ member)
  · intro pass call member
    rcases List.mem_append.mp member with early | late
    · exact .inr (propagated call early)
    · exact pass call late

/-- After calls whose errors get a default, a handler that answers without an error is good when
    all calls succeed. -/
theorem defaulted_good {α : Type} {result : Except Fault α} {before calls : List LibraryCall} (settles : Settles result calls)
    (defaulted : ∀ call ∈ before, call.handling = .defaulted) {end' : α → FsResponse × FsService σ φ}
    (plain : ∀ a, announced (responseMrs (end' a).1) ≤ 120 ∧ (end' a).1.isErr = false) :
    Good (result >>= fun a => .ok (end' a)) (before ++ calls) ↔ Passed (before ++ calls) ∧ True := by
  obtain ⟨unwrapped,ends⟩ := settles
  constructor
  · rintro ⟨resp,t,done,_,answered⟩
    obtain ⟨a,_,isEnd⟩ := bind_ok_iff.mp done
    have ok := (plain a).2
    rw [Except.ok.inj isEnd] at ok
    refine ⟨fun call member => ?_,trivial⟩
    cases good : call.ok with
    | true => exact .inl rfl
    | false =>
      rw [answered ⟨call,member,good⟩] at ok
      cases ok
  · rintro ⟨pass,_⟩
    have all : ∀ call ∈ before ++ calls, call.ok = true := by
      intro call member
      rcases pass call member with ok | propagated
      · exact ok
      · rcases List.mem_append.mp member with early | late
        · rw [defaulted call early] at propagated
          cases propagated
        · rw [unwrapped call late] at propagated
          cases propagated
    obtain ⟨a,isA⟩ := ends.mpr fun call member => all call (List.mem_append_right _ member)
    refine ⟨(end' a).1,(end' a).2,by rw [isA]; rfl,(plain a).1,?_⟩
    rintro ⟨call,member,bad⟩
    rw [all call member] at bad
    cases bad

/-- The calls of an opening that succeeded all succeeded. -/
theorem openCalls_fine {fs fs' : EXT4FSImpl σ φ} {path : Str} {flags : BitVec 32} {r : Nat × Word}
    (opened : fs.open X path flags = (.ok r,fs')) : ∀ call ∈ openCalls X fs path flags, call.ok = true := by
  intro call member
  cases good : call.ok with
  | true => rfl
  | false =>
    obtain ⟨e,fs'',failed⟩ := open_of_failed ⟨call,member,good⟩
    rw [opened] at failed
    cases failed

theorem statCalls_defaulted (fs : EXT4FSImpl σ φ) (inode : Nat) : ∀ call ∈ statCalls X fs inode, call.handling = .defaulted := by
  unfold statCalls
  cases fs.stores inode <;> simp

/-- An error is good whatever calls there were. -/
theorem err_good {e : Errno} {t : FsService σ φ} (calls : List LibraryCall) : Good (.ok (.Err e,t)) calls :=
  ⟨_,t,rfl,two_announced,fun _ => rfl⟩

theorem passed_propagated {calls : List LibraryCall} (propagated : ∀ call ∈ calls, call.handling = .propagated) : Passed calls :=
  fun call member => .inr (propagated call member)

/-- A handler that opens a file, and answers with an error where it cannot. -/
private theorem reopened_good (path : Str) (failure : Errno → Errno) {calls : Nat → EXT4FSImpl σ φ → List LibraryCall}
    {handle : Nat → EXT4FSImpl σ φ → Except Fault (FsResponse × FsService σ φ)}
    (good : ∀ inode fs, Good (handle inode fs) (calls inode fs) ↔ Passed (calls inode fs) ∧ True) :
    Good (if path.isEmpty then .ok (.Err (-22#32),s)
        else match s.fs.open X path 0#32 with
          | (.ok (inode,_),fs) => handle inode fs
          | (.error e,fs) => .ok (.Err (failure e),{ s with fs := fs }))
        (if path.isEmpty then [] else openCalls X s.fs path 0#32 ++ afterOpen X s path calls) ↔
      Passed (if path.isEmpty then [] else openCalls X s.fs path 0#32 ++ afterOpen X s path calls) ∧ True := by
  by_cases empty : path.isEmpty = true
  · simp only [if_pos empty]
    exact now_good two_announced
  · simp only [if_neg empty,afterOpen]
    obtain ⟨result,fs,opened⟩ : ∃ result fs, s.fs.open X path 0#32 = (result,fs) := ⟨_,_,rfl⟩
    rw [opened]
    cases result with
    | error e =>
      simp only [List.append_nil]
      exact ⟨fun _ => ⟨passed_propagated (openCalls_propagated path 0#32),trivial⟩,fun _ => err_good _⟩
    | ok r =>
      simp only
      rw [good_append (openCalls_fine opened),passed_append (openCalls_propagated path 0#32)]
      exact good r.1 fs

theorem stat_good (path : Str) :
    Good (s.handleStatWithPath X path) (libraryCalls X s (.statWithPath path)) ↔
      Passed (libraryCalls X s (.statWithPath path)) ∧ True := by
  refine reopened_good path id fun inode fs => ?_
  refine defaulted_good (close_settles inode) (statCalls_defaulted fs inode) (fun _ => ⟨?_,rfl⟩)
  rw [responseMrs,statBytes_length]
  decide

theorem access_good (path : Str) :
    Good (s.handleAccessWithPath X path) (libraryCalls X s (.accessWithPath path)) ↔
      Passed (libraryCalls X s (.accessWithPath path)) ∧ True :=
  reopened_good path (fun _ => -2#32) fun inode _ => settled_good' (close_settles inode) (fun _ => rfl)

theorem open_good (c : Consistent s) {path : Str} (room : path.len ≤ HEAP_SIZE) (flags : BitVec 32) :
    Good (s.handleOpenWithPath X path flags) (libraryCalls X s (.openWithPath path flags)) ↔
      Passed (libraryCalls X s (.openWithPath path flags)) ∧ Room X s (.openWithPath path flags) := by
  simp only [FsService.handleOpenWithPath,libraryCalls,Room]
  by_cases empty : path.isEmpty = true
  · simp only [if_pos empty,empty,Bool.true_eq_false,false_implies]
    exact now_good two_announced
  · have named : path.isEmpty = false := by simpa using empty
    have grow := c.toNumbered.grow HEAP_SIZE FILE_ENTRY_SIZE
    simp only [named,Bool.false_eq_true,if_false,true_implies]
    obtain ⟨result,fs,opened⟩ : ∃ result fs, s.fs.open X path flags = (result,fs) := ⟨_,_,rfl⟩
    rw [opened]
    have passed : Passed (openCalls X s.fs path flags) := passed_propagated (openCalls_propagated path flags)
    cases result with
    | error e => exact ⟨fun _ => ⟨passed,fun isOk => by cases isOk⟩,fun _ => err_good _⟩
    | ok r =>
      have fine := openCalls_fine opened
      simp only [grow]
      by_cases fits : (s.nextFd.toNat + 1) * FILE_ENTRY_SIZE ≤ HEAP_SIZE
      · simp only [allocate,if_pos fits,if_pos room,ok_bind]
        refine ⟨fun _ => ⟨passed,fun _ => fits⟩,fun _ => ⟨.Ok s.nextFd,_,rfl,two_announced,?_⟩⟩
        rintro ⟨call,member,bad⟩
        rw [fine call member] at bad
        cases bad
      · simp only [allocate,if_neg fits,error_bind]
        constructor
        · rintro ⟨_,_,wrong,_⟩; cases wrong
        · rintro ⟨_,table⟩
          exact absurd (table rfl) fits

/-- Every handler is good exactly when only passed-on calls fail and it has room. -/
theorem invoke_good (inv : Invocation) (c : Consistent s)
    (room : ∀ path flags, inv = .openWithPath path flags → path.len ≤ HEAP_SIZE) :
    Good (s.invoke X inv) (libraryCalls X s inv) ↔ Passed (libraryCalls X s inv) ∧ Room X s inv := by
  cases inv with
  | openWithPath path flags => exact open_good c (room path flags rfl) flags
  | statWithPath path => exact stat_good path
  | mkdirWithPath path => exact mkdir_good path
  | unlinkWithPath path => exact unlink_good path
  | accessWithPath path => exact access_good path
  | writeWithData fd data => exact write_good fd data
  | lseek fd offset whence => exact ⟨fun _ => ⟨passed_nil,trivial⟩,fun _ => lseek_good fd offset whence⟩
  | request r =>
    cases r with
    | Read fd addr count => exact read_good fd addr count
    | Close fd => exact close_good fd
    | Getdents64 fd addr count => exact getdents64_good fd addr count
    | FileSize fd =>
      simp only [FsService.invoke,FsService.handleRequest,FsService.handleFileSize]
      cases s.entry fd
      all_goals exact now_good two_announced
    | _ => exact now_good two_announced

/-! ## Rounds and runs -/

/-- The bytes of a request are decoded unless they, or the text made of them, do not fit in the heap. -/
theorem decode_ok_iff {ib : IpcBuffer} {start : Nat} {len : Word} :
    (∃ path, decodePathFromMrs ib start len = .ok path) ↔
      len.toNat ≤ HEAP_SIZE ∧ (lossy (unpackMrs ib start len.toNat)).length ≤ HEAP_SIZE := by
  simp [decodePathFromMrs,bind_ok_iff,allocate_ok_iff,Str.len]

theorem dispatch_plain {ib : IpcBuffer} (plain : carried ib = none) :
    ∃ call, dispatch ib = .ok call ∧ ∀ path flags, call ≠ some (.openWithPath path flags) := by
  unfold carried at plain
  split at plain
  · cases plain
  · next notWrite =>
    split at plain
    · cases plain
    · next type =>
      simp only [List.mem_cons,List.not_mem_nil,or_false,not_or] at type
      obtain ⟨t₁,t₅,t₇,t₈,t₉⟩ := type
      simp only [dispatch,if_neg notWrite,if_neg t₁,if_neg t₅,if_neg t₇,if_neg t₈,if_neg t₉]
      split_ifs
      all_goals exact ⟨_,rfl,by simp⟩

theorem dispatch_ok_iff {ib : IpcBuffer} : (∃ call, dispatch ib = .ok call) ↔ ∀ start len, carried ib = some (start,len) →
    len.toNat ≤ HEAP_SIZE ∧ (lossy (unpackMrs ib start len.toNat)).length ≤ HEAP_SIZE := by
  constructor
  · rintro ⟨call,read⟩ start len bytes
    obtain ⟨f,isRead,_⟩ := dispatch_carried bytes
    rw [isRead,bind_ok_iff] at read
    obtain ⟨path,decoded,_⟩ := read
    exact decode_ok_iff.mp ⟨path,decoded⟩
  · intro fits
    cases bytes : carried ib with
    | none =>
      obtain ⟨call,read,_⟩ := dispatch_plain bytes
      exact ⟨call,read⟩
    | some place =>
      obtain ⟨f,isRead,_⟩ := dispatch_carried bytes
      obtain ⟨path,decoded⟩ := decode_ok_iff.mpr (fits place.1 place.2 bytes)
      exact ⟨_,by rw [isRead,decoded]; rfl⟩

/-- A path that was decoded fits in the heap. -/
theorem dispatch_path {ib : IpcBuffer} {path : Str} {flags : BitVec 32}
    (read : dispatch ib = .ok (some (.openWithPath path flags))) : path.len ≤ HEAP_SIZE := by
  cases bytes : carried ib with
  | none =>
    obtain ⟨call,isRead,other⟩ := dispatch_plain bytes
    rw [isRead] at read
    exact absurd (Except.ok.inj read) (other path flags)
  | some place =>
    obtain ⟨f,isRead,same,_⟩ := dispatch_carried bytes
    rw [isRead,bind_ok_iff] at read
    obtain ⟨path',decoded,isCall⟩ := read
    rw [same path' path flags (Option.some.inj (Except.ok.inj isCall))]
    simp only [decodePathFromMrs,bind_ok_iff,allocate_ok_iff,Except.ok.injEq] at decoded
    obtain ⟨_,_,_,room,rfl⟩ := decoded
    exact room

/-- What a round of the loop owes: a reply within the registers of a message, and an error status
    when a library call has failed. -/
def Answered (X : Externs σ φ) (s : FsService σ φ) (ib : IpcBuffer) (reply : Reply) : Prop :=
  infoLength reply.1 ≤ 120 ∧ ∀ inv, dispatch ib = .ok (some inv) → (∃ call ∈ libraryCalls X s inv, call.ok = false) →
    reply.2.readMr 0 = RESP_ERR

theorem statusOf_eq_err_iff (resp : FsResponse) : statusOf resp = RESP_ERR ↔ resp.isErr = true := by
  cases resp <;> simp [statusOf,FsResponse.isErr,RESP_OK,RESP_ERR]

/-- With a heap of its own for every block, a round of a consistent service ends as it should exactly when its request is
    within `ServedApart`. -/
theorem round_served_iff (c : Consistent s) (ib : IpcBuffer) :
    (∃ reply t, serviceRound X s ib = .ok (reply,t) ∧ Answered X s ib reply) ↔ ServedApart X s ib := by
  cases read : dispatch ib with
  | error fault =>
    constructor
    · rintro ⟨reply,t,round,_⟩
      rw [serviceRound,read] at round
      cases round
    · intro served
      obtain ⟨call,read'⟩ := dispatch_ok_iff.mpr served.decodes
      rw [read] at read'
      cases read'
  | ok call =>
    have decodes := dispatch_ok_iff.mp ⟨call,read⟩
    cases call with
    | none =>
      constructor
      · intro _
        exact ⟨decodes,fun inv other => (by rw [read] at other; cases other),fun inv other => (by rw [read] at other; cases other)⟩
      · intro _
        refine ⟨(replyWord 2,(ib.writeMr 0 RESP_ERR).writeMr 1 38#64),s,by rw [serviceRound,read]; rfl,two_announced,
          fun inv other => ?_⟩
        rw [read] at other
        cases other
    | some inv =>
      have good := invoke_good (X := X) inv c (fun path flags same => dispatch_path (same ▸ read))
      constructor
      · rintro ⟨reply,t,round,short,failing⟩
        obtain ⟨resp,ran,rfl⟩ := (serviceRound_iff X read).mp round
        rw [writeResponse_mrs] at short
        obtain ⟨passed,room⟩ := good.mp ⟨resp,t,ran,short,fun failed =>
          (statusOf_eq_err_iff resp).mp (writeResponse_mr0 ib resp ▸ failing inv read failed)⟩
        refine ⟨decodes,fun inv' read' => ?_,fun inv' read' => ?_⟩
        all_goals
          rw [read] at read'
          cases read'
          assumption
      · intro served
        obtain ⟨resp,t,ran,short,failing⟩ := good.mpr ⟨served.calls inv read,served.room inv read⟩
        refine ⟨_,t,(serviceRound_iff X read).mpr ⟨resp,ran,rfl⟩,by rw [writeResponse_mrs]; exact short,fun inv' read' failed => ?_⟩
        rw [read] at read'
        cases read'
        rw [writeResponse_mr0]
        exact (statusOf_eq_err_iff resp).mpr (failing failed)

theorem round_consistent {t : FsService σ φ} {ib : IpcBuffer} {reply : Reply} (c : Consistent s)
    (round : serviceRound X s ib = .ok (reply,t)) : Consistent t := by
  cases read : dispatch ib with
  | error fault => rw [serviceRound,read] at round; cases round
  | ok call =>
    cases call with
    | none =>
      rw [serviceRound,read] at round
      cases round
      exact c
    | some inv =>
      obtain ⟨resp,ran,_⟩ := (serviceRound_iff X read).mp round
      exact effect_consistent c (invoke_effect ran)

/-! ## The heap -/

section
variable {D : Drain σ φ} {h k : FsHeap}

/-- Blocks that fit one behind the other fit each alone: the strings that a request carries. -/
theorem requestAsks_fit {ib : IpcBuffer} (taken : h.takes (requestAsks ib) = .ok k) {start : Nat} {len : Word}
    (bytes : carried ib = some (start,len)) :
    len.toNat ≤ HEAP_SIZE ∧ (lossy (unpackMrs ib start len.toNat)).length ≤ HEAP_SIZE := by
  obtain ⟨heap,all,_⟩ := takes_ok_iff.mp taken
  rw [requestAsks,bytes] at all
  obtain ⟨_,first,rest⟩ := takeAll_cons_iff.mp all
  obtain ⟨_,second,grew⟩ := takeAll_cons_iff.mp rest
  refine ⟨take_bytes_le first,growth_le (Nat.le_add_left _ _) (take_bytes_le second) grew⟩

/-- Where a handler's blocks fit in what is left, the registers are all it needs. -/
theorem room_iff_registers {inv : Invocation} (used : invokeUses X D s inv h = .ok k) : Room X s inv ↔ RegistersFit X s inv := by
  obtain ⟨u,buffer,entry⟩ := bind_ok_iff.mp used
  have counted {n : Nat} (taken : h.takes [bytes n] = .ok u) : n ≤ HEAP_SIZE :=
    Nat.le_trans (takes_bytes_iff.mp ⟨u,taken⟩) (Nat.sub_le _ _)
  cases inv with
  | openWithPath path flags =>
    refine iff_of_true (fun named opened => ?_) trivial
    simp only [entryUses,named,Bool.false_eq_true,if_false] at entry
    split at entry
    · obtain ⟨_,long⟩ := push_capacity entry
      exact Nat.le_trans (Nat.mul_le_mul_right _ long) k.paid
    · next failed =>
      rw [failed] at opened
      cases opened
  | request r =>
    cases r with
    | Read fd addr count =>
      simp only [Room,RegistersFit]
      refine forall_congr' fun input => forall_congr' fun console => forall_congr' fun e => forall_congr' fun live => ?_
      simp only [bufferAsks,if_neg input,if_neg console,live] at buffer
      exact and_iff_right (counted buffer)
    | Getdents64 fd addr count =>
      simp only [Room,RegistersFit]
      refine forall_congr' fun e => forall_congr' fun live => ?_
      simp only [bufferAsks,live] at buffer
      exact and_iff_right (counted buffer)
    | _ => exact Iff.rfl
  | _ => exact Iff.rfl

theorem served_apart_iff {ib : IpcBuffer} (used : roundUses X D s ib h = .ok k) : ServedApart X s ib ↔ Served X D (s,h) ib := by
  obtain ⟨u,carries,handled⟩ := bind_ok_iff.mp used
  have room {inv : Invocation} (read : dispatch ib = .ok (some inv)) : Room X s inv ↔ RegistersFit X s inv := by
    rw [read] at handled
    obtain ⟨v,_,invoked⟩ := bind_ok_iff.mp handled
    exact room_iff_registers invoked
  constructor
  · rintro ⟨_,calls,fits⟩
    exact ⟨calls,fun inv read => (room read).mp (fits inv read),k,used⟩
  · rintro ⟨calls,registers,_⟩
    exact ⟨fun start len bytes => requestAsks_fit carries bytes,calls,fun inv read => (room read).mpr (registers inv read)⟩

/-- A round of a consistent service ends as it should exactly when its request is within `Served`. -/
theorem heapRound_served_iff (c : Consistent s) (h : FsHeap) (ib : IpcBuffer) :
    (∃ reply p, heapRound X D (s,h) ib = .ok (reply,p) ∧ Answered X s ib reply) ↔ Served X D (s,h) ib := by
  constructor
  · rintro ⟨reply,⟨t,k⟩,round,answered⟩
    obtain ⟨apart,used⟩ := metered_ok_iff.mp round
    exact (served_apart_iff used).mp ((round_served_iff c ib).mp ⟨reply,t,apart,answered⟩)
  · intro served
    obtain ⟨k,used⟩ := served.heap
    obtain ⟨reply,t,apart,answered⟩ := (round_served_iff c ib).mpr ((served_apart_iff used).mpr served)
    exact ⟨reply,(t,k),metered_ok_iff.mpr ⟨apart,used⟩,answered⟩

end

/-- Whatever is left of the heap at the beginning, and whatever the library takes of it: the service answers every request
    of a run as it should exactly when each of them, in the state and with the heap that it finds, is within `Served`. -/
theorem service_robust_iff (X : Externs σ φ) (D : Drain σ φ) (disk : σ) (h : FsHeap) (requests : List IpcBuffer) :
    Each (heapRound X D) (fun p ib reply _ => Answered X p.1 ib reply) (FsService.new disk,h) requests ↔
      Meets (heapRound X D) (Served X D) (FsService.new disk,h) requests := by
  refine each_iff_meets (I := fun p => Consistent p.1) (fun p ib reply q c round => ?_) (fun p ib c => ?_) (new_consistent disk)
  · exact round_consistent c (metered_ok_iff.mp round).1
  · exact heapRound_served_iff c p.2 ib

def dPath : Str := ascii ['/','d']

/-- A disk with the directory `/d`. -/
def dirDisk : List MemFs.Node := [{ path := dPath.bytes, type := .EXT4_DE_DIR, bytes := [] }]

/-- A request to make that directory. -/
def mkdirRequest : IpcBuffer := (packMrs ((IpcBuffer.new.writeMr 0 7).writeMr 2 2) dPath.bytes PATH_MR_START).2

/-- Making a directory that exists stops the service: the library's error is unwrapped. -/
theorem mkdir_existing_panics :
    (MemFs.memFs.dirMk dirDisk { path := dPath.bytes, type := .EXT4_DE_DIR, pos := 0 } dPath).1 = .error MemFs.EEXIST ∧
    heapRound MemFs.memFs .none (FsService.new dirDisk,.unused _ _) mkdirRequest = .error .unwrap :=
  ⟨by decide,rfl⟩

end Sel4Linux.Robustness
