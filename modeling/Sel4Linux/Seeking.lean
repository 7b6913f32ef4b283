import Sel4Linux.Descriptors

/-!
Where an open file is read and written next, and how long the service takes it
to be. A seek from the current offset or from the end is not checked for
negative results, so it is exact only where the sum lies in range
(`seek_exact_iff`). The size is the one found at the opening, so it is right as
long as no write makes the file longer (`size_current_iff`).
-/
namespace Sel4Linux.Seeking
open Sel4Linux.Bytes Sel4Linux.Utf8 Sel4Linux.Ipc Sel4Linux.Ext4 Sel4Linux.Service Sel4Linux.Runs Sel4Linux.Files
open Sel4Linux.FdTable Sel4Linux.Descriptors
set_option linter.unusedSimpArgs false

variable {σ φ : Type}

/-! ## Seeks -/

/-- Stored offset and size are below 2^63. -/
def Bounded (e : FileEntry) : Prop := e.offset.toNat < 2 ^ 63 ∧ e.size.toNat < 2 ^ 63

/-- What a seek counts from. -/
def base (e : FileEntry) (whence : BitVec 32) : Option Nat :=
  if whence = 0 then some 0 else if whence = 1 then some e.offset.toNat else if whence = 2 then some e.size.toNat else none

/-- How a seek may end: at the base plus the offset, with the entry there, or with an error and the entry as it was. -/
inductive Sought (e : FileEntry) (offset : Word) (whence : BitVec 32) : FsResponse → Option FileEntry → Prop where
  | moved (p : Word) (b : Nat) (from' : base e whence = some b) (sum : (p.toNat : Int) = b + offset.toInt)
      (small : p.toNat < 2 ^ 63) : Sought e offset whence (.Ok p) (some { e with offset := p })
  | refused (errno : Errno) : Sought e offset whence (.Err errno) (some e)

/-- The seek ends as it should. -/
def Exact (s : FsService σ φ) (fd : Word) (e : FileEntry) (offset : Word) (whence : BitVec 32) : Prop :=
  ∃ resp t, s.handleLseek fd offset whence = .ok (resp,t) ∧ Sought e offset whence resp (t.entry fd)

/-- The sum is in range, where it is not checked. -/
def Lands (fd : Word) (e : FileEntry) (offset : Word) (whence : BitVec 32) : Prop :=
  fd.toNat ≤ 2 ∨
    (whence = 1 → 0 ≤ e.offset.toNat + offset.toInt ∧ e.offset.toNat + offset.toInt < 2 ^ 63) ∧
      (whence = 2 → offset.toInt ≤ 0 → 0 ≤ e.size.toNat + offset.toInt)

/-- Adding a signed offset is exact and stays below 2^63 when the sum is in range. -/
theorem add_exact_iff {a : Word} (small : a.toNat < 2 ^ 63) (offset : Word) :
    ((a + offset).toNat : Int) = a.toNat + offset.toInt ∧ (a + offset).toNat < 2 ^ 63 ↔
      0 ≤ a.toNat + offset.toInt ∧ a.toNat + offset.toInt < 2 ^ 63 := by
  have bound := offset.isLt
  rw [BitVec.toNat_add,BitVec.toInt_eq_toNat_cond]
  split
  · omega
  · omega

variable {s : FsService σ φ} {fd offset : Word} {whence : BitVec 32} {e : FileEntry}

theorem exact_of_refused (live : s.entry fd = some e) (file : ¬ fd.toNat ≤ 2) {errno : Errno}
    (refused : seekTarget e offset whence = .error errno) : Exact s fd e offset whence := by
  refine ⟨.Err errno,s,?_,?_⟩
  · simp only [FsService.handleLseek,if_neg file,live,refused]
  · rw [live]
    exact .refused errno

/-- A seek that moves is exact when the new offset is what it should be. -/
theorem exact_of_moved_iff (live : s.entry fd = some e) (file : ¬ fd.toNat ≤ 2) {p : Word}
    (moved : seekTarget e offset whence = .ok p) :
    Exact s fd e offset whence ↔ ∃ b, base e whence = some b ∧ (p.toNat : Int) = b + offset.toInt ∧ p.toNat < 2 ^ 63 := by
  have sought : s.handleLseek fd offset whence = .ok (.Ok p,s.setEntry fd (some { e with offset := p })) := by
    simp only [FsService.handleLseek,if_neg file,live,moved]
  constructor
  · rintro ⟨resp,t,ran,ends⟩
    rw [sought] at ran
    cases ran
    rw [setEntry_entry live] at ends
    cases ends with
    | moved _ b from' sum small => exact ⟨b,from',sum,small⟩
  · rintro ⟨b,from',sum,small⟩
    refine ⟨_,_,sought,?_⟩
    rw [setEntry_entry live]
    exact .moved p b from' sum small

/-- A seek from the start refuses what is negative, so it is always exact. -/
theorem exact_start (live : s.entry fd = some e) (file : ¬ fd.toNat ≤ 2) : Exact s fd e offset 0 := by
  by_cases negative : offset.toInt < 0
  · have refused : seekTarget e offset 0 = .error (-22#32) := by rw [seekTarget,if_pos rfl,if_pos negative]
    exact exact_of_refused live file refused
  · have moved : seekTarget e offset 0 = .ok offset := by rw [seekTarget,if_pos rfl,if_neg negative]
    refine (exact_of_moved_iff live file moved).mpr ⟨0,rfl,?_⟩
    have bound := offset.isLt
    rw [BitVec.toInt_eq_toNat_cond] at negative ⊢
    split at negative
    · next low =>
      rw [if_pos low]
      omega
    · omega

/-- A seek from the current offset checks nothing. -/
theorem exact_current_iff (live : s.entry fd = some e) (file : ¬ fd.toNat ≤ 2) (bounded : Bounded e) :
    Exact s fd e offset 1 ↔ 0 ≤ e.offset.toNat + offset.toInt ∧ e.offset.toNat + offset.toInt < 2 ^ 63 := by
  have moved : seekTarget e offset 1 = .ok (e.offset + offset) := by simp [seekTarget]
  rw [exact_of_moved_iff live file moved,← add_exact_iff bounded.1 offset]
  constructor
  · rintro ⟨b,from',exact'⟩
    cases from'
    exact exact'
  · intro exact'
    exact ⟨_,rfl,exact'⟩

/-- A seek from the end refuses what is beyond it, but not what is before the start. -/
theorem exact_end_iff (live : s.entry fd = some e) (file : ¬ fd.toNat ≤ 2) (bounded : Bounded e) :
    Exact s fd e offset 2 ↔ (offset.toInt ≤ 0 → 0 ≤ e.size.toNat + offset.toInt) := by
  by_cases beyond : 0 < offset.toInt
  · have refused : seekTarget e offset 2 = .error (-22#32) := by simp [seekTarget,beyond]
    exact iff_of_true (exact_of_refused live file refused) fun most => by omega
  · have moved : seekTarget e offset 2 = .ok (e.size + offset) := by simp [seekTarget,beyond]
    have below := bounded.2
    rw [exact_of_moved_iff live file moved]
    constructor
    · rintro ⟨b,from',exact'⟩ _
      cases from'
      exact ((add_exact_iff bounded.2 offset).mp exact').1
    · intro least
      exact ⟨_,rfl,(add_exact_iff bounded.2 offset).mpr ⟨least (by omega),by omega⟩⟩

theorem exact_iff (live : s.entry fd = some e) (bounded : Bounded e) :
    Exact s fd e offset whence ↔ Lands fd e offset whence := by
  by_cases std : fd.toNat ≤ 2
  · refine iff_of_true ⟨_,s,by rw [FsService.handleLseek,if_pos std],?_⟩ (Or.inl std)
    rw [live]
    exact .refused _
  · rw [Lands,or_iff_right std]
    by_cases start : whence = 0
    · subst start
      exact iff_of_true (exact_start live std) (by simp)
    · by_cases current : whence = 1
      · subst current
        rw [exact_current_iff live std bounded]
        simp
      · by_cases last : whence = 2
        · subst last
          rw [exact_end_iff live std bounded]
          simp
        · have refused : seekTarget e offset whence = .error (-22#32) := by
            rw [seekTarget,if_neg start,if_neg current,if_neg last]
          exact iff_of_true (exact_of_refused live std refused) ⟨fun no => absurd no current,fun no => absurd no last⟩

/-! ## Sequences of seeks -/

/-- A seek with its descriptor, offset and whence. -/
def seek (s : FsService σ φ) (i : Word × Word × BitVec 32) : Except Fault (FsResponse × FsService σ φ) :=
  s.handleLseek i.1 i.2.1 i.2.2

/-- If the descriptor is live, the sum is in range. -/
def LandsIn (s : FsService σ φ) (i : Word × Word × BitVec 32) : Prop := ∀ e, s.entry i.1 = some e → Lands i.1 e i.2.1 i.2.2

def AllBounded (s : FsService σ φ) : Prop := ∀ fd e, s.entry fd = some e → Bounded e

/-- A seek leaves the service alone, or gives the descriptor the offset that it answers with. -/
theorem lseek_moves {resp : FsResponse} {t : FsService σ φ} (ran : s.handleLseek fd offset whence = .ok (resp,t)) :
    t = s ∨ ∃ e p, s.entry fd = some e ∧ resp = .Ok p ∧ t = s.setEntry fd (some { e with offset := p }) := by
  unfold FsService.handleLseek at ran
  split at ran
  · cases ran
    exact Or.inl rfl
  · split at ran
    · next e live =>
      split at ran
      · next p _ =>
        cases ran
        exact Or.inr ⟨e,p,live,rfl,rfl⟩
      · cases ran
        exact Or.inl rfl
    · cases ran
      exact Or.inl rfl

theorem seek_bounded {t : FsService σ φ} {i : Word × Word × BitVec 32} {resp : FsResponse} (bounded : AllBounded s)
    (lands : LandsIn s i) (ran : seek s i = .ok (resp,t)) : AllBounded t := by
  rcases lseek_moves ran with rfl | ⟨e,p,live,rfl,rfl⟩
  · exact bounded
  · obtain ⟨resp,t,sought,ends⟩ := (exact_iff live (bounded _ e live)).mpr (lands e live)
    have same := ran.symm.trans sought
    cases same
    rw [setEntry_entry live] at ends
    intro fd' e' live'
    have set : (s.setEntry i.1 (some { e with offset := p })).fdTable = s.fdTable.set i.1.toNat (some { e with offset := p }) := rfl
    rw [entry_set live set] at live'
    split at live'
    · cases live'
      refine ⟨?_,(bounded _ e live).2⟩
      cases ends with
      | moved _ _ _ _ small => exact small
    · exact bounded fd' e' live'

/-- For every live descriptor with offset and size below 2^63: a seek is exact just when the sum from the current
    offset lies in [0, 2^63) and the sum from the end is not negative. Sequences of such seeks keep all offsets
    below 2^63. -/
theorem seek_exact_iff (s : FsService σ φ) :
    (∀ fd e offset whence, s.entry fd = some e → Bounded e → (Exact s fd e offset whence ↔ Lands fd e offset whence)) ∧
    (AllBounded s → ∀ seeks resps t, Meets seek LandsIn s seeks → run seek s seeks = .ok (resps,t) → AllBounded t) := by
  refine ⟨fun fd e offset whence live bounded => exact_iff live bounded,fun bounded seeks resps t meets ran => ?_⟩
  exact run_invariant_meets (fun _ _ _ _ bounded lands ran => seek_bounded bounded lands ran) bounded meets ran

/-- An empty file at its front. -/
def emptyEntry : FileEntry := { path := rootPath, inode := 0, size := 0, offset := 0, flags := 0 }

/-- A service with this file open on descriptor 3. -/
def emptyFile : FsService Unit Unit :=
  { fs := EXT4FSImpl.new (), fdTable := [none,none,none,some emptyEntry], nextFd := 4, console := [] }

theorem emptyFile_bounded : AllBounded emptyFile := by
  intro fd e live
  have inside : fd.toNat < 4 := lookup_inside live
  unfold FsService.entry lookup at live
  generalize fd.toNat = n at live inside
  interval_cases n
  all_goals cases live
  exact ⟨by decide,by decide⟩

/-- Five bytes on, and two back. -/
theorem seek_exact_empty : (Exact emptyFile 3 emptyEntry 5 0 ↔ Lands 3 emptyEntry 5 0) ∧
    ∃ resps t, run seek emptyFile [(3,5,0),(3,-2,1)] = .ok (resps,t) ∧ AllBounded t := by
  have bounded : Bounded emptyEntry := emptyFile_bounded 3 emptyEntry rfl
  have meets : Meets seek LandsIn emptyFile [(3,5,0),(3,-2,1)] := by
    refine ⟨fun e live => ?_,fun resp t first => ?_⟩
    · exact Or.inr ⟨fun no => absurd no (by decide),fun no => absurd no (by decide)⟩
    · cases first
      refine ⟨fun e live => ?_,fun _ _ _ => trivial⟩
      cases live
      exact Or.inr ⟨fun _ => by decide,fun no => absurd no (by decide)⟩
  obtain ⟨resps,t,ran⟩ : ∃ resps t, run seek emptyFile [(3,5,0),(3,-2,1)] = .ok (resps,t) := ⟨_,_,rfl⟩
  exact ⟨(seek_exact_iff emptyFile).1 3 emptyEntry 5 0 rfl bounded,resps,t,ran,
    (seek_exact_iff emptyFile).2 emptyFile_bounded _ resps t meets ran⟩

/-- An empty file opened, and one byte back from its front: the answer is the position 2^64 - 1, and the offset is there. -/
theorem seek_before_front : ∃ s e t,
    (FsService.new [{ path := [0x2F#8,0x61#8], type := .EXT4_DE_REG_FILE, bytes := [] }]).handleOpenWithPath MemFs.memFs
      (ascii ['/','a']) 0 = .ok (.Ok 3,s) ∧
    s.entry 3 = some e ∧ Bounded e ∧ s.handleLseek 3 (-1) 1 = .ok (.Ok (-1),t) ∧
    t.entry 3 = some { e with offset := -1 } ∧ ¬ Exact s 3 e (-1) 1 := by
  refine ⟨_,_,_,rfl,rfl,⟨by decide,by decide⟩,rfl,rfl,?_⟩
  rintro ⟨resp,t,ran,ends⟩
  cases ran
  cases ends with
  | moved p b from' sum small => exact absurd small (by decide)

/-! ## The size -/

/-- What the library says of the sizes of its objects: `file_size` tells them, a read keeps them, and a write makes
    a file as long as the bytes written reach. -/
structure SizeLaws (X : Externs σ φ) (size : σ → φ → Nat) : Prop where
  reported : ∀ st f, size st f < 2 ^ 64 → (X.fileSize st f).1.toNat = size st f
  asked : ∀ st f, size (X.fileSize st f).2.1 (X.fileSize st f).2.2 = size st f
  read : ∀ (fs fs' : EXT4FSImpl σ φ) inode file offset buf n out, fs.stores inode = some file →
    fs.readAt X inode offset buf = .ok (n,out,fs') →
    ∃ file', fs'.stores inode = some file' ∧ size fs'.disk file' = size fs.disk file
  write : ∀ (fs fs' : EXT4FSImpl σ φ) inode file offset data n, fs.stores inode = some file →
    fs.writeAt X inode offset data = .ok (n,fs') →
    ∃ file', fs'.stores inode = some file' ∧ size fs'.disk file' = max (size fs.disk file) (offset.toNat + data.length)

/-- How many bytes the file behind a descriptor has. -/
def actualSize (size : σ → φ → Nat) (s : FsService σ φ) (fd : Word) : Option Nat :=
  (s.entry fd).bind fun e => (s.fs.stores e.inode).map (size s.fs.disk)

/-- The size answered, and where a seek to the end goes, is the size of the file. -/
def Current (size : σ → φ → Nat) (s : FsService σ φ) (fd : Word) : Prop :=
  ∃ p : Word, actualSize size s fd = some p.toNat ∧ s.handleFileSize fd = .ok (.Ok p,s) ∧
    ∃ t e, s.handleLseek fd 0 2 = .ok (.Ok p,t) ∧ t.entry fd = some e ∧ e.offset = p

/-- The requests on an open file. -/
inductive Access where
  | write (data : List Byte)
  | read (count : Word)
  | lseek (offset : Word) (whence : BitVec 32)

def access (X : Externs σ φ) (fd : Word) (s : FsService σ φ) : Access → Except Fault (FsResponse × FsService σ φ)
  | .write data => s.handleWriteWithData X fd data
  | .read count => s.handleRead X fd count
  | .lseek offset whence => s.handleLseek fd offset whence

/-- A write ends inside the file as it was opened. -/
def Stays (fd : Word) (s : FsService σ φ) : Access → Prop
  | .write data => ∀ e, s.entry fd = some e → e.offset.toNat + data.length ≤ e.size.toNat
  | _ => True

variable {X : Externs σ φ} {size : σ → φ → Nat} {t : FsService σ φ}

/-- The size is current just when the stored one is the file's. -/
theorem current_iff : Current size s fd ↔
    2 < fd.toNat ∧ ∃ e, s.entry fd = some e ∧ (s.fs.stores e.inode).map (size s.fs.disk) = some e.size.toNat := by
  constructor
  · rintro ⟨p,actual,asked,t,_,sought,_,_⟩
    obtain ⟨e,live,stored⟩ := Option.bind_eq_some_iff.mp actual
    have file : 2 < fd.toNat := by
      by_contra low
      rw [FsService.handleLseek,if_pos (by omega)] at sought
      cases sought
    simp only [FsService.handleFileSize,live,Except.ok.injEq,Prod.mk.injEq,FsResponse.Ok.injEq,and_true] at asked
    exact ⟨file,e,live,asked ▸ stored⟩
  · rintro ⟨file,e,live,stored⟩
    refine ⟨e.size,by rw [actualSize,live]; exact stored,by simp only [FsService.handleFileSize,live],
      s.setEntry fd (some { e with offset := e.size }),_,?_,setEntry_entry live _,rfl⟩
    have target : seekTarget e 0 2 = .ok e.size := by simp [seekTarget]
    simp only [FsService.handleLseek,if_neg (show ¬ fd.toNat ≤ 2 by omega),live,target]

/-- How long a request makes a file of `n` bytes. -/
def grown (e : FileEntry) (n : Nat) : Access → Nat
  | .write data => max n (e.offset.toNat + data.length)
  | _ => n

/-- A request leaves what the descriptor names and the stored size, and makes the file as long as it says. -/
theorem access_grows (laws : SizeLaws X size) (file : 2 < fd.toNat) (live : s.entry fd = some e) {n : Nat}
    (stored : (s.fs.stores e.inode).map (size s.fs.disk) = some n) {op : Access} {resp : FsResponse}
    (ran : access X fd s op = .ok (resp,t)) : ∃ e', t.entry fd = some e' ∧ e'.inode = e.inode ∧ e'.size = e.size ∧
      (t.fs.stores e.inode).map (size t.fs.disk) = some (grown e n op) := by
  obtain ⟨object,inSlot,long⟩ := Option.map_eq_some_iff.mp stored
  have notIn : fd ≠ 0 := by rintro rfl; exact absurd file (by decide)
  have notOut : ¬ (fd = 1 ∨ fd = 2) := by rintro (rfl | rfl) <;> exact absurd file (by decide)
  cases op with
  | write data =>
    simp only [access,FsService.handleWriteWithData,if_neg notIn,if_neg notOut,live,bind_ok_iff,Prod.exists,Except.ok.injEq,
      Prod.mk.injEq] at ran
    obtain ⟨written,fs',done,rfl,rfl⟩ := ran
    obtain ⟨object',inSlot',long'⟩ := laws.write _ _ _ _ _ _ _ inSlot done
    exact ⟨e,live,rfl,rfl,by rw [inSlot',Option.map_some,long',long,grown]⟩
  | read count =>
    simp only [access,FsService.handleRead,if_neg notIn,if_neg notOut,live,bind_ok_iff,Prod.exists,Except.ok.injEq,
      Prod.mk.injEq] at ran
    obtain ⟨_,_,got,buf,fs',done,rfl,rfl⟩ := ran
    obtain ⟨object',inSlot',long'⟩ := laws.read _ _ _ _ _ _ _ _ inSlot done
    refine ⟨{ e with offset := e.offset + got },setEntry_entry (s := { s with fs := fs' }) live _,rfl,rfl,?_⟩
    show (fs'.stores e.inode).map (size fs'.disk) = some n
    rw [inSlot',Option.map_some,long',long]
  | lseek offset whence =>
    rcases lseek_moves ran with rfl | ⟨e',p,live',rfl,rfl⟩
    · exact ⟨e,live,rfl,rfl,stored⟩
    · rw [live] at live'
      cases live'
      exact ⟨_,setEntry_entry live _,rfl,rfl,stored⟩

/-- From a current size on, the size is current after a request just when a write has stayed inside the file. -/
theorem access_current_iff (laws : SizeLaws X size) (current : Current size s fd) {op : Access} {resp : FsResponse}
    (ran : access X fd s op = .ok (resp,t)) : Current size t fd ↔ Stays fd s op := by
  obtain ⟨file,e,live,stored⟩ := current_iff.mp current
  obtain ⟨e',live',inode,long,after⟩ := access_grows laws file live stored ran
  have same : Current size t fd ↔ grown e e.size.toNat op = e.size.toNat := by
    rw [current_iff,live']
    constructor
    · rintro ⟨_,_,found,current⟩
      cases found
      rw [inode,after,long] at current
      exact Option.some.inj current
    · intro equal
      exact ⟨file,e',rfl,by rw [inode,after,long,equal]⟩
  rw [same]
  cases op with
  | write data =>
    simp only [grown,Stays,live,Option.some.injEq,forall_eq']
    omega
  | read count => exact iff_of_true rfl trivial
  | lseek offset whence => exact iff_of_true rfl trivial

theorem open_current (laws : SizeLaws X size) (c : Consistent s) {path : Str} {flags : BitVec 32}
    (opened : s.handleOpenWithPath X path flags = .ok (.Ok fd,t)) (small : ∀ n, actualSize size t fd = some n → n < 2 ^ 64) :
    Current size t fd := by
  unfold FsService.handleOpenWithPath at opened
  split at opened
  · cases opened
  · split at opened
    · next inode w fs' made =>
      simp only [bind_ok_iff,Except.ok.injEq,Prod.mk.injEq,FsResponse.Ok.injEq] at opened
      obtain ⟨table,grew,_,_,rfl,rfl⟩ := opened
      obtain ⟨disk,object,added⟩ := open_added X made
      obtain ⟨rfl,rfl⟩ := add_reported X added
      have entries := (c.toNumbered.opened (by decide) (by decide) grew
        { path := path, inode := inode, size := (X.fileSize disk object).1, offset := 0, flags := flags }).2.2
      have live := entries s.nextFd
      rw [if_pos rfl] at live
      have three := c.three
      have asked := laws.asked disk object
      refine current_iff.mpr ⟨by omega,_,live,?_⟩
      have long : size (X.fileSize disk object).2.1 (X.fileSize disk object).2.2 < 2 ^ 64 := by
        refine small _ ?_
        simp only [actualSize,FsService.entry,live,Option.bind_some,put_stores_self,Option.map_some,put_disk]
      rw [asked] at long
      simp only [put_stores_self,put_disk,Option.map_some,asked,laws.reported _ _ long]
    · cases opened

/-- A file is opened with its size. From a current size on, over any sequence of requests on the descriptor, the size is
    current after each just when every write stays inside the file as it was opened. -/
theorem size_current_iff (laws : SizeLaws X size) (fd : Word) :
    (∀ disk invs resps s path flags t, run (FsService.invoke X) (FsService.new disk) invs = .ok (resps,s) →
      s.handleOpenWithPath X path flags = .ok (.Ok fd,t) → (∀ n, actualSize size t fd = some n → n < 2 ^ 64) →
      Current size t fd) ∧
    ∀ s, Current size s fd → ∀ ops, Always (access X fd) (fun _ _ _ t => Current size t fd) s ops ↔
      Always (access X fd) (fun s op _ _ => Stays fd s op) s ops := by
  refine ⟨fun disk invs resps s path flags t ran opened small => ?_,fun s current ops => ?_⟩
  · exact open_current laws (run_consistent ran) opened small
  · exact always_iff (I := fun s => Current size s fd)
      (fun s op resp t current stays ran => (access_current_iff laws current ran).mpr stays)
      (fun s op resp t current ran => access_current_iff laws current ran) current

/-- The sizes of the file system in memory. -/
def memSize (disk : List MemFs.Node) (h : MemFs.Handle) : Nat := ((MemFs.content disk h).getD []).length

theorem splice_extends {buf bytes : List Byte} {pos : Nat} (inside : pos ≤ buf.length) :
    (splice buf pos bytes).length = max buf.length (pos + bytes.length) := by
  simp only [splice,List.length_append,List.length_take,List.length_drop]
  omega

/-- A seek of the file system in memory that goes through stays inside a file. -/
theorem mem_sought {disk : List MemFs.Node} {h : MemFs.Handle} {w : Word}
    (sought : unwrap (MemFs.memFs.fileSeek disk h offset 0#32).1 = .ok w) :
    ∃ c, MemFs.content disk h = some c ∧ offset.toNat ≤ c.length := by
  have unfolded : MemFs.memFs.fileSeek disk h offset 0#32 = MemFs.fileSeek disk h offset := rfl
  rw [unfolded,MemFs.fileSeek] at sought
  split at sought
  · next c shown =>
    split at sought
    · next inside => exact ⟨c,shown,inside⟩
    · cases sought
  · cases sought

theorem memSize_at {fs : EXT4FSImpl (List MemFs.Node) MemFs.Handle} {inode : Nat} {c : List Byte}
    (shown : MemFs.memFsView.at fs inode = some c) : ∃ h, fs.stores inode = some h ∧ memSize fs.disk h = c.length := by
  obtain ⟨h,inSlot,content⟩ := Option.bind_eq_some_iff.mp shown
  have same : MemFs.content fs.disk h = some c := content
  exact ⟨h,inSlot,by rw [memSize,same]; rfl⟩

theorem memLaws : SizeLaws MemFs.memFs memSize where
  reported disk h small := by
    show (BitVec.ofNat 64 (memSize disk h)).toNat = memSize disk h
    rw [BitVec.toNat_ofNat,Nat.mod_eq_of_lt small]
  asked disk h := rfl
  read fs fs' inode h offset buf n out inSlot done := by
    have parts := done
    simp only [EXT4FSImpl.readAt,inSlot,bind_ok_iff] at parts
    obtain ⟨_,sought,_⟩ := parts
    obtain ⟨c,shown,inside⟩ := mem_sought sought
    have content : MemFs.memFsView.at fs inode = some c := by simp only [FileView.at,inSlot,Option.bind_some]; exact shown
    obtain ⟨disk,file,ran,after⟩ := readAt_chunk MemFs.memFsView content inside buf
    rw [ran] at done
    cases done
    obtain ⟨h',inSlot',long⟩ := memSize_at after
    exact ⟨h',inSlot',by rw [long,memSize,shown]; rfl⟩
  write fs fs' inode h offset data n inSlot done := by
    have parts := done
    simp only [EXT4FSImpl.writeAt,inSlot,bind_ok_iff] at parts
    obtain ⟨_,sought,_⟩ := parts
    obtain ⟨c,shown,inside⟩ := mem_sought sought
    have content : MemFs.memFsView.at fs inode = some c := by simp only [FileView.at,inSlot,Option.bind_some]; exact shown
    obtain ⟨disk,file,ran,after⟩ := writeAt_splice MemFs.memFsView content inside data
    rw [ran] at done
    cases done
    obtain ⟨h',inSlot',long⟩ := memSize_at after
    exact ⟨h',inSlot',by rw [long,splice_extends inside,memSize,shown]; rfl⟩

/-- A disk with a file of five bytes. -/
def fiveDisk : List MemFs.Node := [{ path := [0x2F#8,0x61#8], type := .EXT4_DE_REG_FILE, bytes := [1,2,3,4,5] }]

/-- Two bytes read and two written over. -/
theorem size_current_five : ∃ t, (FsService.new fiveDisk).handleOpenWithPath MemFs.memFs (ascii ['/','a']) 0 = .ok (.Ok 3,t) ∧
    Current memSize t 3 ∧ Always (access MemFs.memFs 3) (fun _ _ _ t => Current memSize t 3) t [.read 2,.write [6,7]] := by
  obtain ⟨t,opened⟩ : ∃ t, (FsService.new fiveDisk).handleOpenWithPath MemFs.memFs (ascii ['/','a']) 0 = .ok (.Ok 3,t) := ⟨_,rfl⟩
  have laws := size_current_iff memLaws 3
  have current : Current memSize t 3 := by
    refine laws.1 fiveDisk [] [] _ _ _ t rfl opened fun n actual => ?_
    cases opened
    cases actual
    decide
  refine ⟨t,opened,current,(laws.2 t current _).mpr ?_⟩
  cases opened
  intro resp u first
  cases first
  refine ⟨trivial,fun resp v second => ⟨fun e live => ?_,trivial⟩⟩
  cases live
  decide

/-- Ten bytes written over the five: both answers are still 5. -/
theorem size_stale : SizeLaws MemFs.memFs memSize ∧ ∃ s t,
    (FsService.new fiveDisk).handleOpenWithPath MemFs.memFs (ascii ['/','a']) 0 = .ok (.Ok 3,s) ∧
    s.handleWriteWithData MemFs.memFs 3 (List.replicate 10 0) = .ok (.Ok 10,t) ∧ actualSize memSize t 3 = some 10 ∧
    t.handleFileSize 3 = .ok (.Ok 5,t) ∧ (∃ u, t.handleLseek 3 0 2 = .ok (.Ok 5,u)) ∧ ¬ Current memSize t 3 := by
  refine ⟨memLaws,_,_,rfl,rfl,rfl,rfl,⟨_,rfl⟩,?_⟩
  rintro ⟨p,actual,asked,_⟩
  cases asked
  cases actual

end Sel4Linux.Seeking
