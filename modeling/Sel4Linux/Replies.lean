import Sel4Linux.Files
import Sel4Linux.Requests

/-!
What the client reads out of the replies that carry data, when the announced
registers arrive over whatever its buffer held. The status of a file is written
as twenty bytes and read as five registers (`stat_decoded_iff`); a directory
listing is written behind the new offset and read in its place
(`getdents64_delivered_iff`).
-/
namespace Sel4Linux.Replies
open Sel4Linux.Bytes Sel4Linux.Utf8 Sel4Linux.Ipc Sel4Linux.Ext4 Sel4Linux.Service Sel4Linux.ServiceLoop
open Sel4Linux.Client Sel4Linux.Requests
set_option linter.unusedSimpArgs false

/-- The client's registers once a reply has arrived over `old`. -/
def delivered (reply : Reply) (old : IpcBuffer) : IpcBuffer := transfer reply.1 reply.2 old

theorem readMr_delivered {n : Nat} (small : n < 128) (ib old : IpcBuffer) (k : Nat) :
    (delivered (replyWord n,ib) old).readMr k = if k < n then ib.readMr k else old.readMr k := by
  simp only [delivered,replyWord,readMr_transfer,infoLength_ofNat small]

/-- The registers of a reply that carries bytes from MR2 on. -/
theorem delivered_data (data : List Byte) (short : data.length ≤ 944) (ib old : IpcBuffer) :
    ∃ m, delivered (replyWord (writeResponse ib (.OkWithData data)).1,(writeResponse ib (.OkWithData data)).2) old = m ∧
      m.readMr 0 = ServiceLoop.RESP_OK ∧ m.readMr 1 = BitVec.ofNat 64 data.length ∧
      (∀ i < mrsFor data.length, m.readMr (2 + i) = packWord data i) ∧
      ∀ k, 2 + mrsFor data.length ≤ k → m.readMr k = old.readMr k := by
  have most : mrsFor data.length ≤ 118 := mrsFor_le (by omega)
  have total : (writeResponse ib (.OkWithData data)).1 = 2 + mrsFor data.length := rfl
  refine ⟨_,rfl,?_,?_,fun i low => ?_,fun k high => ?_⟩
  · rw [readMr_delivered (by omega),total,if_pos (by omega),writeResponse_mr0]; rfl
  · rw [readMr_delivered (by omega),total,if_pos (by omega),writeResponse_mr1]; rfl
  · rw [readMr_delivered (by omega),total,if_pos (by omega)]
    simp only [writeResponse,encodeDataToMrs,readMr_packMrs]
    rw [if_pos (by unfold ServiceLoop.DATA_MR_START IPC_BUFFER_MSG_REGS; omega),ServiceLoop.DATA_MR_START,
      Nat.add_sub_cancel_left]
  · rw [readMr_delivered (by omega),total,if_neg (by omega)]

/-! ## File status -/

/-- Two halves of a word, the high one first. -/
def joinHalves (hi lo : BitVec 32) : Word := hi.setWidth 64 <<< 32 ||| lo.setWidth 64

theorem joinHalves_lo (hi lo : BitVec 32) : (joinHalves hi lo).setWidth 32 = lo := by
  apply BitVec.eq_of_getLsbD_eq
  intro i low
  simp [joinHalves,low,show i < 64 by omega]

theorem joinHalves_hi (hi lo : BitVec 32) : (joinHalves hi lo >>> 32).setWidth 32 = hi := by
  apply BitVec.eq_of_getLsbD_eq
  intro i low
  simp [joinHalves,low,show 32 + i < 64 by omega]

theorem joinHalves_injective {hi lo hi' lo' : BitVec 32} : joinHalves hi lo = joinHalves hi' lo' ↔ hi = hi' ∧ lo = lo' := by
  constructor
  · intro same
    exact ⟨by rw [← joinHalves_hi hi lo,same,joinHalves_hi],by rw [← joinHalves_lo hi lo,same,joinHalves_lo]⟩
  · rintro ⟨rfl,rfl⟩; rfl

theorem joinHalves_self (w : Word) : joinHalves ((w >>> 32).setWidth 32) (w.setWidth 32) = w := by
  apply BitVec.eq_of_getLsbD_eq
  intro i inside
  by_cases low : i < 32
  · simp [joinHalves,low,inside]
  · simp [joinHalves,low,inside,show i - 32 < 32 by omega,show 32 + (i - 32) = i by omega]

/-- Two little-endian halves in a row make one register. -/
theorem packWord_halves {data : List Byte} {i : Nat} {hi lo : BitVec 32}
    (first : ∀ j < 4, data.getD (i * 8 + j) 0 = byteAt (lo.setWidth 64) j)
    (second : ∀ j < 4, data.getD (i * 8 + 4 + j) 0 = byteAt (hi.setWidth 64) j) : packWord data i = joinHalves hi lo := by
  apply word_ext
  intro j inside
  rw [byteAt_packWord _ _ _ inside]
  apply BitVec.eq_of_getLsbD_eq
  intro k low
  by_cases front : j < 4
  · rw [first j front,byteAt_getLsbD _ _ _ low,byteAt_getLsbD _ _ _ low]
    simp [joinHalves,show j * 8 + k < 32 by omega,show j * 8 + k < 64 by omega]
  · have byte := second (j - 4) (by omega)
    rw [show i * 8 + 4 + (j - 4) = i * 8 + j by omega] at byte
    rw [byte,byteAt_getLsbD _ _ _ low,byteAt_getLsbD _ _ _ low]
    simp [joinHalves,show ¬ j * 8 + k < 32 by omega,show j * 8 + k < 64 by omega,show (j - 4) * 8 + k < 64 by omega,
      show j * 8 + k - 32 = (j - 4) * 8 + k by omega,BitVec.getLsbD_of_ge lo _ (show 32 ≤ j * 8 + k by omega)]

/-- The registers in which the twenty bytes of a status travel. -/
theorem packWord_statBytes (st : Stat) :
    packWord (statBytes st) 0 = joinHalves (st.size.setWidth 32) st.mode ∧
    packWord (statBytes st) 1 = joinHalves (st.ino.setWidth 32) ((st.size >>> 32).setWidth 32) ∧
    packWord (statBytes st) 2 = joinHalves 0 st.nlink := by
  refine ⟨packWord_halves ?_ ?_,packWord_halves ?_ ?_,packWord_halves ?_ ?_⟩
  all_goals
    intro j low
    interval_cases j <;> rfl

/-- When the five registers that the client takes for mode, size, inode number and link count
    are these: the registers hold the byte count, the first sixteen bytes, and a stale word. -/
def StatDecodes (st : Stat) (stale : Word) : Prop :=
  st.mode = 20 ∧ st.size.setWidth 32 = 20#32 ∧
    (st.size >>> 32).setWidth 32 ||| 20#32 = (st.size >>> 32).setWidth 32 ∧
    st.ino = st.nlink.setWidth 64 ∧ stale.setWidth 32 = st.nlink

instance (st : Stat) (stale : Word) : Decidable (StatDecodes st stale) := by
  unfold StatDecodes; infer_instance

variable {σ φ ω : Type} {X : Externs σ φ}

/-- What the client makes of a reply to `stat`. -/
theorem stat_replying (c : Lcl ω) {path : Str} (fits : path.len ≤ MAX_PATH_IPC) (world : ω) {m : IpcBuffer}
    (ok : m.readMr 0 = Client.RESP_OK) :
    c.stat (replying (world,m)) path =
      .ok (.ok ((m.readMr 1).setWidth 32,(m.readMr 3 <<< 32) ||| m.readMr 2,m.readMr 4,(m.readMr 5).setWidth 32),
        replied c (announce (pathMrs path) (pathRequest c.ib REQ_STAT path 0)) world m) := by
  rw [Lcl.stat,pathCall_eq _ c fits]
  simp only [replying,Runs.ok_bind,answer,ok,if_true]
  rfl

/-- The size that the client puts together has the low half in both places. -/
theorem decoded_size (hi lo mode ino : BitVec 32) :
    joinHalves ino hi <<< 32 ||| joinHalves lo mode = joinHalves (hi ||| lo) mode := by
  apply BitVec.eq_of_getLsbD_eq
  intro i inside
  by_cases low : i < 32
  · simp [joinHalves,low]
  · simp [joinHalves,low,inside,show i - 32 < 32 by omega,show i - 32 < 64 by omega,Bool.or_assoc]

/-- The status that the service reports for a path reaches the client in exactly these cases. -/
theorem stat_decoded_iff {s : FsService σ φ} {ib : IpcBuffer} {path : Str}
    (asked : dispatch ib = .ok (some (.statWithPath path))) (named : path.isEmpty = false) {inode : Nat} {size : Word}
    {fs fs' : EXT4FSImpl σ φ} (opened : s.fs.open X path 0#32 = (.ok (inode,size),fs))
    (closed : (fs.stat X inode).2.close X inode = .ok fs') (c : Lcl ω) (fits : path.len ≤ MAX_PATH_IPC) (world : ω)
    (old : IpcBuffer) :
    ∃ reply t, serviceRound X s ib = .ok (reply,t) ∧
      ((∃ c', c.stat (replying (world,delivered reply old)) path =
          .ok (.ok ((fs.stat X inode).1.mode,(fs.stat X inode).1.size,(fs.stat X inode).1.ino,(fs.stat X inode).1.nlink),c')) ↔
        StatDecodes (fs.stat X inode).1 (old.readMr 5)) := by
  have handled : s.invoke X (.statWithPath path) = .ok (.OkWithData (statBytes (fs.stat X inode).1),{ s with fs := fs' }) := by
    simp [FsService.invoke,FsService.handleStatWithPath,named,opened,closed]
  refine ⟨_,_,(serviceRound_iff X asked).mpr ⟨_,handled,rfl⟩,?_⟩
  generalize (fs.stat X inode).1 = st
  have length : (statBytes st).length = 20 := rfl
  have regs : mrsFor (statBytes st).length = 3 := by rw [length]; rfl
  obtain ⟨m,same,ok,count,words,stale⟩ := delivered_data (statBytes st) (by omega) ib old
  obtain ⟨first,second,third⟩ := packWord_statBytes st
  have mr2 : m.readMr 2 = joinHalves (st.size.setWidth 32) st.mode := (words 0 (by omega)).trans first
  have mr3 : m.readMr 3 = joinHalves (st.ino.setWidth 32) ((st.size >>> 32).setWidth 32) := (words 1 (by omega)).trans second
  have mr4 : m.readMr 4 = joinHalves 0 st.nlink := (words 2 (by omega)).trans third
  have mr5 : m.readMr 5 = old.readMr 5 := stale 5 (by omega)
  have links : joinHalves 0 st.nlink = st.nlink.setWidth 64 := by simp [joinHalves]
  have size : joinHalves ((st.size >>> 32).setWidth 32 ||| st.size.setWidth 32) st.mode = st.size ↔
      (st.size >>> 32).setWidth 32 ||| st.size.setWidth 32 = (st.size >>> 32).setWidth 32 ∧
        st.mode = st.size.setWidth 32 := by
    rw [← joinHalves_injective,joinHalves_self]
  rw [same,stat_replying c fits world ok,count,length,mr2,mr3,mr4,mr5,decoded_size,links]
  simp only [Except.ok.injEq,Prod.mk.injEq,exists_and_left,exists_eq',and_true,size,StatDecodes]
  constructor
  · rintro ⟨mode,⟨hi,lo⟩,ino,nlink⟩
    have twenty : st.mode = 20#32 := mode.symm
    rw [twenty] at lo
    exact ⟨twenty,lo.symm,by rwa [← lo] at hi,ino.symm,nlink⟩
  · rintro ⟨mode,lo,hi,ino,nlink⟩
    exact ⟨mode.symm,⟨by rw [lo]; exact hi,by rw [lo]; exact mode⟩,ino.symm,nlink⟩

/-- A path of two bytes. -/
def aPath : Str := ascii ['/','a']

/-- A service over a disk with one file of five bytes. -/
def served : FsService (List MemFs.Node) MemFs.Handle :=
  FsService.new [{ path := aPath.bytes, type := .EXT4_DE_REG_FILE, bytes := [1,2,3,4,5] }]

/-- The open objects once that file is open. -/
def fileOpened : EXT4FSImpl (List MemFs.Node) MemFs.Handle := (served.fs.open MemFs.memFs aPath 0#32).2

def statRequest : IpcBuffer := pathRequest IpcBuffer.new REQ_STAT aPath 0

theorem stat_decoded_file : ∃ reply t, serviceRound MemFs.memFs served statRequest = .ok (reply,t) ∧
    ((∃ c', oneOpen.stat (replying ((),delivered reply IpcBuffer.new)) aPath =
        .ok (.ok ((fileOpened.stat MemFs.memFs 0).1.mode,(fileOpened.stat MemFs.memFs 0).1.size,
          (fileOpened.stat MemFs.memFs 0).1.ino,(fileOpened.stat MemFs.memFs 0).1.nlink),c')) ↔
      StatDecodes (fileOpened.stat MemFs.memFs 0).1 (IpcBuffer.new.readMr 5)) :=
  stat_decoded_iff (by decide) (by decide)
    (show served.fs.open MemFs.memFs aPath 0#32 = (.ok (0,5),fileOpened) from Prod.ext (by decide) rfl) rfl oneOpen (by decide) ()
    IpcBuffer.new

/-- A regular file of five bytes is read as mode 20 and a size of more than 21 gigabytes. -/
theorem stat_garbled :
    (fileOpened.stat MemFs.memFs 0).1 = { ino := 0, size := 5, mode := 0o100644, nlink := 1, blksize := 0x200 } ∧
      ∃ reply t, serviceRound MemFs.memFs served statRequest = .ok (reply,t) ∧
        (∃ c', oneOpen.stat (replying ((),delivered reply IpcBuffer.new)) aPath = .ok (.ok (20,0x5000081A4#64,1,0),c')) ∧
        ¬ ∃ c', oneOpen.stat (replying ((),delivered reply IpcBuffer.new)) aPath = .ok (.ok (0o100644,5,0,1),c') := by
  obtain ⟨reply,t,round,c₁,decoded⟩ : ∃ reply t, serviceRound MemFs.memFs served statRequest = .ok (reply,t) ∧
      ∃ c₁, oneOpen.stat (replying ((),delivered reply IpcBuffer.new)) aPath = .ok (.ok (20,0x5000081A4#64,1,0),c₁) :=
    ⟨_,_,rfl,_,rfl⟩
  refine ⟨by decide,reply,t,round,⟨c₁,decoded⟩,?_⟩
  rintro ⟨c',same⟩
  rw [decoded] at same
  simp at same

/-! ## Directory entries -/

/-- The registers of a reply that carries bytes behind a word in MR2. -/
theorem delivered_data2 (data : List Byte) (short : data.length ≤ 944) (extra : Word) (ib old : IpcBuffer) :
    ∃ m, delivered (replyWord (writeResponse ib (.OkWithData2 data extra)).1,(writeResponse ib (.OkWithData2 data extra)).2) old =
        m ∧ m.readMr 0 = Client.RESP_OK ∧ m.readMr 1 = BitVec.ofNat 64 data.length ∧ m.readMr 2 = extra := by
  have most : mrsFor data.length ≤ 118 := mrsFor_le (by omega)
  have total : (writeResponse ib (.OkWithData2 data extra)).1 = 3 + mrsFor data.length := rfl
  refine ⟨_,rfl,?_,?_,?_⟩
  · rw [readMr_delivered (by omega),total,if_pos (by omega),writeResponse_mr0]; rfl
  · rw [readMr_delivered (by omega),total,if_pos (by omega),writeResponse_mr1]; rfl
  · rw [readMr_delivered (by omega),total,if_pos (by omega)]
    simp [writeResponse,encodeDataToMrs,readMr_packMrs,readMr_writeMr,IPC_BUFFER_MSG_REGS]

/-- What the client makes of a reply to `getdents64` that has bytes. -/
theorem getdents64_replying (c : Lcl ω) {fd : Word} {entry : FdEntry} (live : c.client.entry fd = some entry)
    (buf : List Byte) (world : ω) {m : IpcBuffer} (ok : m.readMr 0 = Client.RESP_OK) (short : (m.readMr 1).toNat ≤ 944) :
    ∃ c', c.getdents64 (replying (world,m)) fd buf =
      .ok ((.ok (m.readMr 1),(copyOut buf (unpackMrs m 2 (m.readMr 1).toNat) (m.readMr 1)).2),c') := by
  have room : (m.readMr 1).toNat ≤ Client.HEAP_SIZE := heap_room (by omega)
  refine ⟨replied c (announce 5 (header c.ib REQ_GETDENTS64 entry.remoteFd 0
    (BitVec.ofNat 64 (min buf.length MAX_DATA_IPC)))) world m,?_⟩
  rw [Lcl.getdents64,fdCall_eq _ c live]
  simp only [replying,Runs.ok_bind,answer,ok,true_and,if_true]
  by_cases some : 0 < m.readMr 1
  · simp only [if_pos some]
    simp [decodeBytesFromMrs,allocate,room,replied,Client.DATA_MR_START]
  · have zero : m.readMr 1 = 0 := by
      simpa using some
    simp [zero,copyOut]

/-- The record that a listing has to place first when it goes on from `offset`. -/
def nextRecord (names : List (List Byte)) (types : List InodeTypes) (offset : Word) : Option (List Byte × InodeTypes) :=
  ((names.zip types).drop offset.toNat).head?

/-- Nothing is left to list, or the next record is longer than the request. -/
def NothingListed (names : List (List Byte)) (types : List InodeTypes) (offset : Word) (count : Nat) : Prop :=
  ∀ record, nextRecord names types offset = some record → count < direntAligned record.1

/-- An offset that has gone on within a listing is not 0. -/
private theorem offset_ne_zero {offset : Word} {n total : Nat} (within : offset.toNat + (n + 1) ≤ total) (most : total < 2 ^ 63) :
    offset + BitVec.ofNat 64 (n + 1) ≠ 0 := by
  intro zero
  have sum := congrArg BitVec.toNat zero
  rw [BitVec.toNat_add,BitVec.toNat_ofNat] at sum
  simp only [BitVec.ofNat_eq_ofNat,BitVec.toNat_ofNat] at sum
  omega

/-- A listing whose first record is too long has no bytes. -/
private theorem direntLoop_stops (entries : List (List Byte × InodeTypes)) (buf : List Byte) (offset : Word)
    (long : ∀ record, entries.head? = some record → buf.length < direntAligned record.1) :
    (direntLoop entries buf 0 offset).2.1 = 0 := by
  cases entries with
  | nil => rfl
  | cons record rest =>
    have first := long record rfl
    rw [direntLoop,if_pos (by omega)]

/-- A listing reaches the caller's buffer as the service produced it only when it is empty. -/
theorem getdents64_delivered_iff {s : FsService σ φ} {ib : IpcBuffer} {fd : Word} (buf : List Byte) (entry : FileEntry)
    {file : φ} {names : List (List Byte)} {types : List InodeTypes}
    (asked : dispatch ib = .ok (some (.request (.Getdents64 fd 0 (BitVec.ofNat 64 (min buf.length MAX_DATA_IPC))))))
    (opened : s.entry fd = some entry) (stored : s.fs.stores entry.inode = some file)
    (listed : (X.lwext4DirEntries s.fs.disk file).1 = .ok (names,types)) (c : Lcl ω) {localFd : Word} {localEntry : FdEntry}
    (live : c.client.entry localFd = some localEntry) (world : ω) (old : IpcBuffer) :
    ∃ rlen newOffset filled fs, s.fs.getdents64 X entry.inode entry.offset (List.replicate (min buf.length MAX_DATA_IPC) 0) =
        .ok (rlen,newOffset,filled,fs) ∧ rlen ≤ min buf.length MAX_DATA_IPC ∧
      ∃ reply t, serviceRound X s ib = .ok (reply,t) ∧
        ((∃ buf' c', c.getdents64 (replying (world,delivered reply old)) localFd buf =
            .ok ((.ok (BitVec.ofNat 64 rlen),buf'),c') ∧ buf'.take rlen = filled.take rlen) ↔
          NothingListed names types entry.offset (min buf.length MAX_DATA_IPC)) := by
  obtain ⟨count,isCount⟩ : ∃ count, min buf.length MAX_DATA_IPC = count := ⟨_,rfl⟩
  rw [isCount] at asked ⊢
  have most : count ≤ 944 := by simp only [MAX_DATA_IPC,Client.DATA_MR_START] at isCount; omega
  have counted : (BitVec.ofNat 64 count).toNat = count := by simp; omega
  have zeros : (List.replicate count (0 : Byte)).length = count := List.length_replicate
  obtain ⟨entries,isEntries⟩ : ∃ entries, (names.zip types).drop entry.offset.toNat = entries := ⟨_,rfl⟩
  obtain ⟨n,inside,next,_,within,length,_⟩ := direntLoop_spec entries (List.replicate count 0) 0 entry.offset (by omega)
  obtain ⟨filled,rlen,newOffset,looped⟩ : ∃ filled rlen newOffset,
      direntLoop entries (List.replicate count 0) 0 entry.offset = (filled,rlen,newOffset) := ⟨_,_,_,rfl⟩
  rw [looped] at next within length
  simp only at next within length
  have produced : ∃ fs, s.fs.getdents64 X entry.inode entry.offset (List.replicate count 0) =
      .ok (rlen,newOffset,filled,fs) := by
    refine ⟨s.fs.put (X.lwext4DirEntries s.fs.disk file).2.1 entry.inode (some (X.lwext4DirEntries s.fs.disk file).2.2),?_⟩
    simp only [EXT4FSImpl.getdents64,stored,listed,unwrap,Runs.ok_bind,isEntries,looped]
  obtain ⟨fs,produced⟩ := produced
  refine ⟨rlen,newOffset,filled,fs,produced,by omega,?_⟩
  have handled : s.invoke X (.request (.Getdents64 fd 0 (BitVec.ofNat 64 count))) =
      .ok (.OkWithData2 (filled.take rlen) newOffset,
        { s with fs := fs }.setEntry fd (some { entry with offset := newOffset })) := by
    have room : count ≤ Service.HEAP_SIZE := heap_room most
    simp only [FsService.invoke,FsService.handleRequest,FsService.handleGetdents64,opened,counted,allocate,if_pos room,
      Runs.ok_bind,produced]
  refine ⟨_,_,(serviceRound_iff X asked).mpr ⟨_,handled,rfl⟩,?_⟩
  have cut : (filled.take rlen).length = rlen := by simp; omega
  obtain ⟨m,same,ok,mr1,mr2⟩ := delivered_data2 (filled.take rlen) (by omega) newOffset ib old
  rw [cut] at mr1
  have bytes : (m.readMr 1).toNat = rlen := by rw [mr1]; simp; omega
  rw [same]
  obtain ⟨c',copied⟩ := getdents64_replying c live buf world ok (by omega)
  rw [bytes] at copied
  have arrived : (copyOut buf (unpackMrs m 2 rlen) (m.readMr 1)).2.take rlen = unpackMrs m 2 rlen := by
    have all : min (min rlen buf.length) (unpackMrs m 2 rlen).length = rlen := by rw [unpackMrs_length]; omega
    simp only [copyOut,bytes,all]
    rw [List.take_left' (by simp),List.take_of_length_le (by simp)]
  rw [copied,← mr1]
  constructor
  · rintro ⟨buf',_,same',front⟩ record first
    simp only [Except.ok.injEq,Prod.mk.injEq,true_and] at same'
    obtain ⟨rfl,_⟩ := same'
    rw [arrived] at front
    by_contra fits
    rw [nextRecord,isEntries] at first
    obtain ⟨rest,isRest⟩ := List.head?_eq_some_iff.mp first
    obtain ⟨name,type⟩ := record
    change ¬ count < direntAligned name at fits
    obtain ⟨k,more,moved,least,_,_,ino⟩ :=
      direntLoop_cons type rest entry.offset (show direntAligned name ≤
        (List.replicate count (0 : Byte)).length by omega)
    rw [← isRest,looped] at moved least ino
    simp only at moved least ino
    -- The first word that the client decodes is the new offset, the first word produced is 0.
    have zero : newOffset = 0 := by
      apply word_ext
      intro j low
      have byte := congrArg (fun l => l[j]?) front
      simp only [unpackMrs_getElem? m 2 rlen j (by omega),List.getElem?_take,if_pos (show j < rlen by omega),ino j low,
        show j / 8 = 0 by omega,show j % 8 = j by omega,Nat.add_zero,mr2,Option.some.injEq] at byte
      rw [byte]
      interval_cases j <;> rfl
    have some : entries.length = rest.length + 1 := by rw [isRest]; rfl
    have total : entries.length = (names.zip types).length - entry.offset.toNat := by rw [← isEntries,List.length_drop]
    have most : (names.zip types).length < 2 ^ 63 := by
      have := X.dirEntries_length s.fs.disk file names types listed
      rw [List.length_zip]; omega
    exact offset_ne_zero (by omega) most (moved.symm.trans zero)
  · intro nothing
    have none : rlen = 0 := by
      have stops := direntLoop_stops entries (List.replicate count 0) entry.offset (by
        intro record first
        rw [zeros]
        exact nothing record (by rw [nextRecord,isEntries]; exact first))
      rw [looped] at stops
      exact stops
    subst none
    exact ⟨_,c',rfl,by simp⟩

/-- The entry of the root directory. -/
def rootEntry : FileEntry := { path := rootPath, inode := 0, size := 0, offset := 0, flags := 0 }

/-- A service with the root directory open on descriptor 3. -/
def rootOpened : FsService (List MemFs.Node) MemFs.Handle :=
  { fs := ((EXT4FSImpl.new [{ path := rootPath.bytes, type := .EXT4_DE_DIR, bytes := [] }]).open MemFs.memFs rootPath 0#32).2,
    fdTable := [none,none,none,some rootEntry], nextFd := 4, console := [] }

/-- The request for `len` bytes of its listing. -/
def listRequest (len : Nat) : IpcBuffer := header IpcBuffer.new REQ_GETDENTS64 3 0 (BitVec.ofNat 64 (min len MAX_DATA_IPC))

theorem getdents64_delivered_root : ∃ rlen newOffset filled fs,
    rootOpened.fs.getdents64 MemFs.memFs 0 0 (List.replicate (min 8 MAX_DATA_IPC) 0) = .ok (rlen,newOffset,filled,fs) ∧
    rlen ≤ min 8 MAX_DATA_IPC ∧
      ∃ reply t, serviceRound MemFs.memFs rootOpened (listRequest 8) = .ok (reply,t) ∧
        ((∃ buf' c', oneOpen.getdents64 (replying ((),delivered reply IpcBuffer.new)) 3 (List.replicate 8 0) =
            .ok ((.ok (BitVec.ofNat 64 rlen),buf'),c') ∧ buf'.take rlen = filled.take rlen) ↔
          NothingListed [[0x2E#8],[0x2E#8,0x2E#8],[0x2F#8]] [.EXT4_DE_REG_FILE,.EXT4_DE_REG_FILE,.EXT4_DE_REG_FILE] 0
            (min 8 MAX_DATA_IPC)) :=
  getdents64_delivered_iff (List.replicate 8 0) rootEntry (by decide) (show rootOpened.entry 3 = _ by decide)
    (show rootOpened.fs.stores 0 = some { path := rootPath.bytes, type := .EXT4_DE_DIR, pos := 0 } by decide) (by decide) oneOpen
    oneOpen_live () IpcBuffer.new

set_option maxRecDepth 8000 in
/-- The root's own entry, listed into 300 bytes: the record starts with byte 0, the caller gets byte 1 there. -/
theorem getdents64_shifted : ∃ newOffset filled fs,
    rootOpened.fs.getdents64 MemFs.memFs 0 0 (List.replicate 300 0) = .ok (288,newOffset,filled,fs) ∧
      ∃ reply t, serviceRound MemFs.memFs rootOpened (listRequest 300) = .ok (reply,t) ∧
        ∃ buf' c', oneOpen.getdents64 (replying ((),delivered reply IpcBuffer.new)) 3 (List.replicate 300 0) =
            .ok ((.ok 288,buf'),c') ∧ filled[0]? = some 0 ∧ buf'[0]? = some 1 :=
  ⟨_,_,_,rfl,_,_,rfl,_,_,rfl,by decide +kernel,by decide +kernel⟩

end Sel4Linux.Replies
