import Sel4Linux.Files
import Sel4Linux.SystemHeaps

/-!
Reads in a row on one descriptor, from the client's call to the library and
back. Each returns the next bytes of the file, as many as the buffer, a reply
and the file have, and none of them is lost or repeated while other requests go
in between, as long as both heaps have room for every one of them
(`sequential_reads_iff`).
-/
namespace Sel4Linux.Reading
open Sel4Linux.Bytes Sel4Linux.Utf8 Sel4Linux.Ipc Sel4Linux.Ext4 Sel4Linux.FdTable Sel4Linux.Service Sel4Linux.ServiceLoop
open Sel4Linux.Files
open Sel4Linux.Client Sel4Linux.Requests Sel4Linux.Replies Sel4Linux.Descriptors Sel4Linux.System Sel4Linux.Runs
open Sel4Linux.Metered Sel4Linux.HeapUse Sel4Linux.ClientHeap Sel4Linux.ServiceHeap Sel4Linux.SystemHeaps
set_option linter.unusedSimpArgs false

/-! ## What the reads should return -/

/-- The byte count of a read into `buf` from `offset`, in a file of `size` bytes. -/
def readCount (size offset : Nat) (buf : List Byte) : Nat := min (min buf.length 944) (size - offset)

/-- The byte counts of reads in a row. -/
def counts (size : Nat) : Nat → List (List Byte) → List Nat
  | _, [] => []
  | offset, buf :: rest => readCount size offset buf :: counts size (offset + readCount size offset buf) rest

/-- The bytes that reads in a row give. -/
def pieces (c : List Byte) : Nat → List (List Byte) → List (List Byte)
  | _, [] => []
  | offset, buf :: rest =>
    chunk c offset (min buf.length 944) :: pieces c (offset + readCount c.length offset buf) rest

/-- What a read returns that gives these bytes. -/
def gives (buf piece : List Byte) : OpResult :=
  .data (.ok (BitVec.ofNat 64 piece.length)) (piece ++ buf.drop piece.length)

theorem chunk_count (c : List Byte) (offset : Nat) (buf : List Byte) :
    (chunk c offset (min buf.length 944)).length = readCount c.length offset buf := chunk_length c offset _

theorem pieces_lengths (c : List Byte) (offset : Nat) (bufs : List (List Byte)) :
    (pieces c offset bufs).map List.length = counts c.length offset bufs := by
  induction bufs generalizing offset with
  | nil => rfl
  | cons buf rest ih => rw [pieces,counts,List.map_cons,ih,chunk_count]

/-- The pieces follow each other without a gap. -/
theorem take_append_pieces (c : List Byte) (offset : Nat) (bufs : List (List Byte)) :
    c.take offset ++ (pieces c offset bufs).flatten = c.take (offset + (counts c.length offset bufs).sum) := by
  induction bufs generalizing offset with
  | nil => simp [pieces,counts]
  | cons buf rest ih =>
    have first : c.take offset ++ chunk c offset (min buf.length 944) = c.take (offset + readCount c.length offset buf) := by
      rw [take_append_chunk]
      unfold readCount
      by_cases inside : min buf.length 944 ≤ c.length - offset
      · rw [Nat.min_eq_left inside]
      · rw [List.take_of_length_le (by omega),List.take_of_length_le (by omega)]
    rw [pieces,counts,List.flatten_cons,List.sum_cons,← List.append_assoc,first,ih,Nat.add_assoc]

theorem counts_inside (size offset : Nat) (bufs : List (List Byte)) (inside : offset ≤ size) :
    offset + (counts size offset bufs).sum ≤ size := by
  induction bufs generalizing offset with
  | nil => simpa [counts]
  | cons buf rest ih =>
    have later := ih (offset + readCount size offset buf) (by unfold readCount; omega)
    rw [counts,List.sum_cons]
    omega

/-! ## One read -/

variable {σ φ : Type} {X : Externs σ φ} (V : FileView X)

/-- What the object behind a descriptor of the service shows. -/
def shows (s : Lcl (Server σ φ)) (fd : Word) : Option (List Byte) :=
  (s.world.service.entry fd).bind fun e => V.at s.world.service.fs e.inode

/-- A client in agreement with its service, whose descriptor `fd` is at `offset` of a file `c`. -/
structure Positioned (s : Lcl (Server σ φ)) (fd : Word) (c : List Byte) (offset : Nat) : Prop where
  agree : Agree s
  entry : ∃ e, s.world.service.entry fd = some e ∧ e.offset = BitVec.ofNat 64 offset
  shown : shows V s fd = some c
  inside : offset ≤ c.length

/-- What the client makes of a reply that carries bytes, when it has room for them. -/
theorem read_replying {ω : Type} (c : Lcl ω) {fd : Word} {entry : FdEntry} (live : c.client.entry fd = some entry)
    (file : 3 ≤ fd.toNat) (buf : List Byte) {data : List Byte} (world : ω) {m : IpcBuffer} (ok : m.readMr 0 = Client.RESP_OK)
    (count : m.readMr 1 = BitVec.ofNat 64 data.length) (words : ∀ i < mrsFor data.length, m.readMr (2 + i) = packWord data i)
    (short : data.length ≤ 944) (room : data.length ≤ buf.length) :
    ∃ c', c.perform (replying (world,m)) (.read fd buf) = .ok (gives buf data,c') ∧ c'.world = world ∧ c'.ib = m := by
  have notStd := not_std file
  have length : (BitVec.ofNat 64 data.length).toNat = data.length := by simp; omega
  have bytes := unpackMrs_of_words m (Nat.le_refl _) words
  rw [List.take_length] at bytes
  refine ⟨replied c (announce 5 (header c.ib REQ_READ entry.remoteFd 0 (BitVec.ofNat 64 (min buf.length MAX_DATA_IPC)))) world m,
    ?_,rfl,rfl⟩
  simp only [Lcl.perform,Lcl.read,if_neg notStd.1,if_neg notStd.2,fdCall_eq _ c live,replying,ok_bind,answer,ok,true_and,if_true,
    count]
  by_cases some : 0 < data.length
  · have positive : 0 < BitVec.ofNat 64 data.length := by rw [BitVec.lt_def,length]; simpa using some
    have heap : data.length ≤ Client.HEAP_SIZE := heap_room short
    simp only [if_pos positive,decodeBytesFromMrs,length,allocate,if_pos heap,ok_bind,replied,Client.DATA_MR_START,bytes,copyOut,
      show min (min data.length buf.length) data.length = data.length by omega,List.take_length]
    rfl
  · have none : data = [] := by
      cases data with
      | nil => rfl
      | cons b rest => simp at some
    subst none
    rfl

variable {V}

/-- The handler of a read gives the next bytes of the file and moves the offset past them. -/
theorem read_invoke {s : FsService σ φ} {fd : Word} {e : FileEntry} {c : List Byte} (count : Nat)
    (served : s.entry fd = some e) (file : 3 ≤ fd.toNat) (shown : V.at s.fs e.inode = some c)
    (inside : e.offset.toNat ≤ c.length) (most : count ≤ 944) :
    ∃ t, s.invoke X (.request (.Read fd 0 (BitVec.ofNat 64 count))) = .ok (.OkWithData (chunk c e.offset.toNat count),t) ∧
      t.entry fd = some { e with offset := e.offset + BitVec.ofNat 64 (chunk c e.offset.toNat count).length } ∧
      V.at t.fs e.inode = some c := by
  have notStd := not_std file
  have counted : (BitVec.ofNat 64 count).toNat = count := by simp; omega
  have room : count ≤ Service.HEAP_SIZE := heap_room most
  obtain ⟨disk,f,done,after⟩ := readAt_chunk V shown inside (List.replicate count 0)
  rw [List.length_replicate] at done
  have few : (chunk c e.offset.toNat count).length ≤ count := by rw [chunk_length]; omega
  have taken : ∀ rest, (chunk c e.offset.toNat count ++ rest).take
      (BitVec.ofNat 64 (chunk c e.offset.toNat count).length).toNat = chunk c e.offset.toNat count := by
    intro rest
    rw [show (BitVec.ofNat 64 (chunk c e.offset.toNat count).length).toNat = (chunk c e.offset.toNat count).length by simp; omega]
    exact List.take_left' rfl
  refine ⟨{ s with fs := s.fs.put disk e.inode (some f) }.setEntry fd
    (some { e with offset := e.offset + BitVec.ofNat 64 (chunk c e.offset.toNat count).length }),?_,?_,after⟩
  · simp only [FsService.invoke,FsService.handleRequest,FsService.handleRead,if_neg notStd.1,if_neg notStd.2,served,counted,
      allocate,if_pos room,ok_bind,done,taken]
  · rw [FsService.entry,FsService.setEntry,lookup_set (lookup_inside served),if_pos rfl]

/-- A handler's bytes reach the caller's buffer. -/
theorem serverKernel_data {w : Server σ φ} {message : Message} {inv : Invocation} {data : List Byte} {t : FsService σ φ}
    (read : dispatch (received message w.ib) = .ok (some inv)) (invoked : w.service.invoke X inv = .ok (.OkWithData data,t))
    (short : data.length ≤ 944) :
    ∃ w' m, serverKernel X w message = .ok (w',m) ∧ w'.service = t ∧ m.readMr 0 = ServiceLoop.RESP_OK ∧
      m.readMr 1 = BitVec.ofNat 64 data.length ∧ ∀ i < mrsFor data.length, m.readMr (2 + i) = packWord data i := by
  have round := (serviceRound_iff X read).mpr ⟨_,invoked,rfl⟩
  obtain ⟨m,isM,ok,count,words,_⟩ := delivered_data _ short (received message w.ib) message.ib
  refine ⟨{ service := t, ib := (writeResponse (received message w.ib) (.OkWithData data)).2 },m,?_,rfl,ok,count,words⟩
  simp only [serverKernel,round,ok_bind,isM]

/-- A positioned descriptor is live in the client too, under the same number. -/
theorem positioned_live {s : Lcl (Server σ φ)} {fd : Word} {c : List Byte} {offset : Nat} (p : Positioned V s fd c offset) :
    3 ≤ fd.toNat ∧ ∃ entry, s.client.entry fd = some entry ∧ entry.remoteFd = fd := by
  obtain ⟨agree,⟨e,served,_⟩,_,_⟩ := p
  refine ⟨(agree.server.live served).1,?_⟩
  cases dead : s.client.entry fd with
  | some entry => exact ⟨entry,rfl,(agree.live dead).1⟩
  | none =>
    rw [(agree.dead_iff fd).mp dead] at served
    cases served

theorem positioned_sends {s : Lcl (Server σ φ)} {fd : Word} {c : List Byte} {offset : Nat} (p : Positioned V s fd c offset)
    (buf : List Byte) : Sends s fd (.read fd buf) := by
  obtain ⟨file,entry,live,isRemote⟩ := positioned_live p
  exact ⟨by simp [Op.path],fun fd' on => by cases on; exact ⟨file,entry,live,isRemote⟩⟩

/-- A read of a positioned descriptor gives the next bytes, as many as the reply says, and moves the descriptor past them. -/
theorem read_positioned {s : Lcl (Server σ φ)} {fd : Word} {c : List Byte} {offset : Nat} (short : c.length < 2 ^ 64)
    (p : Positioned V s fd c offset) (buf : List Byte) :
    ∃ t, s.perform (serverKernel X) (.read fd buf) = .ok (gives buf (chunk c offset (min buf.length 944)),t) ∧
      Positioned V t fd c (offset + readCount c.length offset buf) ∧ t.ib.readMr 0 = Client.RESP_OK ∧
      t.ib.readMr 1 = BitVec.ofNat 64 (readCount c.length offset buf) := by
  have sends := positioned_sends p buf
  obtain ⟨file,entry,live,isRemote⟩ := positioned_live p
  obtain ⟨agree,⟨e,served,isOffset⟩,shown,inside⟩ := p
  have start : e.offset.toNat = offset := by rw [isOffset,BitVec.toNat_ofNat,Nat.mod_eq_of_lt (by omega)]
  have shown' : V.at s.world.service.fs e.inode = some c := by simpa only [shows,served,Option.bind_some] using shown
  have few : readCount c.length offset buf ≤ 944 ∧ readCount c.length offset buf ≤ buf.length ∧
      offset + readCount c.length offset buf ≤ c.length := by unfold readCount; omega
  have length := chunk_count c offset buf
  obtain ⟨service,invoked,moved,after⟩ := read_invoke (min buf.length 944) served file shown' (by omega) (by omega)
  rw [start] at invoked moved
  have read := dispatch_messageOf sends (by simp) s.ib s.world.ib
  obtain ⟨w,m,answered,isService,ok,mr1,words⟩ := serverKernel_data read invoked (by omega)
  obtain ⟨t,finished,isWorld,isReply⟩ := read_replying s live file buf w ok mr1 words (by omega) (by omega)
  have ran : s.perform (serverKernel X) (.read fd buf) = .ok (gives buf (chunk c offset (min buf.length 944)),t) := by
    rw [perform_sends sends]
    exact bind_ok_iff.mpr ⟨_,answered,finished⟩
  have served' : t.world.service = service := by rw [isWorld,isService]
  refine ⟨t,ran,⟨perform_agree agree ran,⟨_,by rw [served',moved],?_⟩,?_,few.2.2⟩,isReply ▸ ok,by rw [isReply,mr1,length]⟩
  · rw [isOffset,length,BitVec.ofNat_add]
  · rw [shows,served',moved]
    exact after

/-! ## What a read takes -/

variable {D : Drain σ φ} {E : Elsewhere Op}

/-- The service takes a buffer for what is asked for, and what the library takes. -/
theorem read_roundUses {s : Lcl (Server σ φ)} {fd : Word} {c : List Byte} {offset : Nat} (p : Positioned V s fd c offset)
    (buf : List Byte) {h : FsHeap} (made : h.capacity ≠ 0) :
    roundUses X D s.world.service (received (messageOf s.ib fd (.read fd buf)) s.world.ib) h =
      h.takes [bytes (min buf.length 944)] >>= fun u => .ok (u.beside (D.handling s.world.service.fs
        (.request (.Read fd 0 (BitVec.ofNat 64 (min buf.length 944)))) u.toHeap)) := by
  obtain ⟨e,served,_⟩ := p.entry
  have read : dispatch (received (messageOf s.ib fd (.read fd buf)) s.world.ib) =
      .ok (some (.request (.Read fd 0 (BitVec.ofNat 64 (min buf.length 944))))) :=
    dispatch_messageOf (positioned_sends p buf) (by simp) s.ib s.world.ib
  have notStd := not_std (positioned_live p).1
  have counted : (BitVec.ofNat 64 (min buf.length 944)).toNat = min buf.length 944 := by
    rw [BitVec.toNat_ofNat]
    omega
  have first : h.takes [] = .ok h := rfl
  simp only [roundUses,requestAsks_request read,first,ok_bind,read,force_made made,invokeUses,bufferAsks,if_neg notStd.1,
    if_neg notStd.2,served,counted,entryUses]

/-- The client takes a buffer for what the reply carries. -/
theorem read_opUses {ω : Type} {s t : Lcl ω} {fd : Word} {buf : List Byte} {n : Nat} {h : LclHeap} (made : h.capacity ≠ 0)
    (sent : s.sent.length < t.sent.length) (ok : t.ib.readMr 0 = Client.RESP_OK) (count : t.ib.readMr 1 = BitVec.ofNat 64 n)
    (short : n ≤ 944) : opUses s t (.read fd buf) h = h.takes [bytes n] := by
  have counted : (BitVec.ofNat 64 n).toNat = n := by simp; omega
  simp only [opUses,force_made made,ok_bind,replyUses,sent,ok,count,true_and,BitVec.lt_def,counted]
  by_cases some' : 0 < n
  · exact if_pos some'
  · have none' : n = 0 := by omega
    subst none'
    rfl

variable {s : Lcl (Server σ φ)} {h : Heaps} {fd : Word} {c : List Byte} {offset : Nat}

/-- A read of a positioned descriptor goes through exactly when the service's heap has a buffer for what it asks for and
    the client's one for what it gets; then it gives the next bytes. -/
theorem read_goes_iff (short : c.length < 2 ^ 64) (p : Positioned V s fd c offset) (made : Made h) (buf : List Byte) :
    (∃ out q, heapPerform X D E (s,h) (.read fd buf) = .ok (out,q)) ↔
      min buf.length 944 ≤ h.service.left ∧ readCount c.length offset buf ≤ h.client.left := by
  have few : readCount c.length offset buf ≤ 944 := by unfold readCount; omega
  obtain ⟨t,ran,_,ok,count⟩ := read_positioned (X := X) short p buf
  have sent := sends_sentSince (positioned_sends p buf) ran
  have more : s.sent.length < t.sent.length := by
    have length := congrArg List.length sent
    rw [sentSince,List.length_drop,List.length_singleton] at length
    omega
  have ours (k : LclHeap) : opUses s t (.read fd buf) h.client = .ok k ↔
      h.client.takes [bytes (readCount c.length offset buf)] = .ok k := by
    rw [read_opUses made.client more ok count few]
  rw [← takes_bytes_iff,← takes_bytes_iff]
  constructor
  · rintro ⟨out,⟨t',k⟩,goes⟩
    obtain ⟨ran',used⟩ := heapPerform_ok_iff.mp goes
    cases ran.symm.trans ran'
    obtain ⟨⟨v,client,_⟩,service⟩ := performUses_ok_iff.mp used
    rw [serviceUses_sends (positioned_sends p buf) ran,read_roundUses p buf made.service] at service
    obtain ⟨u,taken,_⟩ := bind_ok_iff.mp service
    exact ⟨⟨u,taken⟩,⟨v,(ours v).mp client⟩⟩
  · rintro ⟨⟨u,taken⟩,⟨k,client⟩⟩
    have service := read_roundUses (X := X) (D := D) p buf made.service
    rw [taken,ok_bind,← serviceUses_sends (positioned_sends p buf) ran] at service
    exact ⟨_,(t,⟨_,_⟩),heapPerform_ok_iff.mpr ⟨ran,performUses_ok_iff.mpr ⟨⟨k,(ours k).mpr client,rfl⟩,service⟩⟩⟩

theorem read_gone (short : c.length < 2 ^ 64) (p : Positioned V s fd c offset) (made : Made h) {buf : List Byte} {out : OpResult}
    {q : Lcl (Server σ φ) × Heaps} (goes : heapPerform X D E (s,h) (.read fd buf) = .ok (out,q)) :
    out = gives buf (chunk c offset (min buf.length 944)) ∧ Positioned V q.1 fd c (offset + readCount c.length offset buf) ∧
      Made q.2 ∧ min buf.length 944 + q.2.service.left ≤ h.service.left := by
  obtain ⟨t,k⟩ := q
  obtain ⟨ran,used⟩ := heapPerform_ok_iff.mp goes
  obtain ⟨t',ran',after,_⟩ := read_positioned (X := X) short p buf
  cases ran'.symm.trans ran
  refine ⟨rfl,after,made.kept used,?_⟩
  obtain ⟨_,service⟩ := performUses_ok_iff.mp used
  rw [serviceUses_sends (positioned_sends p buf) ran,read_roundUses p buf made.service] at service
  obtain ⟨u,taken,same⟩ := bind_ok_iff.mp service
  have least := takes_bytes_left taken
  have less := D.handling_left s.world.service.fs (.request (.Read fd 0 (BitVec.ofNat 64 (min buf.length 944)))) u.toHeap
  rw [← Except.ok.inj same]
  exact Nat.le_trans (Nat.add_le_add_left less _) (Nat.le_of_eq least.symm)

/-! ## Other operations in between -/

theorem calls_fd {remote r : Word} {op : Op} {inv : Invocation} (calls : Calls remote op inv) (on : fdOf inv = some r) :
    r = remote ∧ ∃ fd, op.fd = some fd := by
  rcases calls with named | ⟨fd,data,bytes,rfl,rfl⟩
  · cases op <;> cases named <;> cases on
    all_goals
      exact ⟨rfl,_,rfl⟩
  · cases on
    exact ⟨rfl,fd,rfl⟩

/-- An operation on something else leaves a live entry of the service as it was. -/
theorem other_kept {s t : Lcl (Server σ φ)} (a : Agree s) {fd : Word} {e : FileEntry}
    (served : s.world.service.entry fd = some e) {op : Op} (other : op.fd ≠ some fd) {out : OpResult}
    (ran : s.perform (serverKernel X) op = .ok (out,t)) : t.world.service.entry fd = some e := by
  by_cases silent : ∀ remote, ¬ Sends s remote op
  · rw [(perform_silent a.client.standard silent ran).2.1]
    exact served
  · obtain ⟨remote,sends⟩ := not_forall_not.mp silent
    obtain ⟨inv,resp,w,m,calls,invoked,_,_,done⟩ := perform_calls sends ran
    obtain ⟨rfl,_,_⟩ := perform_finished sends done
    refine effect_live a.server (invoke_effect invoked) served ?_
    intro on
    obtain ⟨rfl,fd',onFd⟩ := calls_fd calls on
    obtain rfl := a.remote sends onFd
    exact other onFd

section
variable (V) (D : Drain σ φ) (E : Elsewhere Op)

/-- A step of a session on `fd`: a read of it, or an operation on something else that returns and
    leaves the file's bytes alone. -/
def Undisturbed (fd : Word) (c : List Byte) (p : Lcl (Server σ φ) × Heaps) (op : Op) : Prop :=
  (∃ buf, op = .read fd buf) ∨
    (op.fd ≠ some fd ∧ ∃ out q, heapPerform X D E p op = .ok (out,q) ∧ shows V q.1 fd = some c)

end

/-- The heaps have room for the buffers of a read of `fd`: the service's for what is asked for, the client's for what is left
    of the file behind the stored offset. -/
def ReadFits (fd : Word) (c : List Byte) (p : Lcl (Server σ φ) × Heaps) (op : Op) : Prop :=
  ∀ buf, op = .read fd buf → min buf.length 944 ≤ p.2.service.left ∧
    ∀ e, p.1.world.service.entry fd = some e → readCount c.length e.offset.toNat buf ≤ p.2.client.left

/-- The buffers of the reads of `fd` among some operations. -/
def bufsOf (fd : Word) (ops : List Op) : List (List Byte) :=
  ops.filterMap fun
    | .read fd' buf => if fd' = fd then some buf else none
    | _ => none

/-- The results of the reads of `fd` among those of some operations. -/
def readsOf (fd : Word) (ops : List Op) (outs : List OpResult) : List OpResult :=
  (ops.zip outs).filterMap fun
    | (.read fd' _,out) => if fd' = fd then some out else none
    | _ => none

theorem not_read {fd : Word} {op : Op} (other : op.fd ≠ some fd) (rest : List Op) (out : OpResult) (outs : List OpResult) :
    bufsOf fd (op :: rest) = bufsOf fd rest ∧ readsOf fd (op :: rest) (out :: outs) = readsOf fd rest outs := by
  cases op with
  | read fd' buf =>
    have apart : fd' ≠ fd := fun same => other (by rw [same]; rfl)
    simp [bufsOf,readsOf,apart]
  | _ => exact ⟨rfl,rfl⟩

section
variable {D : Drain σ φ} {E : Elsewhere Op} {s : Lcl (Server σ φ)} {h : Heaps} {fd : Word} {c : List Byte} {offset : Nat}

theorem readFits_iff (short : c.length < 2 ^ 64) (p : Positioned V s fd c offset) (buf : List Byte) :
    ReadFits fd c (s,h) (.read fd buf) ↔ min buf.length 944 ≤ h.service.left ∧ readCount c.length offset buf ≤ h.client.left := by
  obtain ⟨e,served,isOffset⟩ := p.entry
  have inside := p.inside
  have start : e.offset.toNat = offset := by rw [isOffset,BitVec.toNat_ofNat,Nat.mod_eq_of_lt (by omega)]
  constructor
  · intro fits
    obtain ⟨theirs,ours⟩ := fits buf rfl
    rw [← start]
    exact ⟨theirs,ours e served⟩
  · rintro ⟨theirs,ours⟩ buf' same
    cases same
    refine ⟨theirs,fun e' served' => ?_⟩
    cases served.symm.trans served'
    rw [start]
    exact ours

/-- An operation on something else leaves the descriptor where it is. -/
theorem other_positioned (p : Positioned V s fd c offset) (made : Made h) {op : Op} (other : op.fd ≠ some fd) {out : OpResult}
    {q : Lcl (Server σ φ) × Heaps} (goes : heapPerform X D E (s,h) op = .ok (out,q)) (shown : shows V q.1 fd = some c) :
    Positioned V q.1 fd c offset ∧ Made q.2 := by
  obtain ⟨t,k⟩ := q
  obtain ⟨ran,used⟩ := heapPerform_ok_iff.mp goes
  obtain ⟨e,served,isOffset⟩ := p.entry
  exact ⟨⟨perform_agree p.agree ran,⟨e,other_kept p.agree served other ran,isOffset⟩,shown,p.inside⟩,made.kept used⟩

/-- A session goes through exactly when both heaps have room for each of its reads. -/
theorem session_ran_iff (short : c.length < 2 ^ 64) (p : Positioned V s fd c offset) (made : Made h) {ops : List Op}
    (session : Meets (heapPerform X D E) (Undisturbed V D E fd c) (s,h) ops) :
    (∃ outs q, run (heapPerform X D E) (s,h) ops = .ok (outs,q)) ↔ Meets (heapPerform X D E) (ReadFits fd c) (s,h) ops := by
  induction ops generalizing s h offset with
  | nil => exact ⟨fun _ => trivial,fun _ => ⟨[],(s,h),rfl⟩⟩
  | cons op rest ih =>
    obtain ⟨step,later⟩ := session
    -- whichever kind of step it is, it goes through when it fits and leaves a state of the same kind
    have here : (∃ out q, heapPerform X D E (s,h) op = .ok (out,q)) ↔ ReadFits fd c (s,h) op := by
      rcases step with ⟨buf,rfl⟩ | ⟨other,out,q,goes,_⟩
      · rw [readFits_iff short p buf]
        exact read_goes_iff short p made buf
      · exact ⟨fun _ buf same => absurd (congrArg Op.fd same) other,fun _ => ⟨out,q,goes⟩⟩
    have next (out : OpResult) (u : Lcl (Server σ φ)) (k : Heaps) (goes : heapPerform X D E (s,h) op = .ok (out,(u,k))) :
        ∃ offset', Positioned V u fd c offset' ∧ Made k := by
      rcases step with ⟨buf,rfl⟩ | ⟨other,out',q,goes',shown⟩
      · obtain ⟨_,after,made',_⟩ := read_gone short p made goes
        exact ⟨_,after,made'⟩
      · cases goes.symm.trans goes'
        exact ⟨offset,other_positioned p made other goes shown⟩
    constructor
    · rintro ⟨outs,q,ran⟩
      obtain ⟨out,⟨u,k⟩,outs',first,ran',rfl⟩ := run_cons_iff.mp ran
      refine ⟨here.mp ⟨out,_,first⟩,fun out' v first' => ?_⟩
      cases first.symm.trans first'
      obtain ⟨offset',after,made'⟩ := next _ _ _ first
      exact (ih after made' (later _ _ first)).mp ⟨outs',q,ran'⟩
    · rintro ⟨fits,meets⟩
      obtain ⟨out,⟨u,k⟩,first⟩ := here.mpr fits
      obtain ⟨offset',after,made'⟩ := next _ _ _ first
      obtain ⟨outs,q,ran⟩ := (ih after made' (later _ _ first)).mpr (meets _ _ first)
      exact ⟨_,q,run_cons_iff.mpr ⟨out,(u,k),outs,first,ran,rfl⟩⟩

/-- The reads of a session that goes through give the next bytes. -/
theorem session_reads (short : c.length < 2 ^ 64) (p : Positioned V s fd c offset) (made : Made h) {ops : List Op}
    (session : Meets (heapPerform X D E) (Undisturbed V D E fd c) (s,h) ops) {outs : List OpResult} {q : Lcl (Server σ φ) × Heaps}
    (ran : run (heapPerform X D E) (s,h) ops = .ok (outs,q)) :
    readsOf fd ops outs = List.zipWith gives (bufsOf fd ops) (pieces c offset (bufsOf fd ops)) ∧
      Positioned V q.1 fd c (offset + (counts c.length offset (bufsOf fd ops)).sum) := by
  induction ops generalizing s h offset outs with
  | nil =>
    cases ran
    exact ⟨rfl,by simpa [bufsOf,counts] using p⟩
  | cons op rest ih =>
    obtain ⟨step,later⟩ := session
    obtain ⟨out,⟨u,k⟩,outs',first,ran',rfl⟩ := run_cons_iff.mp ran
    rcases step with ⟨buf,rfl⟩ | ⟨other,out',q',goes,shown⟩
    · obtain ⟨rfl,after,made',_⟩ := read_gone short p made first
      obtain ⟨reads,final⟩ := ih after made' (later _ _ first) ran'
      have bufs : bufsOf fd (.read fd buf :: rest) = buf :: bufsOf fd rest := by simp [bufsOf]
      constructor
      · rw [bufs,pieces,List.zipWith_cons_cons,← reads]
        simp [readsOf]
      · rw [bufs,counts,List.sum_cons,← Nat.add_assoc]
        exact final
    · cases first.symm.trans goes
      obtain ⟨after,made'⟩ := other_positioned p made other first shown
      obtain ⟨reads,final⟩ := ih after made' (later _ _ first) ran'
      obtain ⟨bufs,results⟩ := not_read other rest out outs'
      exact ⟨by rw [bufs,results,reads],by rw [bufs]; exact final⟩

/-- Reads take at least their buffers from the service's heap. -/
theorem reads_left (short : c.length < 2 ^ 64) (p : Positioned V s fd c offset) (made : Made h) (buf : List Byte) (n : Nat)
    {outs : List OpResult} {q : Lcl (Server σ φ) × Heaps}
    (ran : run (heapPerform X D E) (s,h) (List.replicate n (.read fd buf)) = .ok (outs,q)) :
    n * min buf.length 944 ≤ h.service.left := by
  induction n generalizing s h offset outs with
  | zero => simp
  | succ n ih =>
    obtain ⟨out,⟨u,k⟩,outs',first,later,rfl⟩ := run_cons_iff.mp ran
    obtain ⟨_,after,made',least⟩ := read_gone short p made first
    have rest := ih after made' later
    rw [Nat.succ_mul]
    exact Nat.le_trans (by dsimp only at least; omega) least

end

/-- An opening that succeeds has been sent. -/
theorem opened_sends {s t : Lcl (Server σ φ)} {path : Str} {flags : BitVec 32} {fd : Word}
    (opened : s.perform (serverKernel X) (.open path flags) = .ok (.sys (.ok fd),t)) :
    path.len ≤ MAX_PATH_IPC ∧ Sends s 0 (.open path flags) := by
  have fits : path.len ≤ MAX_PATH_IPC := by
    by_contra long
    simp only [Lcl.perform,Lcl.open,Lcl.pathCall,if_pos (show MAX_PATH_IPC < path.len by omega),ok_bind] at opened
    cases opened
  exact ⟨fits,fun path' on => by cases on; exact fits,by simp [Op.fd]⟩

/-- A successful opening is a call that the service answers well, and returns the next descriptor. -/
theorem opened_invoked {s t : Lcl (Server σ φ)} {path : Str} {flags : BitVec 32} {fd : Word}
    (opened : s.perform (serverKernel X) (.open path flags) = .ok (.sys (.ok fd),t)) :
    ∃ resp, s.world.service.invoke X (.openWithPath path flags) = .ok (resp,t.world.service) ∧ resp.isErr = false ∧
      fd = s.client.nextFd := by
  obtain ⟨fits,sends⟩ := opened_sends opened
  obtain ⟨inv,resp,w,m,calls,invoked,mr0,_,done⟩ := perform_calls sends opened
  obtain ⟨rfl,_,_⟩ := perform_finished sends done
  cases calls.of_open
  simp only [Lcl.perform,Lcl.open,pathCall_eq _ s fits,replying,ok_bind,answer] at done
  split at done
  · next ok =>
    simp only [bind_ok_iff,Except.ok.injEq,Prod.mk.injEq,Prod.exists] at done
    obtain ⟨_,_,⟨_,_,_,_,rfl,_⟩,isFd,_⟩ := done
    exact ⟨resp,invoked,(statusOf_eq_ok_iff resp).mp (mr0.symm.trans ok),(Except.ok.inj (OpResult.sys.inj isFd)).symm⟩
  · cases done

/-- A successful opening returns the next descriptor, and the service has it at the front of its file. -/
theorem opened_positioned {s t : Lcl (Server σ φ)} (a : Agree s) {path : Str} {flags : BitVec 32} {fd : Word}
    (opened : s.perform (serverKernel X) (.open path flags) = .ok (.sys (.ok fd),t)) :
    ∃ e, t.world.service.entry fd = some e ∧ e.offset = 0 := by
  obtain ⟨resp,invoked,good,rfl⟩ := opened_invoked opened
  have effect := invoke_effect invoked
  cases effect with
  | @opened _ _ entry _ grew fdTable nextFd start free used =>
    obtain ⟨_,_,_,entries⟩ := a.server.entry_opened grew fdTable nextFd
    refine ⟨entry,?_,start⟩
    rw [entries]
    exact if_pos a.nextFd
  | moved _ _ _ _ _ _ still => exact absurd trivial still
  | kept _ _ _ answered =>
    rw [answered trivial] at good
    cases good

section
variable {D : Drain σ φ} {E : Elsewhere Op}

theorem run_heapPerform_agree {s t : Lcl (Server σ φ)} {h k : Heaps} {ops : List Op} {outs : List OpResult} (a : Agree s)
    (ran : run (heapPerform X D E) (s,h) ops = .ok (outs,(t,k))) : Agree t := by
  unfold heapPerform at ran
  exact run_agree a (metered_ran ran)

theorem opened_made {s t : Lcl (Server σ φ)} {h k : Heaps} (a : Agree s) {path : Str} {flags : BitVec 32} {fd : Word}
    (opened : heapPerform X D E (s,h) (.open path flags) = .ok (.sys (.ok fd),(t,k))) {c : List Byte}
    (shown : shows V t fd = some c) : Positioned V t fd c 0 ∧ Made k := by
  obtain ⟨opened',used⟩ := heapPerform_ok_iff.mp opened
  obtain ⟨e,served,front⟩ := opened_positioned a opened'
  have made : Made k := sends_made (opened_sends opened').2 (by simp) (by simp [invocation]) opened' used
  exact ⟨⟨perform_agree a opened',⟨e,served,front⟩,shown,Nat.zero_le _⟩,made⟩

/-- A descriptor that an opening has just returned, and any session on it, whatever the library and the rest of the client's
    program take from their heaps: it goes through, read number `i` returns
    `Ok(n_i)` with the next `n_i` bytes in front of its buffer, where `n_i` is what the buffer, a reply and the rest of
    the file have room for, the bytes together are a prefix of the file, and the service's offset ends up at their number,
    exactly when at each of the reads what the blocks before it have left of the heaps has room for its buffers. -/
theorem sequential_reads_iff {start s₀ s : Lcl (Server σ φ)} {h₀ h₁ h : Heaps} {disk : σ} (client : start.client = FsClient.new)
    (service : start.world.service = FsService.new disk) {before : List Op} {outs₀ : List OpResult}
    (ran : run (heapPerform X D E) (start,h₀) before = .ok (outs₀,(s₀,h₁))) {path : Str} {flags : BitVec 32} {fd : Word}
    (opened : heapPerform X D E (s₀,h₁) (.open path flags) = .ok (.sys (.ok fd),(s,h))) {c : List Byte}
    (shown : shows V s fd = some c) (short : c.length < 2 ^ 64) {ops : List Op}
    (session : Meets (heapPerform X D E) (Undisturbed V D E fd c) (s,h) ops) :
    (∃ outs t k e, run (heapPerform X D E) (s,h) ops = .ok (outs,(t,k)) ∧
      readsOf fd ops outs = List.zipWith gives (bufsOf fd ops) (pieces c 0 (bufsOf fd ops)) ∧
      (pieces c 0 (bufsOf fd ops)).map List.length = counts c.length 0 (bufsOf fd ops) ∧
      (pieces c 0 (bufsOf fd ops)).flatten = c.take (counts c.length 0 (bufsOf fd ops)).sum ∧
      t.world.service.entry fd = some e ∧ e.offset.toNat = (counts c.length 0 (bufsOf fd ops)).sum) ↔
      Meets (heapPerform X D E) (ReadFits fd c) (s,h) ops := by
  obtain ⟨positioned,made⟩ := opened_made (run_heapPerform_agree (fresh_agree client service) ran) opened shown
  constructor
  · rintro ⟨outs,t,k,_,ran',_⟩
    exact (session_ran_iff short positioned made session).mp ⟨outs,_,ran'⟩
  · intro meets
    obtain ⟨outs,⟨t,k⟩,ran'⟩ := (session_ran_iff short positioned made session).mpr meets
    obtain ⟨reads,final⟩ := session_reads short positioned made session ran'
    obtain ⟨e',served',isOffset⟩ := final.entry
    rw [Nat.zero_add] at isOffset
    have joined := take_append_pieces c 0 (bufsOf fd ops)
    have inside := counts_inside c.length 0 (bufsOf fd ops) (Nat.zero_le _)
    rw [List.take_zero,List.nil_append,Nat.zero_add] at joined
    rw [Nat.zero_add] at inside
    refine ⟨outs,t,k,e',ran',reads,pieces_lengths c 0 _,joined,served',?_⟩
    rw [isOffset,BitVec.toNat_ofNat,Nat.mod_eq_of_lt (Nat.lt_of_le_of_lt inside short)]

end

/-- A file of five bytes, opened by a client and a service that have just started. -/
theorem started_opened : ∃ s h, heapPerform MemFs.memFs .none .none (started,.unused) (.open aPath 0) = .ok (.sys (.ok 3),(s,h)) ∧
    shows MemFs.memFsView s 3 = some [1,2,3,4,5] := ⟨_,_,rfl,rfl⟩

/-- Reads of 944 bytes of this file cannot go on for ever: the service's heap does not have 1111 buffers for them. -/
theorem reads_exhaust : ∃ s h, heapPerform MemFs.memFs .none .none (started,.unused) (.open aPath 0) = .ok (.sys (.ok 3),(s,h)) ∧
    shows MemFs.memFsView s 3 = some [1,2,3,4,5] ∧
    ∀ outs q, run (heapPerform MemFs.memFs .none .none) (s,h) (List.replicate 1111 (.read 3 (List.replicate 944 0))) ≠
      .ok (outs,q) := by
  obtain ⟨s,h,opened,shown⟩ := started_opened
  refine ⟨s,h,opened,shown,fun outs q ran => ?_⟩
  obtain ⟨positioned,made⟩ := opened_made (D := .none) (fresh_agree rfl rfl) opened shown
  have least := reads_left (by decide) positioned made (List.replicate 944 0) 1111 ran
  have most : h.service.left ≤ 0x100000 := Nat.sub_le _ _
  rw [List.length_replicate] at least
  omega

/-- Three reads in a row. -/
def threeReads : List Op := [.read 3 [0,0],.read 3 [0,0,0,0],.read 3 [0]]

theorem sequential_reads_file :
    ∃ s h, heapPerform MemFs.memFs .none .none (started,.unused) (.open aPath 0) = .ok (.sys (.ok 3),(s,h)) ∧
    ∃ outs t k e, run (heapPerform MemFs.memFs .none .none) (s,h) threeReads = .ok (outs,(t,k)) ∧
      readsOf 3 threeReads outs = [.data (.ok 2) [1,2],.data (.ok 3) [3,4,5,0],.data (.ok 0) [0]] ∧
      t.world.service.entry 3 = some e ∧ e.offset.toNat = 5 := by
  obtain ⟨s,h,opened,shown⟩ := started_opened
  have session : Meets (heapPerform MemFs.memFs .none .none) (Undisturbed MemFs.memFsView .none .none 3 [1,2,3,4,5]) (s,h)
      threeReads :=
    ⟨.inl ⟨_,rfl⟩,fun _ _ _ => ⟨.inl ⟨_,rfl⟩,fun _ _ _ => ⟨.inl ⟨_,rfl⟩,fun _ _ _ => trivial⟩⟩⟩
  have fits : Meets (heapPerform MemFs.memFs .none .none) (ReadFits 3 [1,2,3,4,5]) (s,h) threeReads := by
    obtain ⟨positioned,made⟩ := opened_made (D := .none) (fresh_agree rfl rfl) opened shown
    refine (session_ran_iff (by decide) positioned made session).mp ?_
    cases opened
    exact ⟨_,_,rfl⟩
  obtain ⟨outs,t,k,e,ran,reads,_,_,served,offset⟩ :=
    (sequential_reads_iff rfl rfl (rfl : run (heapPerform MemFs.memFs .none .none) (started,.unused) [] = _) opened shown
      (by decide) session).mpr fits
  exact ⟨s,h,opened,outs,t,k,e,ran,reads,served,offset⟩

end Sel4Linux.Reading
