import Sel4Linux.Service
import Sel4Linux.Runs

/-!
The service loop (`ext4-srv/src/main.rs`): a request is read from the message
registers, its handler runs, and the response is written back. Reading the
request (`dispatch`) and running the handler (`FsService.invoke`) are kept
apart, so that what a message means can be stated without the state.
-/
namespace Sel4Linux.ServiceLoop
open Sel4Linux.Bytes Sel4Linux.Utf8 Sel4Linux.Ipc Sel4Linux.Ext4 Sel4Linux.Service
set_option linter.unusedSimpArgs false

def PATH_MR_START : Nat := 5
def DATA_MR_START : Nat := 2

def RESP_OK : Word := 0
def RESP_ERR : Word := 1

/-- `decode_path_from_mrs`: room for the bytes, then for the string made of them. -/
def decodePathFromMrs (ib : IpcBuffer) (startMr : Nat) (pathLen : Word) : Except Fault Str := do
  let _ ← allocate HEAP_SIZE pathLen.toNat
  let path := Str.fromUtf8Lossy (unpackMrs ib startMr pathLen.toNat)
  let _ ← allocate HEAP_SIZE path.len
  .ok path

def encodeDataToMrs (ib : IpcBuffer) (data : List Byte) (startMr : Nat) : Nat × IpcBuffer := packMrs ib data startMr

/-- The request in the message registers: the handler to call, or nothing for an unknown type. -/
def dispatch (ib : IpcBuffer) : Except Fault (Option Invocation) :=
  let reqType := ib.readMr 0
  let arg1 := ib.readMr 1
  let arg2 := ib.readMr 2
  let arg3 := ib.readMr 3
  if reqType = 1 then do
    let path ← decodePathFromMrs ib PATH_MR_START arg2
    .ok (some (.openWithPath path (arg3.setWidth 32)))
  else if reqType = 5 then do
    let path ← decodePathFromMrs ib PATH_MR_START arg2
    .ok (some (.statWithPath path))
  else if reqType = 7 then do
    let path ← decodePathFromMrs ib PATH_MR_START arg2
    .ok (some (.mkdirWithPath path))
  else if reqType = 8 then do
    let path ← decodePathFromMrs ib PATH_MR_START arg2
    .ok (some (.unlinkWithPath path))
  else if reqType = 9 then do
    let path ← decodePathFromMrs ib PATH_MR_START arg2
    .ok (some (.accessWithPath path))
  else if reqType = 2 then .ok (some (.request (.Read arg1 0 arg3)))
  else if reqType = 3 then do
    let data ← decodePathFromMrs ib DATA_MR_START arg3
    .ok (some (.writeWithData arg1 data.bytes))
  else if reqType = 4 then .ok (some (.request (.Close arg1)))
  else if reqType = 6 then .ok (some (.request (.Getdents64 arg1 0 arg3)))
  else if reqType = 10 then .ok (some (.request (.FileSize arg1)))
  else if reqType = 11 then .ok (some (.lseek arg1 arg2 (arg3.setWidth 32)))
  else .ok none

/-- `write_response`: the registers written, and how many. -/
def writeResponse (ib : IpcBuffer) : FsResponse → Nat × IpcBuffer
  | .Ok val => (2,(ib.writeMr 0 RESP_OK).writeMr 1 val)
  | .Ok2 a b => (3,((ib.writeMr 0 RESP_OK).writeMr 1 a).writeMr 2 b)
  | .Err errno => (2,(ib.writeMr 0 RESP_ERR).writeMr 1 (errno.signExtend 64))
  | .OkWithData data =>
    let ib := (ib.writeMr 0 RESP_OK).writeMr 1 (BitVec.ofNat 64 data.length)
    let (dataMrs,ib) := encodeDataToMrs ib data DATA_MR_START
    (DATA_MR_START + dataMrs,ib)
  | .OkWithData2 data extra =>
    let ib := ((ib.writeMr 0 RESP_OK).writeMr 1 (BitVec.ofNat 64 data.length)).writeMr 2 extra
    let (dataMrs,ib) := encodeDataToMrs ib data 3
    (3 + dataMrs,ib)

/-- `write_response_maybe_data` has the same arms in another order. -/
def writeResponseMaybeData (ib : IpcBuffer) (resp : FsResponse) : Nat × IpcBuffer := writeResponse ib resp

/-- The writer that the loop pairs with a handler. -/
def respond (ib : IpcBuffer) (inv : Invocation) (resp : FsResponse) : Nat × IpcBuffer :=
  match inv with
  | .request (.Read ..) | .request (.Getdents64 ..) => writeResponseMaybeData ib resp
  | _ => writeResponse ib resp

/-- A reply: the message info word and the buffer that it announces registers of. -/
abbrev Reply := Word × IpcBuffer

/-- `reply_mrs & 0x7F`. -/
def replyWord (replyMrs : Nat) : Word := BitVec.ofNat 64 replyMrs &&& 0x7F#64

variable {σ φ : Type} (X : Externs σ φ)

/-- One round of `service_loop` on the registers of a received message. -/
def serviceRound (s : FsService σ φ) (ib : IpcBuffer) : Except Fault (Reply × FsService σ φ) := do
  let call ← dispatch ib
  match call with
  | some inv => do
    let (resp,s) ← s.invoke X inv
    let (replyMrs,ib) := respond ib inv resp
    .ok ((replyWord replyMrs,ib),s)
  | none => .ok ((replyWord 2,(ib.writeMr 0 RESP_ERR).writeMr 1 38#64),s)

/-! ## What a response leaves in the registers -/

/-- MR0 of a response. -/
def statusOf : FsResponse → Word
  | .Err _ => RESP_ERR
  | _ => RESP_OK

/-- MR1 of a response. -/
def resultOf : FsResponse → Word
  | .Ok val => val
  | .Ok2 a _ => a
  | .Err errno => errno.signExtend 64
  | .OkWithData data => BitVec.ofNat 64 data.length
  | .OkWithData2 data _ => BitVec.ofNat 64 data.length

theorem respond_eq (ib : IpcBuffer) (inv : Invocation) (resp : FsResponse) : respond ib inv resp = writeResponse ib resp := by
  unfold respond
  split <;> rfl

theorem statusOf_eq_ok_iff (resp : FsResponse) : statusOf resp = RESP_OK ↔ resp.isErr = false := by
  cases resp <;> simp [statusOf,FsResponse.isErr,RESP_OK,RESP_ERR]

theorem two_le_writeResponse (ib : IpcBuffer) (resp : FsResponse) : 2 ≤ (writeResponse ib resp).1 := by
  cases resp <;> simp [writeResponse,encodeDataToMrs,packMrs,DATA_MR_START]
  omega

theorem writeResponse_mr0 (ib : IpcBuffer) (resp : FsResponse) :
    (writeResponse ib resp).2.readMr 0 = statusOf resp := by
  cases resp <;> simp [writeResponse,encodeDataToMrs,readMr_packMrs,readMr_writeMr,statusOf,DATA_MR_START,IPC_BUFFER_MSG_REGS]

theorem writeResponse_mr1 (ib : IpcBuffer) (resp : FsResponse) :
    (writeResponse ib resp).2.readMr 1 = resultOf resp := by
  cases resp <;> simp [writeResponse,encodeDataToMrs,readMr_packMrs,readMr_writeMr,resultOf,DATA_MR_START,IPC_BUFFER_MSG_REGS]

theorem writeResponse_le (ib : IpcBuffer) (resp : FsResponse) : (writeResponse ib resp).1 ≤ 3 + mrsFor resp.payload.length := by
  cases resp <;> simp [writeResponse,encodeDataToMrs,packMrs,DATA_MR_START,FsResponse.payload]
  all_goals omega

theorem serviceRound_iff {s t : FsService σ φ} {ib : IpcBuffer} {inv : Invocation} {reply : Reply}
    (read : dispatch ib = .ok (some inv)) :
    serviceRound X s ib = .ok (reply,t) ↔ ∃ resp, s.invoke X inv = .ok (resp,t) ∧
      reply = (replyWord (writeResponse ib resp).1,(writeResponse ib resp).2) := by
  unfold serviceRound
  rw [read]
  cases ran : s.invoke X inv with
  | error e => simp [bind,Except.bind,ran]
  | ok pair =>
    obtain ⟨resp,u⟩ := pair
    simp only [bind,Except.bind,ran,respond_eq,Except.ok.injEq,Prod.mk.injEq]
    constructor
    · rintro ⟨rfl,rfl⟩; exact ⟨resp,⟨rfl,rfl⟩,rfl⟩
    · rintro ⟨_,⟨rfl,rfl⟩,rfl⟩; exact ⟨rfl,rfl⟩

end Sel4Linux.ServiceLoop
