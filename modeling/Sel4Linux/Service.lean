import Sel4Linux.Ext4
import Sel4Linux.FdTable

/-!
The file service's handlers (`ext4-srv/src/service.rs`) and its two message
types (`ext4-srv/src/ipc.rs`). A handler takes the service to a response and the
next service, or panics.
-/
namespace Sel4Linux.Service
open Sel4Linux.Bytes Sel4Linux.Utf8 Sel4Linux.Ipc Sel4Linux.Ext4 Sel4Linux.FdTable
set_option linter.unusedSimpArgs false

/-- The service's heap (`ext4-srv/src/main.rs`). -/
def HEAP_SIZE : Nat := 1024 * 1024

/-- `size_of::<Option<FileEntry>>()`: a string, three words and the flags. -/
def FILE_ENTRY_SIZE : Nat := 56

inductive FsRequest where
  | Open (pathAddr pathLen : Word) (flags : BitVec 32)
  | Read (fd bufAddr count : Word)
  | Write (fd dataAddr count : Word)
  | Close (fd : Word)
  | Stat (pathAddr pathLen statAddr : Word)
  | Getdents64 (fd bufAddr count : Word)
  | Mkdir (pathAddr pathLen : Word)
  | Unlink (pathAddr pathLen : Word)
  | Access (pathAddr pathLen : Word) (mode : BitVec 32)
  | FileSize (fd : Word)
  deriving DecidableEq

inductive FsResponse where
  | Ok (val : Word)
  | Ok2 (a b : Word)
  | OkWithData (data : List Byte)
  | OkWithData2 (data : List Byte) (extra : Word)
  | Err (errno : Errno)
  deriving DecidableEq

def FsResponse.isErr : FsResponse → Bool
  | .Err _ => true
  | _ => false

/-- The bytes that a response carries. -/
def FsResponse.payload : FsResponse → List Byte
  | .OkWithData data => data
  | .OkWithData2 data _ => data
  | _ => []

structure FileEntry where
  path : Str
  inode : Nat
  size : Word
  offset : Word
  flags : BitVec 32
  deriving DecidableEq

/-- `FsService`, with the characters it has put on the debug console. -/
structure FsService (σ φ : Type) where
  fs : EXT4FSImpl σ φ
  fdTable : List (Option FileEntry)
  nextFd : Word
  console : List Byte

variable {σ φ : Type} (X : Externs σ φ) (s : FsService σ φ)

/-- `FsService::new`, over the disk that the image gives. -/
def FsService.new (disk : σ) : FsService σ φ :=
  { fs := EXT4FSImpl.new disk, fdTable := [none,none,none], nextFd := 3, console := [] }

/-- `fd_table.get(fd)`. -/
def FsService.entry (fd : Word) : Option FileEntry := lookup s.fdTable fd

def FsService.setEntry (fd : Word) (entry : Option FileEntry) : FsService σ φ :=
  { s with fdTable := s.fdTable.set fd.toNat entry }

def FsService.handleOpenWithPath (path : Str) (flags : BitVec 32) : Except Fault (FsResponse × FsService σ φ) :=
  if path.isEmpty then .ok (.Err (-22#32),s)
  else
    match s.fs.open X path flags with
    | (.ok (inode,size),fs) => do
      let fd := s.nextFd
      let table ← growTable HEAP_SIZE FILE_ENTRY_SIZE s.fdTable fd.toNat
      let _ ← allocate HEAP_SIZE path.len
      let entry : FileEntry := { path := path, inode := inode, size := size, offset := 0, flags := flags }
      .ok (.Ok fd,{ s with fs := fs, fdTable := table.set fd.toNat (some entry), nextFd := s.nextFd + 1 })
    | (.error e,fs) => .ok (.Err e,{ s with fs := fs })

/-- The 20 bytes that `handle_stat_with_path` collects: five little-endian words of 32 bits. -/
def statBytes (stat : Stat) : List Byte :=
  let le32 (w : BitVec 32) := (leBytes (w.setWidth 64)).take 4
  le32 stat.mode ++ le32 (stat.size.setWidth 32) ++ le32 ((stat.size >>> 32).setWidth 32) ++
    le32 (stat.ino.setWidth 32) ++ le32 stat.nlink

theorem statBytes_length (stat : Stat) : (statBytes stat).length = 20 := rfl

def FsService.handleStatWithPath (path : Str) : Except Fault (FsResponse × FsService σ φ) :=
  if path.isEmpty then .ok (.Err (-22#32),s)
  else
    match s.fs.open X path 0#32 with
    | (.ok (inode,_),fs) => do
      let (stat,fs) := fs.stat X inode
      let fs ← fs.close X inode
      .ok (.OkWithData (statBytes stat),{ s with fs := fs })
    | (.error e,fs) => .ok (.Err e,{ s with fs := fs })

def FsService.handleMkdirWithPath (path : Str) : Except Fault (FsResponse × FsService σ φ) :=
  if path.isEmpty then .ok (.Err (-22#32),s)
  else do
    let fs ← s.fs.mkdir X path
    .ok (.Ok 0,{ s with fs := fs })

def FsService.handleUnlinkWithPath (path : Str) : Except Fault (FsResponse × FsService σ φ) :=
  if path.isEmpty then .ok (.Err (-22#32),s)
  else do
    let fs ← s.fs.unlink X path
    .ok (.Ok 0,{ s with fs := fs })

def FsService.handleAccessWithPath (path : Str) : Except Fault (FsResponse × FsService σ φ) :=
  if path.isEmpty then .ok (.Err (-22#32),s)
  else
    match s.fs.open X path 0#32 with
    | (.ok (inode,_),fs) => do
      let fs ← fs.close X inode
      .ok (.Ok 0,{ s with fs := fs })
    | (.error _,fs) => .ok (.Err (-2#32),{ s with fs := fs })

/-- `handle_write_with_data`: the stored offset is where the bytes go, and stays. -/
def FsService.handleWriteWithData (fd : Word) (data : List Byte) : Except Fault (FsResponse × FsService σ φ) :=
  if fd = 0 then .ok (.Err (-9#32),s)
  else if fd = 1 ∨ fd = 2 then .ok (.Ok (BitVec.ofNat 64 data.length),{ s with console := s.console ++ data })
  else
    match s.entry fd with
    | some entry => do
      let (bytesWritten,fs) ← s.fs.writeAt X entry.inode entry.offset data
      .ok (.Ok bytesWritten,{ s with fs := fs })
    | none => .ok (.Err (-9#32),s)

/-- The offset that `handle_lseek` computes, in 64-bit two's complement. -/
def seekTarget (entry : FileEntry) (offset : Word) (whence : BitVec 32) : Except Errno Word :=
  if whence = 0 then
    if offset.toInt < 0 then .error (-22#32) else .ok offset
  else if whence = 1 then .ok (entry.offset + offset)
  else if whence = 2 then
    if 0 < offset.toInt then .error (-22#32) else .ok (entry.size + offset)
  else .error (-22#32)

def FsService.handleLseek (fd offset : Word) (whence : BitVec 32) : Except Fault (FsResponse × FsService σ φ) :=
  if fd.toNat ≤ 2 then .ok (.Err (-29#32),s)
  else
    match s.entry fd with
    | some entry =>
      match seekTarget entry offset whence with
      | .ok newOff => .ok (.Ok newOff,s.setEntry fd (some { entry with offset := newOff }))
      | .error e => .ok (.Err e,s)
    | none => .ok (.Err (-9#32),s)

def FsService.handleRead (fd count : Word) : Except Fault (FsResponse × FsService σ φ) :=
  if fd = 0 then .ok (.Ok 0,s)
  else if fd = 1 ∨ fd = 2 then .ok (.Err (-9#32),s)
  else
    match s.entry fd with
    | some entry => do
      let _ ← allocate HEAP_SIZE count.toNat
      let (bytesRead,buf,fs) ← s.fs.readAt X entry.inode entry.offset (List.replicate count.toNat 0)
      .ok (.OkWithData (buf.take bytesRead.toNat),
        { s with fs := fs }.setEntry fd (some { entry with offset := entry.offset + bytesRead }))
    | none => .ok (.Err (-9#32),s)

def FsService.handleClose (fd : Word) : Except Fault (FsResponse × FsService σ φ) :=
  if fd.toNat ≤ 2 then .ok (.Ok 0,s)
  else
    match s.entry fd with
    | some entry => do
      let fs ← s.fs.close X entry.inode
      .ok (.Ok 0,{ s with fs := fs }.setEntry fd none)
    | none => .ok (.Err (-9#32),s)

def FsService.handleGetdents64 (fd count : Word) : Except Fault (FsResponse × FsService σ φ) :=
  match s.entry fd with
  | some entry => do
    let _ ← allocate HEAP_SIZE count.toNat
    let (bytesRead,newOffset,buf,fs) ← s.fs.getdents64 X entry.inode entry.offset (List.replicate count.toNat 0)
    .ok (.OkWithData2 (buf.take bytesRead) newOffset,
      { s with fs := fs }.setEntry fd (some { entry with offset := newOffset }))
  | none => .ok (.Err (-9#32),s)

def FsService.handleFileSize (fd : Word) : Except Fault (FsResponse × FsService σ φ) :=
  match s.entry fd with
  | some entry => .ok (.Ok entry.size,s)
  | none => .ok (.Err (-9#32),s)

def FsService.handleRequest : FsRequest → Except Fault (FsResponse × FsService σ φ)
  | .Read fd _ count => s.handleRead X fd count
  | .Close fd => s.handleClose X fd
  | .Getdents64 fd _ count => s.handleGetdents64 X fd count
  | .FileSize fd => s.handleFileSize fd
  | _ => .ok (.Err (-38#32),s)

/-! ## Requests as the service loop makes them -/

/-- A handler with its arguments. -/
inductive Invocation where
  | openWithPath (path : Str) (flags : BitVec 32)
  | statWithPath (path : Str)
  | mkdirWithPath (path : Str)
  | unlinkWithPath (path : Str)
  | accessWithPath (path : Str)
  | writeWithData (fd : Word) (data : List Byte)
  | lseek (fd offset : Word) (whence : BitVec 32)
  | request (request : FsRequest)
  deriving DecidableEq

/-- The byte count that a request asks for. -/
def Invocation.count : Invocation → Nat
  | .request (.Read _ _ count) | .request (.Getdents64 _ _ count) => count.toNat
  | _ => 0

/-- The handler's run. -/
def FsService.invoke : Invocation → Except Fault (FsResponse × FsService σ φ)
  | .openWithPath path flags => s.handleOpenWithPath X path flags
  | .statWithPath path => s.handleStatWithPath X path
  | .mkdirWithPath path => s.handleMkdirWithPath X path
  | .unlinkWithPath path => s.handleUnlinkWithPath X path
  | .accessWithPath path => s.handleAccessWithPath X path
  | .writeWithData fd data => s.handleWriteWithData X fd data
  | .lseek fd offset whence => s.handleLseek fd offset whence
  | .request r => s.handleRequest X r

end Sel4Linux.Service
