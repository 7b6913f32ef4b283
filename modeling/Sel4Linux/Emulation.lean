import Sel4Linux.FileSyscalls

/-!
The syscalls that the root task's fault loop answers without its own variables
(`test_busybox` in `root-task/src/main.rs`). The guest shares the address space
of the root task, which therefore reads and writes its memory directly; files
are reached through the client of the file service, the console through the
debug port and COM1. Memory that a handler touches is taken to be mapped, and
what the loop prints about itself is left out.
-/
namespace Sel4Linux.Emulation
open Sel4Linux.Bytes Sel4Linux.Utf8 Sel4Linux.Ipc Sel4Linux.Client Sel4Linux.FileSyscalls
open Sel4Linux.Ext4 (Errno)
set_option linter.unusedSimpArgs false

/-- Why the loop has no next round. -/
inductive Stop where
  /-- The loop has been left. -/
  | left
  /-- A character is awaited that does not come. -/
  | waiting
  | fault (reason : Fault)
  deriving DecidableEq, Repr

/-- The bytes of the shared address space. -/
abbrev Mem := Word → Byte

/-- What the handlers reach: the file client with the console, the memory, and what the coming reads
    of the port give (an error and a value each). -/
structure World (ω : Type) where
  lcl : Lcl ω
  mem : Mem
  port : List (Word × Byte)

/-- `write_volatile` of bytes at consecutive addresses. -/
def storeBytes (mem : Mem) (addr : Word) (data : List Byte) : Mem := fun a => data.getD (a - addr).toNat (mem a)

/-- `read_volatile` of bytes at consecutive addresses. -/
def loadBytes (mem : Mem) (addr : Word) (len : Nat) : List Byte :=
  (List.range len).map fun j => mem (addr + BitVec.ofNat 64 j)

/-- `read_volatile` of a word. -/
def loadWord (mem : Mem) (addr : Word) : Word := packWord (loadBytes mem addr 8) 0

/-- What has been written is read back. -/
theorem loadBytes_storeBytes (mem : Mem) (addr : Word) {data : List Byte} (fits : data.length ≤ 2 ^ 64) :
    loadBytes (storeBytes mem addr data) addr data.length = data := by
  refine List.ext_getElem (by simp [loadBytes]) ?_
  intro j inLoaded inData
  have offset : (addr + BitVec.ofNat 64 j - addr).toNat = j := by
    rw [BitVec.add_comm,BitVec.add_sub_cancel,BitVec.toNat_ofNat,Nat.mod_eq_of_lt (by omega)]
  simp only [loadBytes,storeBytes,List.getElem_map,List.getElem_range,offset]
  rw [List.getD_eq_getElem?_getD,List.getElem?_eq_getElem inData]
  rfl

/-- The loop of `read_cstr_from_child`. -/
def cstrFromChild (mem : Mem) : Nat → Word → List Byte
  | 0, _ => []
  | fuel + 1, a => if mem a = 0 then [] else mem a :: cstrFromChild mem fuel (a + 1)

def readCstrFromChild (mem : Mem) (addr : Word) : Str := Str.fromUtf8Lossy (cstrFromChild mem 4096 addr)

/-- A negative constant of the source: `(-n i32) as usize`. -/
def negative (n : Nat) : Word := (-(BitVec.ofNat 32 n)).signExtend 64

/-- `(-(e.abs())) as usize`. -/
def errorWord (e : Errno) : Word := (-(if e.msb then -e else e)).signExtend 64

/-- The last component of a path. -/
def basename (path : Str) : List Byte := (path.bytes.reverse.takeWhile (· ≠ 0x2F)).reverse

/-- Commands that a shell may ask for by name. -/
def applets : List String :=
  ["ls","cat","echo","cp","mv","rm","mkdir","rmdir","chmod","chown","touch","grep","sed","awk","find","sort","uniq",
    "wc","head","tail","more","less","vi","ed","pwd","cd","mount","umount","df","du","free","ps","kill","ln","tar",
    "gzip","gunzip","bzip2","wget","ping","ifconfig","route","traceroute","nslookup","telnet","ftp","sh","ash","bash",
    "busybox","test","[","true","false","sleep","date","hostname","uname","id","whoami","env","export","set","unset",
    "read","expr","seq","yes","basename","dirname","realpath","which","type","source",".","exec","exit","return","trap",
    "wait","jobs","fg","bg","alias","unalias","history","fc","let","local","declare","typeset","shift","getopts","eval",
    "command","enable","builtin","hash","help","suspend","times","ulimit","umask","disown","logout","caller","compgen",
    "complete","compopt","mapfile","readarray","printf","tee","xargs","tr","cut","paste","join","comm","diff","patch",
    "strings","od","xxd","hexdump","rev","tac","nl","fold","fmt","pr","column","expand","unexpand","iconv","dos2unix",
    "unix2dos","cksum","sum","md5sum","sha1sum","sha256sum","sha512sum","base64","uuencode","uudecode","makedevs",
    "mdev","devfs","hotplug","pivot_root","switch_root","chroot","chrt","taskset","ionice","nice","nohup","timeout",
    "stdbuf","env","printenv","time","watch","run-parts","strings","objcopy","ar","ld","nm","size","strip","readelf",
    "objdump","addr2line","c++filt","as","ranlib"]

def isApplet (name : List Byte) : Bool :=
  applets.any fun applet => applet.toList.map (fun c => BitVec.ofNat 8 c.toNat) = name

variable {ω : Type} (K : Kernel ω) (w : World ω)

/-- Characters on the debug console. -/
def World.print (data : List Byte) : World ω := { w with lcl := { w.lcl with console := w.lcl.console ++ data } }

/-- Bytes written to guest memory. -/
def World.store (addr : Word) (data : List Byte) : World ω := { w with mem := storeBytes w.mem addr data }

/-- What a handler gives: the value for RAX and what it has reached afterwards. -/
abbrev Emulated (ω : Type) := Word × World ω

/-- A call of the file client. -/
def World.client {α : Type} (call : Lcl ω → Except Fault (α × Lcl ω)) : Except Stop (α × World ω) :=
  match call w.lcl with
  | .ok (a,lcl) => .ok (a,{ w with lcl := lcl })
  | .error reason => .error (.fault reason)

/-- `read_stdin_line`, from the `n`th character on; `port` is what the coming reads of COM1 give. -/
def readStdinLine (buf count : Word) (lcl : Lcl ω) (mem : Mem) (n : Word) : List (Word × Byte) → Except Stop (Emulated ω)
  | [] => .error .waiting
  | (err,lsr) :: port =>
    if err ≠ 0 then .ok (n,⟨lcl,mem,port⟩)
    else if lsr &&& 1 = 0 then readStdinLine buf count lcl mem n port
    else
      match port with
      | [] => .error .waiting
      | (err,ch) :: port =>
        if err ≠ 0 then .ok (n,⟨lcl,mem,port⟩)
        else if ch = 0x0D ∨ ch = 0x0A then
          let lcl := { lcl with console := lcl.console ++ [0x0D,0x0A] }
          if n < count then .ok (n + 1,⟨lcl,storeBytes mem (buf + n) [0x0A],port⟩) else .ok (n,⟨lcl,mem,port⟩)
        else if ch = 0x7F ∨ ch = 0x08 then
          let (n,lcl) := if 0 < n then (n - 1,{ lcl with console := lcl.console ++ [0x08,0x20,0x08] }) else (n,lcl)
          if count ≤ n then .ok (n,⟨lcl,mem,port⟩) else readStdinLine buf count lcl mem n port
        else
          let (n,mem,lcl) :=
            if n < count then (n + 1,storeBytes mem (buf + n) [ch],{ lcl with console := lcl.console ++ [ch] })
            else (n,mem,lcl)
          if count ≤ n then .ok (n,⟨lcl,mem,port⟩) else readStdinLine buf count lcl mem n port

/-- The prompt before a line is read. -/
def PROMPT : List Byte := [0x2F,0x20,0x23,0x20]

def readCall (rdi rsi rdx : Word) : Except Stop (Emulated ω) :=
  if rdi = 0 ∧ 0 < rdx then readStdinLine rsi rdx (w.print PROMPT).lcl w.mem 0 w.port
  else if 3 ≤ rdi ∧ 0 < rdx then do
    let ((r,buf),w) ← w.client fun lcl => lcl.read K rdi (List.replicate (min rdx.toNat 944) 0)
    match r with
    | .ok n => if 0 < n then .ok (n,w.store rsi (buf.take n.toNat)) else .ok (0,w)
    | .error _ => .ok (0,w)
  else .ok (0,w)

/-- A result of the file client as the value for RAX. -/
def clientResult (r : SysResult) : Word :=
  match r with
  | .ok v => v
  | .error e => errorWord e

def writeCall (rdi rsi rdx : Word) : Except Stop (Emulated ω) :=
  if rdi ≤ 2 then .ok (rdx,w.print (loadBytes w.mem rsi (min rdx.toNat 4096)))
  else do
    let (r,w) ← w.client fun lcl => lcl.write K rdi (loadBytes w.mem rsi (min rdx.toNat 944))
    .ok (clientResult r,w)

/-- close: errors are ignored. -/
def closeCall (rdi : Word) : Except Stop (Emulated ω) := do
  let (_,w) ← w.client fun lcl => lcl.close K rdi
  .ok (0,w)

/-- The loop of writev over the vectors from `v` on, with the lengths added up so far. -/
def writevLoop (rsi : Word) : Nat → Word → Word → World ω → Word × World ω
  | 0, _, total, w => (total,w)
  | n + 1, v, total, w =>
    let iov := rsi + v * 16
    let base := loadWord w.mem iov
    let len := loadWord w.mem (iov + 8)
    writevLoop rsi n (v + 1) (total + len) (w.print (loadBytes w.mem base (min len.toNat 8192)))

def writevCall (rdi rsi rdx : Word) : Except Stop (Emulated ω) :=
  if rdi ≤ 2 then .ok (writevLoop rsi (min rdx.toNat 64) 0 0 w) else .ok (negative 9,w)

/-- open and openat: the devices have fixed descriptors. -/
def openCall (pathAddr : Word) (flags : BitVec 32) : Except Stop (Emulated ω) :=
  let path := readCstrFromChild w.mem pathAddr
  if path = DEV_NULL then .ok (10,w)
  else if path = DEV_ZERO then .ok (11,w)
  else if path = DEV_URANDOM then .ok (12,w)
  else do
    let (r,w) ← w.client fun lcl => lcl.open K path flags
    .ok (clientResult r,w)

def lseekCall (rdi rsi rdx : Word) : Except Stop (Emulated ω) := do
  let (r,w) ← w.client fun lcl => lcl.lseek K rdi rsi (rdx.setWidth 32)
  .ok (clientResult r,w)

def getdents64Call (rdi rsi rdx : Word) : Except Stop (Emulated ω) := do
  let count := min rdx.toNat 944
  let ((r,buf),w) ← w.client fun lcl => lcl.getdents64 K rdi (List.replicate count 0)
  match r with
  | .ok n => if 0 < n then .ok (n,w.store rsi (buf.take (min n.toNat count))) else .ok (0,w)
  | .error e => .ok (errorWord e,w)

/-- A file's status into the buffer at `statbuf`. -/
def statPath (path : Str) (statbuf : Word) : Except Stop (Emulated ω) := do
  let (r,w) ← w.client fun lcl => lcl.stat K path
  match r with
  | .ok (mode,size,ino,nlink) => .ok (0,w.store statbuf (structStat ino (nlink.setWidth 64) mode size 4096 ((size + 511) / 512)))
  | .error e => .ok (errorWord e,w)

def newfstatatCall (rsi rdx : Word) : Except Stop (Emulated ω) := statPath K w (readCstrFromChild w.mem rsi) rdx

/-- stat: the shell's commands are executable files. -/
def statCall (rdi rsi : Word) : Except Stop (Emulated ω) :=
  let path := readCstrFromChild w.mem rdi
  if isApplet (basename path) then .ok (0,w.store rsi (structStat 1 1 0o100755 4096 4096 8))
  else statPath K w path rsi

def fstatCall (rdi rsi : Word) : Except Stop (Emulated ω) :=
  if rdi ≤ 2 ∨ 10 ≤ rdi ∧ rdi ≤ 12 then .ok (0,w)
  else do
    let (r,w) ← w.client fun lcl => lcl.fileSize K rdi
    match r with
    | .ok size => .ok (0,w.store rsi (structStat 0 0 0o100644 size 4096 0))
    | .error e => .ok (errorWord e,w)

/-- access and faccessat. -/
def accessCall (pathAddr : Word) (mode : BitVec 32) : Except Stop (Emulated ω) := do
  let (r,w) ← w.client fun lcl => lcl.access K (readCstrFromChild w.mem pathAddr) mode
  match r with
  | .ok _ => .ok (0,w)
  | .error e => .ok (errorWord e,w)

def unameCall (rdi : Word) : Except Stop (Emulated ω) :=
  .ok (0,w.store rdi (utsField ['L','i','n','u','x'] ++ utsField ['s','e','l','4'] ++
    utsField ['6','.','0','.','0','-','s','e','l','4'] ++ utsField ['#','1',' ','s','e','L','4'] ++
    utsField ['x','8','6','_','6','4'] ++ utsField ['(','n','o','n','e',')']))

/-- getcwd: the length with the final zero. -/
def getcwdCall (rdi rsi : Word) : Except Stop (Emulated ω) :=
  if 2 ≤ rsi then .ok (2,w.store rdi [0x2F,0]) else .ok (negative 34,w)

/-- The syscalls that are answered without the loop's variables. -/
def emulate (rax rdi rsi rdx : Word) : Except Stop (Emulated ω) :=
  match rax.toNat with
  | 0 => readCall K w rdi rsi rdx
  | 1 => writeCall K w rdi rsi rdx
  | 2 => openCall K w rdi (rsi.setWidth 32)
  | 3 => closeCall K w rdi
  | 4 => statCall K w rdi rsi
  | 5 => fstatCall K w rdi rsi
  | 8 => lseekCall K w rdi rsi rdx
  | 16 => .ok (negative 25,w)
  | 20 => writevCall w rdi rsi rdx
  | 21 => accessCall K w rdi (rsi.setWidth 32)
  | 63 => unameCall w rdi
  | 79 => getcwdCall w rdi rsi
  | 217 => getdents64Call K w rdi rsi rdx
  | 257 => openCall K w rsi (rdx.setWidth 32)
  | 262 => newfstatatCall K w rsi rdx
  | 269 => accessCall K w rsi (rdx.setWidth 32)
  -- mprotect, munmap, rt_sigaction, rt_sigprocmask, kill, fcntl, getuid, getgid, geteuid, getegid, setpgid, getppid, sigaltstack
  | 10 | 11 | 13 | 14 | 62 | 72 | 102 | 104 | 107 | 108 | 109 | 110 | 131 => .ok (0,w)
  -- getpid, getpgrp, getpgid, gettid, set_tid_address
  | 39 | 111 | 121 | 186 | 218 => .ok (1,w)
  | _ => .ok (negative 38,w)

end Sel4Linux.Emulation
