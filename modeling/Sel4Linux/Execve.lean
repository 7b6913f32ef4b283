import Sel4Linux.FileSyscalls
import Sel4Linux.MemImage
import Sel4Linux.Task

/-!
execve in the Linux layer (`lcl/src/syscall/exec.rs`). The file is read whole,
its loadable segments are mapped and written, and a stack is set up. The loader
never reads the task's memory: what it does to it is a list of page maps and
writes that depends on the file only (`imageOps`). The page contents of the old
program are not cleared, so two tasks read the same after an execve, with zeros
where the program asks for zeros, exactly when their old memories agree on what
the list leaves, and are zero there (`execve_fresh_iff`).
-/
namespace Sel4Linux.Execve
open Sel4Linux.Bytes Sel4Linux.Utf8 Sel4Linux.Ipc Sel4Linux.TaskMem Sel4Linux.Client Sel4Linux.FileSyscalls Sel4Linux.MemImage
open Sel4Linux.Task Sel4Linux.Runs
open Sel4Linux.Ext4 (Errno)
set_option linter.unusedSimpArgs false

def ELF_MAGIC : List Byte := [0x7F,0x45,0x4C,0x46]
def ELFCLASS64 : Byte := 2
def PT_LOAD : Word := 1

def LOAD_BASE : Word := 0x400000

def STACK_TOP : Word := 0x2000000

variable {ω : Type} (K : Kernel ω)

def readElfFile (s : Lcl ω) (path : Str) : Except Fault (Except Errno (List Byte) × Lcl ω) := do
  let (opened,s) ← s.open K path 0
  match opened with
  | .error e => .ok (.error e,s)
  | .ok fd => do
    let (asked,s) ← s.fileSize K fd
    match asked with
    | .error e => .ok (.error e,s)
    | .ok size => do
      let _ ← allocate HEAP_SIZE size.toNat
      let ((got,content),s) ← s.read K fd (List.replicate size.toNat 0)
      match got with
      | .error e => .ok (.error e,s)
      | .ok bytesRead => do
        let (_,s) ← s.close K fd
        if bytesRead ≠ size then .ok (.error (-5),s) else .ok (.ok content,s)

def validateElfHeader (data : List Byte) : Except Errno Unit :=
  if data.length < 64 then .error (-8)
  else if data.take 4 ≠ ELF_MAGIC then .error (-8)
  else if data.getD 4 0 ≠ ELFCLASS64 then .error (-8)
  else if data.getD 5 0 ≠ 1 then .error (-8)
  else .ok ()

/-- `data[start..stop]`. -/
def slice (data : List Byte) (start stop : Word) : Except Fault (List Byte) :=
  if start ≤ stop ∧ stop.toNat ≤ data.length then .ok ((data.take stop.toNat).drop start.toNat) else .error .range

def field (data : List Byte) (pos : Word) (width : Word) : Except Fault Word := do
  let bytes ← slice data pos (pos + width)
  .ok (packWord bytes 0)

structure ElfHeader where
  entry : Word
  phoff : Word
  phentsize : Word
  phnum : Word

def readHeader (data : List Byte) : Except Fault ElfHeader := do
  let phoff ← field data 32 8
  let phentsize ← field data 54 2
  let phnum ← field data 56 2
  let entry ← field data 24 8
  .ok { entry := entry, phoff := phoff, phentsize := phentsize, phnum := phnum }

def ElfHeader.offset (h : ElfHeader) (i : Nat) : Word := h.phoff + BitVec.ofNat 64 i * h.phentsize

/-- The lowest address of a segment, over `n` headers from the `i`th on. -/
def lowestVaddr (data : List Byte) (h : ElfHeader) : Nat → Nat → Word → Except Fault Word
  | 0, _, lowest => .ok lowest
  | n + 1, i, lowest =>
    let phOff := h.offset i
    if data.length < (phOff + 56).toNat then .ok lowest
    else do
      let pType ← field data phOff 4
      if pType = PT_LOAD then do
        let pVaddr ← field data (phOff + 16) 8
        lowestVaddr data h n (i + 1) (if pVaddr < lowest then pVaddr else lowest)
      else lowestVaddr data h n (i + 1) lowest

/-- The page maps and the write for a segment. -/
def segmentOps (data : List Byte) (phOff relocOffset : Word) : Except Fault (List MemOp) := do
  let pOffset ← field data (phOff + 8) 8
  let pVaddr ← field data (phOff + 16) 8
  let pFilesz ← field data (phOff + 32) 8
  let pMemsz ← field data (phOff + 40) 8
  let relocatedVaddr := pVaddr + relocOffset
  let endPage := pageVaddr (relocatedVaddr + pMemsz + BitVec.ofNat 64 (PAGE_SIZE - 1))
  let maps := (pageRange (pageVaddr relocatedVaddr) endPage).map MemOp.map
  if 0 < pFilesz then do
    let segmentData ← slice data pOffset (pOffset + pFilesz)
    .ok (maps ++ [.write relocatedVaddr segmentData])
  else .ok maps

/-- The loop of `load_elf_segments` over `n` headers from the `i`th on: what it does to the task's memory. -/
def segmentsOps (data : List Byte) (h : ElfHeader) (relocOffset : Word) : Nat → Nat → Except Fault (List MemOp)
  | 0, _ => .ok []
  | n + 1, i =>
    let phOff := h.offset i
    if data.length < (phOff + 56).toNat then .ok []
    else do
      let pType ← field data phOff 4
      if pType ≠ PT_LOAD then segmentsOps data h relocOffset n (i + 1)
      else do
        let here ← segmentOps data phOff relocOffset
        let rest ← segmentsOps data h relocOffset n (i + 1)
        .ok (here ++ rest)

/-- `load_elf_segments`: the entry, and what is done to the task's memory. -/
def loadElfSegments (data : List Byte) (relocOffset : Word) : Except Fault (Word × List MemOp) := do
  let h ← readHeader data
  let ops ← segmentsOps data h relocOffset h.phnum.toNat 0
  .ok (h.entry + relocOffset,ops)

/-- Strings with their final zeros from `strPtr` on: the writes, where each string is, and the end. -/
def stringOps : Word → List (List Byte) → List MemOp × List Word × Word
  | strPtr, [] => ([],[],strPtr)
  | strPtr, text :: rest =>
    let stop := strPtr + BitVec.ofNat 64 text.length
    let (ops,ptrs,last) := stringOps (stop + 1) rest
    (.write strPtr text :: .write stop [0] :: ops,strPtr :: ptrs,last)

/-- Pointers and a final zero from `sp` on. -/
def pointerOps (sp : Word) (ptrs : List Word) : List MemOp :=
  (ptrs.zipIdx.map fun (ptr,i) => MemOp.write (sp + BitVec.ofNat 64 (i * 8)) (leBytes ptr)) ++
    [.write (sp + BitVec.ofNat 64 (ptrs.length * 8)) (List.replicate 8 0)]

/-- `setup_stack`: the stack pointer, and what is done to the task's memory. -/
def setupStack (stackTop : Word) (args envp : List (List Byte)) : Word × List MemOp :=
  let strPtr := stackTop - 4096
  let (argOps,argPtrs,strPtr) := stringOps strPtr args
  let (envOps,envPtrs,strPtr) := stringOps strPtr envp
  let strPtr := (strPtr + 15) &&& ~~~15#64
  let auxSp := strPtr - 16
  let envSp := auxSp - BitVec.ofNat 64 ((envp.length + 1) * 8)
  let argSp := envSp - BitVec.ofNat 64 ((args.length + 1) * 8)
  let sp := argSp - 8
  (sp,argOps ++ envOps ++ .write auxSp (List.replicate 16 0) :: pointerOps envSp envPtrs ++ pointerOps argSp argPtrs ++
    [.write sp (leBytes (BitVec.ofNat 64 args.length))])

def ARG : List Byte := (ascii ['b','u','s','y','b','o','x']).bytes

def ENV : List Byte := (ascii ['P','A','T','H','=','/','u','s','r','/','b','i','n',':','/','b','i','n']).bytes

/-- What an executable does to the memory of the task that runs it: nothing when it has no segment. -/
def imageOf (data : List Byte) : Except Fault (Option (Word × List MemOp)) := do
  let h ← readHeader data
  let lowest ← lowestVaddr data h h.phnum.toNat 0 (BitVec.allOnes 64)
  if lowest = BitVec.allOnes 64 then .ok none
  else do
    let (entry,segments) ← loadElfSegments data (LOAD_BASE - lowest)
    .ok (some (entry,segments ++ (setupStack STACK_TOP [ARG] [ENV]).2))

def sysExecve (s : Lcl ω) (task : Sel4Task) (pathAddr _argvAddr _envpAddr : Word) :
    Except Fault ((SysResult × Sel4Task) × Lcl ω) :=
  let path := readCstrFromTask task.mem pathAddr
  if path.isEmpty then .ok ((.error (-2),task),s)
  else do
    let (file,s) ← readElfFile K s path
    match file with
    | .error e => .ok ((.error e,task),s)
    | .ok data =>
      match validateElfHeader data with
      | .error e => .ok ((.error e,task),s)
      | .ok () => do
        let image ← imageOf data
        match image with
        | none => .ok ((.error (-8),task),s)
        | some (entry,ops) =>
          let task := task.clearMapped
          .ok ((.ok 0,{ task with mem := runOps task.mem ops, entry := entry }),s)

/-! ## What an execve leaves of the old memory -/

/-- The page maps and writes of an executable; none when there is nothing to load. -/
def imageOps (data : List Byte) : List MemOp :=
  match imageOf data with
  | .ok (some (_,ops)) => ops
  | _ => []

/-- The address is in the part of a loadable segment that the file has no bytes for. -/
def ZeroArea (data : List Byte) (a : Word) : Prop :=
  ∃ h lowest, readHeader data = .ok h ∧ lowestVaddr data h h.phnum.toNat 0 (BitVec.allOnes 64) = .ok lowest ∧
    ∃ i < h.phnum.toNat, (∀ j ≤ i, (h.offset j + 56).toNat ≤ data.length) ∧ field data (h.offset i) 4 = .ok PT_LOAD ∧
      ∃ pVaddr pFilesz pMemsz, field data (h.offset i + 16) 8 = .ok pVaddr ∧
        field data (h.offset i + 32) 8 = .ok pFilesz ∧ field data (h.offset i + 40) 8 = .ok pMemsz ∧
        pFilesz ≤ a - (pVaddr + (LOAD_BASE - lowest)) ∧ a - (pVaddr + (LOAD_BASE - lowest)) < pMemsz

variable {K}

/-- A successful execve of a path whose file has this content, with the task afterwards. -/
def Executes (K : Kernel ω) (task : Sel4Task) (path : Str) (data : List Byte) (task' : Sel4Task) : Prop :=
  ∃ s u v pathAddr argvAddr envpAddr r, readCstrFromTask task.mem pathAddr = path ∧ readElfFile K s path = .ok (.ok data,u) ∧
    sysExecve K s task pathAddr argvAddr envpAddr = .ok ((.ok r,task'),v)

/-- The memory after an execve is the old one with the page maps and writes of the executable. -/
theorem mem_executes {task task' : Sel4Task} {path : Str} {data : List Byte} (executes : Executes K task path data task') :
    task'.mem = runOps task.clearMapped.mem (imageOps data) := by
  obtain ⟨s,u,v,pathAddr,argvAddr,envpAddr,r,isPath,file,ran⟩ := executes
  rw [← isPath] at file
  unfold sysExecve at ran
  dsimp only at ran
  split at ran
  · cases ran
  · rw [file] at ran
    simp only [ok_bind] at ran
    split at ran
    · cases ran
    · obtain ⟨image,isImage,ran⟩ := bind_ok_iff.mp ran
      cases image with
      | none => cases ran
      | some image =>
        obtain ⟨entry,ops⟩ := image
        cases ran
        rw [imageOps,isImage]

/-- `clear_mapped` leaves the page contents. -/
theorem byteOf_clearMapped (task : Sel4Task) (a : Word) : byteOf task.clearMapped.mem a = byteOf task.mem a := rfl

theorem byteOf_executes {task task' : Sel4Task} {path : Str} {data : List Byte} (executes : Executes K task path data task')
    (a : Word) : byteOf task'.mem a = (effectOf (imageOps data) a).apply (byteOf task.mem a) := by
  rw [mem_executes executes,byteOf_runOps,byteOf_clearMapped]

/-- Two tasks that execute the same file read the same afterwards, and zeros where it asks for zeros, exactly when
    their old memories agree on the bytes that the page maps and writes leave, and have zeros there. -/
theorem execve_fresh_iff {ω₁ ω₂ : Type} {K₁ : Kernel ω₁} {K₂ : Kernel ω₂} {t₁ t₂ t₁' t₂' : Sel4Task} {path : Str}
    {data : List Byte} (first : Executes K₁ t₁ path data t₁') (second : Executes K₂ t₂ path data t₂') :
    (SameReads t₁'.mem t₂'.mem ∧ ∀ a, ZeroArea data a → byteOf t₁'.mem a = some 0 ∧ byteOf t₂'.mem a = some 0) ↔
      (∀ a, (effectOf (imageOps data) a).Agree (byteOf t₁.mem a) (byteOf t₂.mem a)) ∧
        ∀ a, ZeroArea data a → (effectOf (imageOps data) a).Zeroed (byteOf t₁.mem a) ∧
          (effectOf (imageOps data) a).Zeroed (byteOf t₂.mem a) := by
  refine and_congr ?_ (forall_congr' fun a => imp_congr_right fun _ => ?_)
  · rw [mem_executes first,mem_executes second]
    exact run_same_iff (imageOps data) t₁.clearMapped.mem t₂.clearMapped.mem
  · rw [byteOf_executes first,byteOf_executes second]
    exact and_congr (apply_eq_zero_iff (effectOf (imageOps data) a) (byteOf t₁.mem a))
      (apply_eq_zero_iff (effectOf (imageOps data) a) (byteOf t₂.mem a))

/-! A program with one page at 0x400000 and a file service that has nothing else. -/

def zeros16 : List Byte :=
  [0x7F,0x45,0x4C,0x46,2,1,1,0] ++ List.replicate 16 0 ++ leBytes 0x400000 ++ leBytes 64 ++ List.replicate 14 0 ++
    [56,0,1,0] ++ List.replicate 6 0 ++ [1,0,0,0] ++ List.replicate 12 0 ++ leBytes 0x400000 ++ List.replicate 16 0 ++
    leBytes 16 ++ leBytes 0x1000

/-- A program whose segment has the first 16 bytes of its file, and four zeros behind them. -/
def magic16 : List Byte :=
  [0x7F,0x45,0x4C,0x46,2,1,1,0] ++ List.replicate 16 0 ++ leBytes 0x400000 ++ leBytes 64 ++ List.replicate 14 0 ++
    [56,0,1,0] ++ List.replicate 6 0 ++ [1,0,0,0] ++ List.replicate 12 0 ++ leBytes 0x400000 ++ List.replicate 8 0 ++
    leBytes 16 ++ leBytes 20 ++ leBytes 0x1000

def serving (content : List Byte) : Kernel Unit := fun world message =>
  let result := if message.ib.readMr 0 = REQ_OPEN then 1 else BitVec.ofNat 64 content.length
  let reply := (message.ib.writeMr 0 RESP_OK).writeMr 1 result
  .ok (world,if message.ib.readMr 0 = REQ_READ then (packMrs reply content DATA_MR_START).2 else reply)

def freshLayer : Lcl Unit := { client := FsClient.new, ib := IpcBuffer.new, world := (), sent := [], console := [] }

/-- A task that has the path "a" at 0x1000. -/
def asking : Sel4Task := { Sel4Task.new 1 1 with mem := TaskMemInfo.default.writePage 0x1000 0 [0x61] }

/-- The same with a byte where the program is going to be. -/
def remembering : Sel4Task := { asking with mem := asking.mem.writePage 0x400000 0 [7] }

/-- The same with other bytes there. -/
def otherwise : Sel4Task := { asking with mem := asking.mem.writePage 0x400000 0 [9,8] }

private theorem executes_of {task : Sel4Task} {content : List Byte} (path : readCstrFromTask task.mem 0x1000 = ascii ['a'])
    (file : (readElfFile (serving content) freshLayer (ascii ['a'])).toOption.map (fun a => a.1) = some (.ok content))
    (ran : (sysExecve (serving content) freshLayer task 0x1000 0 0).toOption.map (fun a => a.1.1) = some (.ok 0)) :
    ∃ task', Executes (serving content) task (ascii ['a']) content task' := by
  cases isRead : readElfFile (serving content) freshLayer (ascii ['a']) with
  | error fault =>
    rw [isRead] at file
    cases file
  | ok read =>
    obtain ⟨got,u⟩ := read
    rw [isRead] at file
    cases file
    cases isRun : sysExecve (serving content) freshLayer task 0x1000 0 0 with
    | error fault =>
      rw [isRun] at ran
      cases ran
    | ok done =>
      obtain ⟨⟨result,task'⟩,v⟩ := done
      rw [isRun] at ran
      cases ran
      exact ⟨task',freshLayer,u,v,0x1000,0,0,0,path,isRead,isRun⟩

private theorem asking_executes : ∃ task', Executes (serving zeros16) asking (ascii ['a']) zeros16 task' :=
  executes_of (by decide +kernel) (by decide +kernel) (by decide +kernel)

private theorem remembering_executes : ∃ task', Executes (serving zeros16) remembering (ascii ['a']) zeros16 task' :=
  executes_of (by decide +kernel) (by decide +kernel) (by decide +kernel)

/-- The old bytes of the two tasks differ in two places only. -/
private theorem old_bytes_agree {effects : Word → Effect} (zeroth : effects 0x400000 = .set 0x7F)
    (one : effects 0x400001 = .set 0x45) (a : Word) : (effects a).Agree (byteOf remembering.mem a) (byteOf otherwise.mem a) := by
  have first : byteOf remembering.mem a = (pageEffect 0x400000 0 [7] a).apply (byteOf asking.mem a) := byteOf_writePage _ _ _
  have second : byteOf otherwise.mem a = (pageEffect 0x400000 0 [9,8] a).apply (byteOf asking.mem a) := byteOf_writePage _ _ _
  rw [first,second]
  generalize byteOf asking.mem a = old
  by_cases own : pageVaddr a = 0x400000 ∧ pageOffset a < 2
  · obtain ⟨page,low⟩ := own
    have place := toNat_pageVaddr a
    rw [← pageOffset_eq,page] at place
    change 0x400000 = _ at place
    obtain rfl | rfl : a = 0x400000 ∨ a = 0x400001 := by
      rcases Nat.le_one_iff_eq_zero_or_eq_one.mp (Nat.lt_succ_iff.mp low) with none' | some'
      · exact .inl (BitVec.eq_of_toNat_eq (by simp; omega))
      · exact .inr (BitVec.eq_of_toNat_eq (by simp; omega))
    · rw [zeroth]
      trivial
    · rw [one]
      trivial
  · refine (apply_eq_iff _ _ _).mp (congrArg _ (congrArg (fun effect => Effect.apply effect _) ?_))
    rw [pageEffect,pageEffect]
    by_cases page : pageVaddr a = 0x400000
    · have high : 2 ≤ pageOffset a := Nat.le_of_not_lt fun low => own ⟨page,low⟩
      rw [if_pos page,if_pos page,List.getElem?_eq_none (by simp; omega),List.getElem?_eq_none (by simp; omega)]
    · rw [if_neg page,if_neg page]

/-- The zeros of the program are its four bytes behind those of the file. -/
private theorem zeroArea_magic16 {a : Word} (zero : ZeroArea magic16 a) :
    a = 0x400010 ∨ a = 0x400011 ∨ a = 0x400012 ∨ a = 0x400013 := by
  obtain ⟨h,lowest,isHeader,isLowest,i,low,_,_,pVaddr,pFilesz,pMemsz,isVaddr,isFilesz,isMemsz,behind,inside⟩ := zero
  rw [readHeader,show field magic16 32 8 = .ok 64 by decide +kernel,show field magic16 54 2 = .ok 56 by decide +kernel,
    show field magic16 56 2 = .ok 1 by decide +kernel,show field magic16 24 8 = .ok 0x400000 by decide +kernel] at isHeader
  cases isHeader
  obtain rfl : i = 0 := Nat.lt_one_iff.mp low
  obtain rfl : 0x400000 = lowest := Except.ok.inj (.trans (by decide +kernel) isLowest)
  obtain rfl : 0x400000 = pVaddr := Except.ok.inj (.trans (by decide +kernel) isVaddr)
  obtain rfl : 16 = pFilesz := Except.ok.inj (.trans (by decide +kernel) isFilesz)
  obtain rfl : 20 = pMemsz := Except.ok.inj (.trans (by decide +kernel) isMemsz)
  rw [show (0x400000 : Word) + (LOAD_BASE - 0x400000) = 0x400000 by decide] at behind inside
  bv_omega

/-- Two tasks whose old bytes differ where the program has bytes of its own read the same afterwards. -/
theorem execve_fresh_iff_magic : ∃ t₁' t₂', Executes (serving magic16) remembering (ascii ['a']) magic16 t₁' ∧
    Executes (serving magic16) otherwise (ascii ['a']) magic16 t₂' ∧ byteOf remembering.mem 0x400000 = some 7 ∧
    byteOf otherwise.mem 0x400000 = some 9 ∧ SameReads t₁'.mem t₂'.mem ∧
    ∀ a, ZeroArea magic16 a → byteOf t₁'.mem a = some 0 ∧ byteOf t₂'.mem a = some 0 := by
  obtain ⟨t₁',first⟩ : ∃ task', Executes (serving magic16) remembering (ascii ['a']) magic16 task' :=
    executes_of (by decide +kernel) (by decide +kernel) (by decide +kernel)
  obtain ⟨t₂',second⟩ : ∃ task', Executes (serving magic16) otherwise (ascii ['a']) magic16 task' :=
    executes_of (by decide +kernel) (by decide +kernel) (by decide +kernel)
  have zeroed : ∀ a, ZeroArea magic16 a → (effectOf (imageOps magic16) a).Zeroed (byteOf remembering.mem a) ∧
      (effectOf (imageOps magic16) a).Zeroed (byteOf otherwise.mem a) := by
    intro a zero
    have blank : effectOf (imageOps magic16) a = .blank ∧ byteOf remembering.mem a = some 0 ∧ byteOf otherwise.mem a = some 0 := by
      rcases zeroArea_magic16 zero with rfl | rfl | rfl | rfl <;> decide +kernel
    rw [blank.1,blank.2.1,blank.2.2]
    exact ⟨rfl,rfl⟩
  have zeroth : effectOf (imageOps magic16) 0x400000 = .set 0x7F := by decide +kernel
  have one : effectOf (imageOps magic16) 0x400001 = .set 0x45 := by decide +kernel
  have fresh := execve_fresh_iff first second
  generalize effectOf (imageOps magic16) = effects at zeroth one zeroed fresh
  exact ⟨t₁',t₂',first,second,by decide +kernel,by decide +kernel,fresh.mpr ⟨old_bytes_agree zeroth one,zeroed⟩⟩

/-- The old byte at 0x400000 is still there after the execve of a program whose byte there is zero. -/
theorem execve_keeps_old_bytes :
    ∃ t₁' t₂', Executes (serving zeros16) remembering (ascii ['a']) zeros16 t₁' ∧
      Executes (serving zeros16) asking (ascii ['a']) zeros16 t₂' ∧
      ¬ SameReads t₁'.mem t₂'.mem ∧ byteOf t₁'.mem 0x400000 = some 7 := by
  obtain ⟨t₁',first⟩ := remembering_executes
  obtain ⟨t₂',second⟩ := asking_executes
  have same (task task' : Sel4Task) (executes : Executes (serving zeros16) task (ascii ['a']) zeros16 task') :
      byteOf task'.mem 0x400000 = some ((byteOf task.mem 0x400000).getD 0) := by
    have blank : effectOf (imageOps zeros16) 0x400000 = .blank := by decide +kernel
    rw [byteOf_executes executes,blank]
    rfl
  have old : byteOf t₁'.mem 0x400000 = some 7 := by
    rw [same remembering t₁' first]
    decide +kernel
  have new : byteOf t₂'.mem 0x400000 = some 0 := by
    rw [same asking t₂' second]
    decide +kernel
  refine ⟨t₁',t₂',first,second,?_,old⟩
  intro alike
  have here := (sameReads_iff t₁'.mem t₂'.mem).mp alike 0x400000
  rw [old,new] at here
  cases here

end Sel4Linux.Execve
