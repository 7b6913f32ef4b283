import Sel4Linux.FileStack
import Sel4Linux.GuestStrings
import Sel4Linux.LinuxMachine

/-!
The Linux layer with the file service behind it refines its abstract machine: for
any syscalls and page faults of its tasks, in any order, the dispatcher, the
handlers, the client, the messages, the service and the page maps together do
what the machine of memories and open files may do, as long as each finds the
blocks that it takes in what is left of the heaps (`linux_refined`).
-/
namespace Sel4Linux.LinuxLayer
open Sel4Linux.Bytes Sel4Linux.Utf8 Sel4Linux.Ipc Sel4Linux.TaskMem Sel4Linux.Client Sel4Linux.FileSyscalls Sel4Linux.Task
open Sel4Linux.Syscalls Sel4Linux.Exception Sel4Linux.Runs Sel4Linux.Refinement Sel4Linux.MemImage Sel4Linux.MemoryCalls
open Sel4Linux.FlatSpace Sel4Linux.AddressSpace Sel4Linux.OpenFiles Sel4Linux.FileStack Sel4Linux.LinuxMachine
open Sel4Linux.System Sel4Linux.Files Sel4Linux.Reading Sel4Linux.Metered Sel4Linux.ClientHeap Sel4Linux.ServiceHeap
open Sel4Linux.SystemHeaps
open Sel4Linux.Ext4 (Errno Externs)
open Sel4Linux.GuestStrings (cstrBytes_succ)
open Sel4Linux.PageMaps (writeBytes_fst)
open Sel4Linux.Service (FsService)
open Sel4Linux.Overlay (toNat_advance_of_lt)
set_option linter.unusedSimpArgs false

/-! ## Reading a task's memory -/

variable {task : Sel4Task} {s : TaskSpace}

theorem stringAt_shown (shows' : Shows task s) {fuel : Nat} {a : Word} (room : a.toNat + fuel ≤ 2 ^ 64) :
    cstrBytes task.mem fuel a = stringAt s.bytes fuel a.toNat := by
  induction fuel generalizing a with
  | zero => rfl
  | succ fuel ih =>
    rw [cstrBytes_succ,shows'.bytes a,stringAt]
    cases s.bytes a.toNat with
    | none => rfl
    | some b =>
      dsimp only
      by_cases stop : b = 0
      · rw [if_pos stop,if_pos stop]
      · rw [if_neg stop,if_neg stop]
        -- the string may end at the last byte there is
        cases fuel with
        | zero => rfl
        | succ fuel =>
          have next : (a + 1).toNat = a.toNat + 1 := BitVec.toNat_add_of_lt (by change a.toNat + 1 < 2 ^ 64; omega)
          rw [ih (by omega),next]

theorem pathAt_shown (shows' : Shows task s) {addr : Word} (room : addr.toNat + 4097 ≤ 2 ^ 64) :
    readCstrFromTask task.mem addr = pathAt s addr := by
  rw [readCstrFromTask,stringAt_shown shows' room]
  rfl

theorem present_shown (shows' : Shows task s) {addr count : Word} (room : addr.toNat + count.toNat ≤ 2 ^ 64) :
    consoleBytes task.mem addr count = present s.bytes addr.toNat count.toNat := by
  unfold consoleBytes present
  rw [List.filterMap_eq_flatMap_toList,List.flatMap_def]
  refine congrArg List.flatten (List.map_congr_left fun i member => ?_)
  have low := List.mem_range.mp member
  have place : (addr + BitVec.ofNat 64 i).toNat = addr.toNat + i := toNat_advance_of_lt (by omega)
  rw [readBytes_one,shows'.bytes,place]
  cases s.bytes (addr.toNat + i) with
  | none => rfl
  | some b => rfl

/-- There is something to read where there is a byte. -/
theorem readable_shown (shows' : Shows task s) (addr : Word) (buf : List Byte) :
    (task.mem.readBytes addr buf).isSome = (s.bytes addr.toNat).isSome := by
  rw [read_shown shows',FlatSpace.read,Option.isSome_map]

/-! ## The client's console -/

section
variable {ω : Type} {K : Kernel ω} {c : Lcl ω}

/-- Nothing is printed. -/
def Silent {α : Type} (c : Lcl ω) (x : Except Fault (α × Lcl ω)) : Prop := Ensures x fun out => out.2.console = c.console

theorem silent_same {α : Type} (a : α) : Silent c (.ok (a,c)) := ensures_ok rfl

theorem silent_bind {α β : Type} {first : Except Fault (α × Lcl ω)} {next : α × Lcl ω → Except Fault (β × Lcl ω)}
    (before : Silent c first) (after : ∀ a d, Silent d (next (a,d))) : Silent c (first >>= next) := by
  refine ensures_bind before ?_
  rintro ⟨a,d⟩ same out ran
  exact (after a d out ran).trans same

theorem silent_doCall (ib : IpcBuffer) (totalMrs : Nat) : Silent c ((c.compose ib).doCall K totalMrs) :=
  ensures_then fun _ => ensures_ok rfl

theorem silent_pathCall (req : Word) (path : Str) (arg3 : Word) : Silent c (c.pathCall K req path arg3) := by
  unfold Lcl.pathCall
  split
  · exact silent_same _
  · exact silent_bind (silent_doCall _ _) fun reply d => silent_same _

theorem silent_fdCall (req fd arg2 arg3 : Word) : Silent c (c.fdCall K req fd arg2 arg3) := by
  unfold Lcl.fdCall
  split
  · exact silent_bind (silent_doCall _ _) fun reply d => silent_same _
  · exact silent_same _

theorem silent_open (path : Str) (flags : BitVec 32) : Silent c (c.open K path flags) := by
  refine silent_bind (silent_pathCall _ _ _) fun reply d => ?_
  cases reply with
  | error e => exact silent_same _
  | ok words =>
    obtain ⟨status,result,_⟩ := words
    dsimp only
    split
    · exact ensures_then fun table => ensures_then fun _ => ensures_ok rfl
    · exact silent_same _

theorem silent_access (path : Str) (mode : BitVec 32) : Silent c (c.access K path mode) := by
  refine silent_bind (silent_pathCall _ _ _) fun reply d => ?_
  cases reply with
  | error e => exact silent_same _
  | ok words =>
    obtain ⟨status,r,_⟩ := words
    dsimp only
    split
    · exact silent_same _
    · exact silent_same _

theorem silent_fdOnly (req fd arg2 arg3 : Word) : Silent c (c.fdOnly K req fd arg2 arg3) := by
  refine silent_bind (silent_fdCall _ _ _ _) fun reply d => ?_
  cases reply with
  | error e => exact silent_same _
  | ok words =>
    obtain ⟨status,r1,_⟩ := words
    dsimp only
    split
    · exact silent_same _
    · exact silent_same _

theorem silent_read (fd : Word) (buf : List Byte) : Silent c (c.read K fd buf) := by
  unfold Lcl.read
  split
  · exact silent_same _
  · split
    · exact silent_same _
    · refine silent_bind (silent_fdCall _ _ _ _) fun reply d => ?_
      cases reply with
      | error e => exact silent_same _
      | ok words =>
        obtain ⟨status,r1,_⟩ := words
        dsimp only
        split
        · exact ensures_then fun data => silent_same _
        · split
          · exact silent_same _
          · exact silent_same _

theorem silent_close (fd : Word) : Silent c (c.close K fd) := by
  unfold Lcl.close
  split
  · exact silent_same _
  · refine silent_bind (silent_fdCall _ _ _ _) fun reply d => ?_
    cases reply with
    | error e => exact silent_same _
    | ok words =>
      obtain ⟨status,r1,_⟩ := words
      dsimp only
      split
      · exact ensures_ok rfl
      · exact silent_same _

end

/-! ## Syscalls on files -/

section
variable {σ φ : Type} {X : Externs σ φ} {lib : Library X} {tree : Str → Node} {m m' : Machine} {c : Lcl (Server σ φ)}

/-- The client and the service have the files of the table open, each with fewer than 2^63 bytes. -/
structure Stands (lib : Library X) (tree : Str → Node) (m : Machine) (c : Lcl (Server σ φ)) : Prop where
  serves : Serves lib tree m c
  short : Short m

/-- A call of the client comes to a result, and to these open files, without printing. -/
def Done {α : Type} (lib : Library X) (tree : Str → Node) (c : Lcl (Server σ φ)) (x : Except Fault (α × Lcl (Server σ φ))) (a : α)
    (m' : Machine) : Prop :=
  ∃ d, x = .ok (a,d) ∧ Stands lib tree m' d ∧ d.console = c.console

/-- What an operation of the client makes of a call is what the call makes. -/
theorem done_of_perform {α : Type} {op : Op} {result : α → OpResult} {x : Except Fault (α × Lcl (Server σ φ))} {out : OpResult}
    (isOp : c.perform (serverKernel X) op = x >>= fun r => .ok (result r.1,r.2)) (silent : Silent c x)
    (ran : ∃ d, c.perform (serverKernel X) op = .ok (out,d) ∧ Serves lib tree m' d) (short : Short m') :
    ∃ a, result a = out ∧ Done lib tree c x a m' := by
  obtain ⟨d,ran,serves⟩ := ran
  rw [isOp] at ran
  obtain ⟨⟨a,d'⟩,called,isOut⟩ := bind_ok_iff.mp ran
  cases isOut
  exact ⟨a,rfl,d',called,⟨serves,short⟩,silent _ called⟩

variable (small : ∀ path content, tree path = .file content → content.length < 2 ^ 63) (stands : Stands lib tree m c)
include small stands

theorem open_done {path : Str} {flags : BitVec 32} (allowed : OpenFiles.Allowed tree X m (.open path flags)) :
    ∃ r, .sys r = (m.open tree path).1 ∧ Done lib tree c (c.open (serverKernel X) path flags) r (m.open tree path).2 :=
  done_of_perform rfl (silent_open path flags) (open_serves stands.serves small allowed)
    (@perform_short tree m small stands.short (.open path flags) _ rfl)

theorem access_done {path : Str} {mode : BitVec 32} (allowed : OpenFiles.Allowed tree X m (.access path mode)) :
    ∃ r, .sys r = (m.access tree path).1 ∧ Done lib tree c (c.access (serverKernel X) path mode) r (m.access tree path).2 :=
  done_of_perform rfl (silent_access path mode) (access_serves stands.serves allowed)
    (@perform_short tree m small stands.short (.access path mode) _ rfl)

theorem read_done {fd : Word} {buf : List Byte} (allowed : OpenFiles.Allowed tree X m (.read fd buf)) :
    ∃ r : SysResult × List Byte, .data r.1 r.2 = (m.read fd buf).1 ∧
      Done lib tree c (c.read (serverKernel X) fd buf) r (m.read fd buf).2 :=
  done_of_perform rfl (silent_read fd buf) (read_serves stands.serves stands.short allowed)
    (@perform_short tree m small stands.short (.read fd buf) _ rfl)

theorem lseek_done {fd offset : Word} {whence : BitVec 32} (allowed : OpenFiles.Allowed tree X m (.lseek fd offset whence)) :
    ∃ r, .sys r = (m.lseek fd offset whence).1 ∧
      Done lib tree c (c.lseek (serverKernel X) fd offset whence) r (m.lseek fd offset whence).2 :=
  done_of_perform rfl (silent_fdOnly _ _ _ _) (lseek_serves stands.serves stands.short allowed)
    (@perform_short tree m small stands.short (.lseek fd offset whence) _ rfl)

theorem close_done (fd : Word) :
    ∃ r, .sys r = (m.close fd).1 ∧ Done lib tree c (c.close (serverKernel X) fd) r (m.close fd).2 :=
  done_of_perform rfl (silent_close fd) (close_serves stands.serves fd)
    (@perform_short tree m small stands.short (.close fd) _ rfl)

theorem fileSize_done (fd : Word) :
    ∃ r, .sys r = (m.fileSize fd).1 ∧ Done lib tree c (c.fileSize (serverKernel X) fd) r (m.fileSize fd).2 :=
  done_of_perform rfl (silent_fdOnly _ _ _ _) (fileSize_serves stands.serves fd)
    (@perform_short tree m small stands.short (.fileSize fd) _ rfl)

end

section
variable {σ φ : Type} {X : Externs σ φ} {lib : Library X} {tree : Str → Node} {m : Machine} {c : Lcl (Server σ φ)}

/-- Bytes that a syscall puts into its caller's memory. -/
theorem shows_store (shows' : Shows task s) {addr : Word} {data : List Byte} (room : addr.toNat + data.length ≤ 2 ^ 64) :
    Shows (task.write addr data) (store s addr data) := shows_write shows' room

/-- A syscall on files comes to this outcome, for the task and for the layer. -/
def Answered (lib : Library X) (tree : Str → Node) (task : Sel4Task) (c : Lcl (Server σ φ)) (x : Except Fault (Answer (Server σ φ)))
    (out : Outcome) : Prop :=
  ∃ mem d, x = .ok ((out.result,mem),d) ∧ Shows { task with mem := mem } out.space ∧ Stands lib tree out.files d ∧
    d.console = c.console ++ out.printed

theorem answered_only (shows' : Shows task s) (stands : Stands lib tree m c) (r : SysResult) :
    Answered lib tree task c (.ok ((r,task.mem),c)) (only s m r) :=
  ⟨task.mem,c,rfl,shows',stands,(List.append_nil _).symm⟩

/-- After a call of the client nothing is left to do but to change the task's memory and give a result. -/
theorem answered_done {α : Type} {x : Except Fault (α × Lcl (Server σ φ))} {a : α} {r : SysResult} {mem : TaskMemInfo}
    {next : α × Lcl (Server σ φ) → Except Fault (Answer (Server σ φ))} (shows' : Shows { task with mem := mem } s)
    (done : Done lib tree c x a m) (gives : ∀ d, next (a,d) = .ok ((r,mem),d)) :
    Answered lib tree task c (x >>= next) { result := r, space := s, files := m, printed := [] } := by
  obtain ⟨d,called,stands,quiet⟩ := done
  refine ⟨mem,d,?_,shows',stands,?_⟩
  · rw [called,ok_bind,gives]
  · rw [quiet,List.append_nil]

theorem not_onTheSpot {fd : Word} (input : fd ≠ 0) (console : ¬ (fd = 1 ∨ fd = 2)) (null : fd ≠ 10) (zero : fd ≠ 11) :
    ¬ OnTheSpot fd := by
  rintro (isInput | isConsole | isNull | isZero)
  · exact input isInput
  · exact console isConsole
  · exact null isNull
  · exact zero isZero

theorem sysWrite_answered (shows' : Shows task s) (stands : Stands lib tree m c) {fd bufAddr count : Word}
    (room : bufAddr.toNat + count.toNat ≤ 2 ^ 64) (heap : count.toNat ≤ HEAP_SIZE)
    (closed : ¬ OnTheSpot fd → m.cursor fd.toNat = none) :
    Answered lib tree task c (sysWrite (serverKernel X) c task.mem fd bufAddr count) (write s m fd bufAddr count) := by
  have taken : allocate HEAP_SIZE count.toNat = .ok () := if_pos heap
  unfold sysWrite write
  by_cases input : fd = 0
  · rw [if_pos input,if_pos input]
    exact answered_only shows' stands _
  · rw [if_neg input,if_neg input]
    by_cases console : fd = 1 ∨ fd = 2
    · rw [if_pos console,if_pos console,present_shown shows' room]
      refine ⟨task.mem,_,rfl,shows',⟨?_,stands.short⟩,rfl⟩
      have agree := stands.serves.agree
      exact ⟨⟨agree.server,agree.client,agree.nextFd,agree.same⟩,stands.serves.holds⟩
    · rw [if_neg console,if_neg console]
      by_cases null : fd = 10
      · rw [if_pos null,if_pos (Or.inl null)]
        exact answered_only shows' stands _
      · rw [if_neg null]
        by_cases zero : fd = 11
        · rw [if_pos zero,if_pos (Or.inr zero)]
          exact answered_only shows' stands _
        · have dead : c.client.entry fd = none := stands.serves.dead (closed (not_onTheSpot input console null zero))
          rw [if_neg zero,if_neg (not_or.mpr ⟨null,zero⟩),taken,ok_bind]
          have readable := readable_shown shows' bufAddr (List.replicate count.toNat 0)
          cases isData : task.mem.readBytes bufAddr (List.replicate count.toNat 0) with
          | none =>
            rw [isData] at readable
            rw [← readable]
            exact answered_only shows' stands _
          | some data =>
            rw [isData] at readable
            have refused : c.write (serverKernel X) fd data = .ok (.error (-9#32),c) := by
              simp only [Lcl.write,if_neg input,if_neg console,dead]
            dsimp only
            rw [refused,ok_bind,← readable]
            exact answered_only shows' stands _

variable (small : ∀ path content, tree path = .file content → content.length < 2 ^ 63) (shows' : Shows task s)
  (stands : Stands lib tree m c)
include small shows' stands

theorem sysOpenat_answered (dirfd mode : BitVec 32) {pathAddr : Word} {flags : BitVec 32} (room : pathAddr.toNat + 4097 ≤ 2 ^ 64)
    (allowed : deviceNumber (pathAt s pathAddr) = none → OpenFiles.Allowed tree X m (.open (pathAt s pathAddr) flags)) :
    Answered lib tree task c (sysOpenat (serverKernel X) c task.mem dirfd pathAddr flags mode) (openat tree s m pathAddr) := by
  unfold sysOpenat openat
  rw [pathAt_shown shows' room]
  dsimp only
  by_cases null : pathAt s pathAddr = DEV_NULL
  · simp only [deviceNumber,if_pos null]
    exact answered_only shows' stands _
  · by_cases zero : pathAt s pathAddr = DEV_ZERO
    · simp only [deviceNumber,if_neg null,if_pos zero]
      exact answered_only shows' stands _
    · by_cases random : pathAt s pathAddr = DEV_URANDOM
      · simp only [deviceNumber,if_neg null,if_neg zero,if_pos random]
        exact answered_only shows' stands _
      · have noDevice : deviceNumber (pathAt s pathAddr) = none := by
          simp only [deviceNumber,if_neg null,if_neg zero,if_neg random]
        obtain ⟨r,isR,done⟩ := open_done small stands (allowed noDevice)
        rw [if_neg null,if_neg zero,if_neg random,noDevice]
        unfold Machine.open at isR done
        dsimp only
        cases named : resolve tree (pathAt s pathAddr) with
        | ok content =>
          rw [named] at isR done
          cases isR
          exact answered_done shows' done fun d => rfl
        | error e =>
          rw [named] at isR done
          cases isR
          exact answered_done shows' done fun d => rfl

theorem sysFaccessat_answered (dirfd flags : BitVec 32) {pathAddr : Word} {mode : BitVec 32} (room : pathAddr.toNat + 4097 ≤ 2 ^ 64)
    (allowed : OpenFiles.Allowed tree X m (.access (pathAt s pathAddr) mode)) :
    Answered lib tree task c (sysFaccessat (serverKernel X) c task.mem dirfd pathAddr mode flags)
      (faccessat tree s m pathAddr) := by
  obtain ⟨r,isR,done⟩ := access_done small stands allowed
  unfold sysFaccessat faccessat
  rw [pathAt_shown shows' room]
  unfold Machine.access at isR done
  cases named : resolve tree (pathAt s pathAddr) with
  | ok content =>
    rw [named] at isR done
    cases isR
    exact answered_done shows' done fun d => rfl
  | error e =>
    rw [named] at isR done
    cases isR
    exact answered_done shows' done fun d => rfl

theorem sysLseek_answered {fd offset : Word} {whence : BitVec 32}
    (allowed : ¬ Reserved fd → OpenFiles.Allowed tree X m (.lseek fd offset whence)) :
    Answered lib tree task c (sysLseek (serverKernel X) c task.mem fd offset whence) (lseek s m fd offset whence) := by
  unfold sysLseek lseek
  by_cases reserved : Reserved fd
  · rw [if_pos (reserved_iff.mp reserved),if_pos reserved]
    exact answered_only shows' stands _
  · rw [if_neg (mt reserved_iff.mpr reserved),if_neg reserved]
    obtain ⟨r,isR,done⟩ := lseek_done small stands (allowed reserved)
    unfold Machine.lseek at isR done
    cases live : m.cursor fd.toNat with
    | none =>
      rw [live] at isR done
      cases isR
      exact answered_done shows' done fun d => rfl
    | some cur =>
      rw [live] at isR done
      dsimp only at isR done ⊢
      cases led : cur.target offset whence with
      | ok p =>
        rw [led] at isR done
        cases isR
        exact answered_done shows' done fun d => rfl
      | error e =>
        rw [led] at isR done
        cases isR
        exact answered_done shows' done fun d => rfl

theorem sysClose_answered (fd : Word) : Answered lib tree task c (sysClose (serverKernel X) c task.mem fd) (close s m fd) := by
  unfold sysClose close
  by_cases standard : fd.toNat ≤ 2
  · rw [if_pos standard,if_pos (reserved_iff.mpr (Or.inl standard))]
    exact answered_only shows' stands _
  · by_cases device : 10 ≤ fd.toNat ∧ fd.toNat ≤ 12
    · rw [if_neg standard,if_pos device,if_pos (reserved_iff.mpr (Or.inr device))]
      exact answered_only shows' stands _
    · obtain ⟨r,isR,done⟩ := close_done small stands fd
      rw [if_neg standard,if_neg device,if_neg (mt reserved_iff.mp (not_or.mpr ⟨standard,device⟩))]
      unfold Machine.close at isR done
      rw [if_neg standard] at isR done
      cases live : m.cursor fd.toNat with
      | none =>
        rw [live] at isR done
        cases isR
        exact answered_done shows' done fun d => rfl
      | some cur =>
        rw [live] at isR done
        cases isR
        exact answered_done shows' done fun d => rfl

theorem sysFstat_answered (fd statAddr : Word) :
    Answered lib tree task c (sysFstat (serverKernel X) c task.mem fd statAddr) (fstat s m fd) := by
  unfold sysFstat fstat
  by_cases reserved : Reserved fd
  · rw [if_pos (reserved_iff.mp reserved),if_pos (Or.inl reserved)]
    exact answered_only shows' stands _
  · obtain ⟨r,isR,done⟩ := fileSize_done small stands fd
    rw [if_neg (mt reserved_iff.mpr reserved)]
    unfold Machine.fileSize at isR done
    cases live : m.cursor fd.toNat with
    | none =>
      rw [live] at isR done
      cases isR
      rw [if_neg (by simp [reserved])]
      exact answered_done shows' done fun d => rfl
    | some cur =>
      rw [live] at isR done
      cases isR
      rw [if_pos (Or.inr (show (some cur).isSome = true from rfl))]
      exact answered_done shows' done fun d => rfl

theorem sysRead_answered {fd bufAddr count : Word} (room : bufAddr.toNat + count.toNat ≤ 2 ^ 64) (heap : count.toNat ≤ HEAP_SIZE)
    (allowed : ¬ OnTheSpot fd → OpenFiles.Allowed tree X m (.read fd (List.replicate count.toNat 0))) :
    Answered lib tree task c (sysRead (serverKernel X) c task.mem fd bufAddr count)
      (LinuxMachine.read s m fd bufAddr count) := by
  have taken : allocate HEAP_SIZE count.toNat = .ok () := if_pos heap
  unfold sysRead LinuxMachine.read
  by_cases input : fd = 0
  · rw [if_pos input,if_pos (Or.inl input)]
    exact answered_only shows' stands _
  · by_cases console : fd = 1 ∨ fd = 2
    · rw [if_neg input,if_pos console,if_neg (by rintro (rfl | rfl) <;> simp at input console),if_pos console]
      exact answered_only shows' stands _
    · by_cases null : fd = 10
      · rw [if_neg input,if_neg console,if_pos null,if_pos (Or.inr null)]
        exact answered_only shows' stands _
      · rw [if_neg input,if_neg console,if_neg null,if_neg (not_or.mpr ⟨input,null⟩),if_neg console]
        by_cases zero : fd = 11
        · rw [if_pos zero,if_pos zero,taken,ok_bind]
          dsimp only
          rw [writeBytes_fst]
          refine ⟨_,c,rfl,shows_store shows' ?_,stands,(List.append_nil _).symm⟩
          rw [List.length_replicate]
          exact room
        · obtain ⟨⟨r,buf⟩,isR,done⟩ := read_done small stands (allowed (not_onTheSpot input console null zero))
          rw [if_neg zero,if_neg zero,taken,ok_bind]
          unfold Machine.read at isR done
          rw [if_neg input] at isR done
          cases live : m.cursor fd.toNat with
          | none =>
            rw [live] at isR done
            cases isR
            exact answered_done shows' done fun d => rfl
          | some cur =>
            rw [live] at isR done
            dsimp only at isR done ⊢
            rw [List.length_replicate] at isR done
            generalize isPiece : chunk cur.content cur.offset (min count.toNat MAX_DATA_IPC) = piece at isR done ⊢
            have few : piece.length ≤ min count.toNat MAX_DATA_IPC := by
              rw [← isPiece,chunk_length]
              omega
            have most : MAX_DATA_IPC = 944 := rfl
            have number : (BitVec.ofNat 64 piece.length).toNat = piece.length := by
              rw [BitVec.toNat_ofNat,Nat.mod_eq_of_lt (by omega)]
            have front : (piece ++ (List.replicate count.toNat (0 : Byte)).drop piece.length).take piece.length = piece :=
              List.take_left
            cases isR
            refine answered_done (shows_store shows' (by omega)) done fun d => ?_
            dsimp only
            rw [number,if_pos (by simp),front,writeBytes_fst,if_pos rfl]

end

/-! ## One syscall -/

section
variable {σ φ : Type} {X : Externs σ φ} {lib : Library X} {tree : Str → Node} {L : Layer (Server σ φ)} {S : Linux} {tid : Word}

/-- The layer and the service have the memories, the files and the console of the machine. -/
structure Refines (lib : Library X) (tree : Str → Node) (L : Layer (Server σ φ)) (S : Linux) : Prop where
  models : Models L S.spaces
  stands : Stands lib tree S.files L.lcl
  printed : L.lcl.console = S.printed

/-- A syscall of the task comes to an end that the machine allows. -/
def Ends (lib : Library X) (tree : Str → Node) (S : Linux) (tid : Word) (s : TaskSpace) (args : SyscallArgs) (no : Option Sysno)
    (x : Except Fault (SysResult × Layer (Server σ φ))) : Prop :=
  ∃ r s' m' printed L', x = .ok (r,L') ∧ Answers tree s S.files args no r s' m' printed ∧
    Refines lib tree L' { S.withSpace tid s' with files := m', printed := S.printed ++ printed }

variable {args : SyscallArgs} {no : Option Sysno}

/-- The machine stays as it is when the task's memory does. -/
theorem withSpace_self (here : S.spaces tid = some s) : S.withSpace tid s = S := by
  unfold Linux.withSpace
  have same : (fun other => if other = tid then some s else S.spaces other) = S.spaces := by
    funext other
    split
    · next isTid => rw [isTid,here]
    · rfl
  rw [same]

variable (refines : Refines lib tree L S)
include refines

/-- Whatever leaves the layer's own thread as it is leaves files and console so. -/
theorem ends_models {r : SysResult} {s' : TaskSpace} {tasks : TaskMap}
    (models : Models { L with tasks := tasks } (S.withSpace tid s').spaces)
    (answers : Answers tree s S.files args no r s' S.files []) :
    Ends lib tree S tid s args no (.ok (r,{ L with tasks := tasks })) :=
  ⟨r,s',S.files,[],_,rfl,answers,models,refines.stands,by rw [List.append_nil]; exact refines.printed⟩

theorem ends_task {answer : SysResult × Sel4Task} {s' : TaskSpace} (shows' : Shows answer.2 s')
    (answers : Answers tree s S.files args no answer.1 s' S.files []) :
    Ends lib tree S tid s args no (L.taskCall tid answer) :=
  ends_models refines (refines.models.insert shows') answers

theorem ends_files {sysno : Sysno} {x : Except Fault (Answer (Server σ φ))} {out : Outcome}
    (answered : Answered lib tree task L.lcl x out) (isFiles : onFiles tree s S.files args sysno = some out) :
    Ends lib tree S tid s args (some sysno) (L.fileCall tid task x) := by
  obtain ⟨mem,d,called,shows',stands,printed⟩ := answered
  refine ⟨out.result,out.space,out.files,out.printed,{ tasks := L.tasks.insert tid { task with mem := mem }, lcl := d },?_,
    .files isFiles,?_⟩
  · rw [Layer.fileCall,called]
    rfl
  · exact ⟨fun other => refines.models.insert shows' other,stands,by rw [printed,refines.printed]⟩

theorem ends_same (here : S.spaces tid = some s) {r : SysResult} (answers : Answers tree s S.files args no r s S.files []) :
    Ends lib tree S tid s args no (.ok (r,L)) :=
  ⟨r,s,S.files,[],L,rfl,answers,by rw [withSpace_self here]; exact refines.models,refines.stands,
    by rw [List.append_nil]; exact refines.printed⟩

theorem ends_pages {sysno : Sysno} {call : MemCall} {answer : SysResult × Sel4Task}
    (ran : memStep L (tid,call) = .ok (.syscall answer.1,{ L with tasks := L.tasks.insert tid answer.2 }))
    (here : S.spaces tid = some s) (fits : CallFits L (tid,call)) (isPages : onPages args sysno = some call) :
    Ends lib tree S tid s args (some sysno) (L.taskCall tid answer) := by
  obtain ⟨o,L',S',ran',allowed,models⟩ := step_refines refines.models fits
  rw [ran] at ran'
  cases ran'
  cases allowed with
  | absent none' =>
    rw [here] at none'
    cases none'
  | made here' allowed =>
    rw [here] at here'
    cases here'
    exact ends_models refines models (.pages isPages allowed)

theorem ends_kill (here : S.spaces tid = some s) (pid sig : Word) {sysno : Sysno} (isIdle : sysno ∈ idle) :
    Ends lib tree S tid s args (some sysno)
      (.ok ((sysKill L.tasks pid sig).1,{ L with tasks := (sysKill L.tasks pid sig).2 })) := by
  suffices models : Models { L with tasks := (sysKill L.tasks pid sig).2 } (S.withSpace tid s).spaces by
    exact ends_models refines models (.idle isIdle _)
  rw [withSpace_self here]
  unfold sysKill
  cases known : L.tasks pid with
  | none => exact refines.models
  | some target =>
    dsimp only
    split
    · exact refines.models
    · -- a signal that is pending is nothing to a memory
      obtain ⟨space,isSpace,shows'⟩ := refines.models.there known
      have signalled (pending : Word) : Shows { target with signal := { target.signal with pending := pending } } space :=
        ⟨shows'.bytes,shows'.heap,shows'.consistent,shows'.vmEnd⟩
      have after := @Models.insert _ _ _ L S.spaces refines.models pid (signalled (if sig ≤ 64 then
        target.signal.pending ||| (1 <<< (sig - 1).toNat) else target.signal.pending))
      have same : (fun other => if other = pid then some space else S.spaces other) = S.spaces :=
        congrArg Linux.spaces (withSpace_self isSpace)
      rw [same] at after
      exact after

end

/-! ### Calls that fill a buffer -/

theorem shows_time (shows' : Shows task s) {addr : Word} (room : addr.toNat + 16 ≤ 2 ^ 64) :
    Shows (sysZeroTime task addr).2 (store (store s addr (leBytes 0)) (addr + 8) (leBytes 0)) := by
  have next : (addr + 8).toNat = addr.toNat + 8 := BitVec.toNat_add_of_lt (by change addr.toNat + 8 < 2 ^ 64; omega)
  have size : (leBytes (0 : Word)).length = 8 := rfl
  exact shows_store (shows_store shows' (by rw [size]; omega)) (by rw [size,next]; omega)

theorem shows_sysUname (shows' : Shows task s) {addr : Word} (room : addr.toNat + 390 ≤ 2 ^ 64) :
    ∃ data, Shows (sysUname task addr).2 (store s addr data) := by
  refine ⟨_,shows_store shows' ?_⟩
  simp only [List.length_append]
  rw [utsField_length,utsField_length,utsField_length,utsField_length,utsField_length,utsField_length]
  · exact room
  all_goals decide

theorem shows_signal (shows' : Shows task s) (signal : TaskSignal) : Shows { task with signal := signal } s :=
  ⟨shows'.bytes,shows'.heap,shows'.consistent,shows'.vmEnd⟩

theorem shows_sysSigprocmask (shows' : Shows task s) (how : BitVec 32) (setAddr : Word) {oldAddr : Word}
    (room : oldAddr.toNat + 8 ≤ 2 ^ 64) :
    Shows (sysSigprocmask task how setAddr oldAddr).2 (if oldAddr = 0 then s else store s oldAddr (leBytes task.signal.mask)) := by
  have saved : Shows (if oldAddr = 0 then task else task.write oldAddr (leBytes task.signal.mask))
      (if oldAddr = 0 then s else store s oldAddr (leBytes task.signal.mask)) := by
    split
    · exact shows'
    · exact shows_store shows' room
  unfold sysSigprocmask
  dsimp only
  split
  · exact saved
  · split
    · exact shows_signal saved _
    · exact shows_signal saved _
    · exact shows_signal saved _
    · exact saved

theorem shows_sysRtSigaction (shows' : Shows task s) (raw : List SignalAction → Nat → List Byte) (sig actAddr : Word)
    {oldactAddr : Word} (room : ∀ actions index, oldactAddr.toNat + (raw actions index).length ≤ 2 ^ 64) :
    Shows (sysRtSigaction task raw sig actAddr oldactAddr).2 s ∨
      ∃ action, Shows (sysRtSigaction task raw sig actAddr oldactAddr).2 (store s oldactAddr action) := by
  unfold sysRtSigaction
  split
  · exact Or.inl shows'
  · dsimp only
    by_cases unasked : oldactAddr = 0
    · left
      rw [if_pos unasked]
      split
      · exact shows'
      · exact shows_signal shows' _
    · right
      rw [if_neg unasked]
      refine ⟨raw task.signal.actions (sig - 1).toNat,?_⟩
      have saved := shows_store shows' (room task.signal.actions (sig - 1).toNat)
      split
      · exact saved
      · exact shows_signal saved _

theorem shows_sysExit (shows' : Shows task s) (code : BitVec 32) (room : task.clearChildTid.toNat + 4 ≤ 2 ^ 64) :
    Shows (sysExit task code).2 s ∨ Shows (sysExit task code).2 (store s task.clearChildTid [0,0,0,0]) := by
  have ended (code : BitVec 32) : Shows { task with exit := some code } s :=
    ⟨shows'.bytes,shows'.heap,shows'.consistent,shows'.vmEnd⟩
  unfold sysExit Sel4Task.exitWith
  dsimp only
  split
  · exact Or.inl (ended _)
  · exact Or.inr (shows_store (ended _) room)

/-! ### The dispatcher -/

section
variable {σ φ : Type} {X : Externs σ φ} {lib : Library X} {tree : Str → Node} {L : Layer (Server σ φ)} {S : Linux} {tid : Word}

/-- A syscall that is described goes through, and the machine allows what it does. -/
theorem dispatch_ends (small : ∀ path content, tree path = .file content → content.length < 2 ^ 63)
    (raw : List SignalAction → Nat → List Byte) (refines : Refines lib tree L S) (known : L.tasks tid = some task)
    (here : S.spaces tid = some s) (shows' : Shows task s) {args : SyscallArgs}
    (described : Described X raw tree task s S.files args (Sysno.tryFrom args.syscallNo)) :
    Ends lib tree S tid s args (Sysno.tryFrom args.syscallNo) (dispatch (serverKernel X) raw L tid task args) := by
  obtain ⟨syscallNo,a0,a1,a2,a3,a4,a5⟩ := args
  unfold dispatch
  dsimp only at described ⊢
  generalize Sysno.tryFrom syscallNo = number at described ⊢
  have stands := refines.stands
  have callFits {call : MemCall} (fits : Fits task call) : CallFits L (tid,call) := by
    intro task' known'
    rw [known] at known'
    cases known'
    exact fits
  cases described with
  | unknown => exact ends_same refines here .unknown
  | files fit =>
    next no =>
    cases no with
    | openat => exact ends_files refines (sysOpenat_answered small shows' stands _ _ fit.1 fit.2) rfl
    | read => exact ends_files refines (sysRead_answered small shows' stands fit.1 fit.2.1 fit.2.2) rfl
    | write => exact ends_files refines (sysWrite_answered shows' stands fit.1 fit.2.1 fit.2.2) rfl
    | lseek => exact ends_files refines (sysLseek_answered small shows' stands fit) rfl
    | close => exact ends_files refines (sysClose_answered small shows' stands _) rfl
    | fstat => exact ends_files refines (sysFstat_answered small shows' stands _ _) rfl
    | faccessat => exact ends_files refines (sysFaccessat_answered small shows' stands _ _ fit.1 fit.2) rfl
    | _ => exact fit.elim
  | pages isPages fits =>
    next no call =>
    cases no with
    | brk =>
      cases isPages
      exact ends_pages refines (by simp only [memStep,onTask,known,ok_bind]) here (callFits fits) rfl
    | mmap =>
      cases isPages
      exact ends_pages refines (by simp only [memStep,onTask,known,ok_bind]) here (callFits fits) rfl
    | munmap =>
      cases isPages
      exact ends_pages refines (by simp only [memStep,onTask,known,ok_bind]) here (callFits fits) rfl
    | _ => cases isPages
  | fills room =>
    next no =>
    cases no with
    | uname =>
      obtain ⟨data,after⟩ := shows_sysUname shows' room
      exact ends_task refines after (.fills (.uname data) _)
    | clockGettime => exact ends_task refines (shows_time shows' room) (.fills .clockGettime _)
    | gettimeofday => exact ends_task refines (shows_time shows' room) (.fills .gettimeofday _)
    | sigprocmask => exact ends_task refines (shows_sysSigprocmask shows' _ _ room) (.fills (.sigprocmask _) _)
    | rtSigaction =>
      rcases shows_sysRtSigaction shows' raw a0 a1 room with after | ⟨action,after⟩
      · exact ends_task refines after (.fills .noAction _)
      · exact ends_task refines after (.fills (.rtSigaction action) _)
    | _ => exact room.elim
  | exit isExit room =>
    have ends {no : Sysno} (isExit : no = .exit ∨ no = .exitGroup) :
        Ends lib tree S tid s ⟨syscallNo,a0,a1,a2,a3,a4,a5⟩ (some no) (L.taskCall tid (sysExit task (a0.setWidth 32))) := by
      rcases shows_sysExit shows' (a0.setWidth 32) room with after | after
      · exact ends_task refines after (.exit isExit)
      · exact ends_task refines after (.exitClears isExit _)
    rcases isExit with rfl | rfl
    · exact ends (Or.inl rfl)
    · exact ends (Or.inr rfl)
  | idle isIdle =>
    next no =>
    cases no with
    | getpid => exact ends_task refines shows' (.idle isIdle _)
    | setTidAddress => exact ends_task refines ⟨shows'.bytes,shows'.heap,shows'.consistent,shows'.vmEnd⟩ (.idle isIdle _)
    | rtSigreturn => exact ends_task refines shows' (.idle isIdle _)
    | kill => exact ends_kill refines here a0 a1 isIdle
    | _ => first | exact ends_same refines here (.idle isIdle _) | exact absurd isIdle (by decide)

end

/-! ## Runs -/

/-- One event of a task, by `handle_syscall` or `handle_vmfault`: the result is there if it is a syscall of a task that is. -/
def linuxStep {ω : Type} (K : Kernel ω) (raw : List SignalAction → Nat → List Byte) (L : Layer ω) :
    Word × TaskEvent → Except Fault (Option SysResult × Layer ω)
  | (tid,.syscall args) =>
    match L.tasks tid with
    | none => .ok (none,L)
    | some task => do
      let (result,after) ← dispatch K raw L tid task args
      .ok (some result,after)
  | (tid,.pageFault addr) => .ok (none,(handleVmfault L tid addr).2)

/-- What the dispatcher's call of a file syscall does with the heap. -/
def dispatchUse (mem : TaskMemInfo) (args : SyscallArgs) : Sysno → Use
  | .openat => sysOpenatUse mem args.a1 (args.a2.setWidth 32)
  | .read => sysReadUse args.a0 args.a2
  | .write => sysWriteUse mem args.a0 args.a1 args.a2
  | .close => sysCloseUse args.a0
  | .lseek => sysLseekUse args.a0 args.a1 (args.a2.setWidth 32)
  | .fstat => sysFstatUse args.a0
  | .fstatat => sysFstatatUse mem args.a1
  | .mkdirat => sysMkdiratUse mem args.a1
  | .unlinkat => sysUnlinkatUse mem args.a1
  | .faccessat => sysFaccessatUse mem args.a1 (args.a2.setWidth 32)
  | .getdents64 => sysGetdents64Use args.a0 args.a2
  | _ => .none

/-- What an event does with the client's heap through the file syscalls. -/
def eventUse {ω : Type} (L : Layer ω) : Word × TaskEvent → Use
  | (tid,.syscall args) =>
    match L.tasks tid,Sysno.tryFrom args.syscallNo with
    | some task,some no => dispatchUse task.mem args no
    | _,_ => .none
  | (_,.pageFault _) => .none

/-- What is not a file syscall's: the maps of pages and tasks, and the buffers of `execve`. -/
abbrev Rest (ω : Type) := Layer ω → Word × TaskEvent → Layer ω → LclHeap → Except Fault LclHeap

section
variable {σ φ : Type} (X : Externs σ φ) (D : Drain σ φ) (rest : Rest (Server σ φ)) (raw : List SignalAction → Nat → List Byte)

/-- What an event takes: on the client's side for the file syscall and for everything else, on the service's side for the
    messages that have been sent. -/
def layerUses (L : Layer (Server σ φ)) (event : Word × TaskEvent) (_ : Option SysResult) (L' : Layer (Server σ φ)) (h : Heaps) :
    Except Fault Heaps := do
  let client ← (eventUse L event).before h.client
  let client ← (eventUse L event).behind L.lcl L'.lcl client
  let client ← rest L event L' client
  let service ← serviceUses X D L.lcl.world (sentSince L.lcl L'.lcl) h.service
  .ok { client := client, service := service }

/-- An event, with the heaps. -/
def heapStep : Layer (Server σ φ) × Heaps → Word × TaskEvent → Except Fault (Option SysResult × (Layer (Server σ φ) × Heaps)) :=
  metered (linuxStep (serverKernel X) raw) (layerUses X D rest)

end

section
variable {σ φ : Type} {X : Externs σ φ} {lib : Library X} {tree : Str → Node} {L : Layer (Server σ φ)} {S : Linux}

/-- The machine describes what a task asks for. -/
def Meant (X : Externs σ φ) (raw : List SignalAction → Nat → List Byte) (tree : Str → Node) (L : Layer (Server σ φ)) (S : Linux) :
    Word × TaskEvent → Prop
  | (tid,.syscall args) => ∀ task s, L.tasks tid = some task → S.spaces tid = some s →
    Described X raw tree task s S.files args (Sysno.tryFrom args.syscallNo)
  | (_,.pageFault _) => True

theorem handleVmfault_lcl {ω : Type} (L : Layer ω) (tid addr : Word) : (handleVmfault L tid addr).2.lcl = L.lcl := by
  unfold handleVmfault
  split
  · rfl
  · rfl

theorem step_refined (small : ∀ path content, tree path = .file content → content.length < 2 ^ 63)
    (raw : List SignalAction → Nat → List Byte) (refines : Refines lib tree L S) {event : Word × TaskEvent}
    (meant : Meant X raw tree L S event) :
    ∃ o L' S', linuxStep (serverKernel X) raw L event = .ok (o,L') ∧ Step tree S event o S' ∧ Refines lib tree L' S' := by
  obtain ⟨tid,event⟩ := event
  cases event with
  | syscall args =>
    cases known : L.tasks tid with
    | none => exact ⟨none,L,S,by rw [linuxStep,known],.absent (refines.models.absent known),refines⟩
    | some task =>
      obtain ⟨s,here,shows'⟩ := refines.models.there known
      obtain ⟨r,s',m',printed,L',ran,answers,after⟩ := dispatch_ends small raw refines known here shows' (meant task s known here)
      refine ⟨some r,L',_,?_,.syscall here answers,after⟩
      rw [linuxStep,known]
      dsimp only
      rw [ran,ok_bind]
  | pageFault addr =>
    have fits : CallFits L (tid,.handleVmfault addr) := fun _ _ => trivial
    obtain ⟨o,L',S',ran,allowed,models⟩ := step_refines refines.models fits
    cases ran
    have same := handleVmfault_lcl L tid addr
    have stands : Stands lib tree S.files (handleVmfault L tid addr).2.lcl := by
      rw [same]
      exact refines.stands
    have printed : (handleVmfault L tid addr).2.lcl.console = S.printed := by
      rw [same]
      exact refines.printed
    cases allowed with
    | absent none' => exact ⟨none,_,S,rfl,.absent none',models,stands,printed⟩
    | made here allowed =>
      cases allowed
      exact ⟨none,_,_,rfl,.pageFault here,models,stands,printed⟩

/-- The machine at the beginning: the tasks' memories as they are, and no file open. -/
def initial (L : Layer (Server σ φ)) : Linux := { spaces := spacesOf L, files := Machine.new, printed := L.lcl.console }

theorem refines_initial {disk : σ} (client : L.lcl.client = FsClient.new) (service : L.lcl.world.service = FsService.new disk)
    (inOrder : InOrder L) : Refines lib (lib.tree disk) L (initial L) :=
  ⟨models_spacesOf inOrder,⟨new_serves client service rfl,fun _ _ live => by cases live⟩,rfl⟩

/-- Whatever the heaps, the events that the machine describes go through as steps of it. -/
theorem run_refined (small : ∀ path content, tree path = .file content → content.length < 2 ^ 63)
    (raw : List SignalAction → Nat → List Byte) (refines : Refines lib tree L S) {events : List (Word × TaskEvent)}
    (meant : MeetsBoth (linuxStep (serverKernel X) raw) (Step tree) (Meant X raw tree) L S events) :
    ∃ results L' S', run (linuxStep (serverKernel X) raw) L events = .ok (results,L') ∧ Path (Step tree) S events results S' ∧
      Refines lib tree L' S' :=
  run_refines_both (fun _ _ _ refines meant => step_refined small raw refines meant) refines meant

/--
The Linux layer over a file service that has just started, and any events of the
tasks that the machine describes: they go through, with results that the machine
may give, and in the end the memories are those of the machine, the same files
are open at the same offsets, and what the machine prints has been printed,
exactly when every event finds what it takes in what the events before it have
left of the two heaps.
-/
theorem linux_refined (lib : Library X) (D : Drain σ φ) (rest : Rest (Server σ φ)) (raw : List SignalAction → Nat → List Byte)
    {disk : σ} {L : Layer (Server σ φ)} (client : L.lcl.client = FsClient.new) (service : L.lcl.world.service = FsService.new disk)
    (small : ∀ path content, lib.tree disk path = .file content → content.length < 2 ^ 63) (inOrder : InOrder L)
    {events : List (Word × TaskEvent)} (meant : MeetsBoth (linuxStep (serverKernel X) raw) (Step (lib.tree disk))
      (Meant X raw (lib.tree disk)) L (initial L) events) (h : Heaps) :
    (∃ results L' k S', run (heapStep X D rest raw) (L,h) events = .ok (results,(L',k)) ∧
      Path (Step (lib.tree disk)) (initial L) events results S' ∧ Serves lib (lib.tree disk) S'.files L'.lcl ∧
      L'.lcl.console = S'.printed ∧ ∀ tid s, S'.spaces tid = some s →
        ∃ task, L'.tasks tid = some task ∧ task.heap.toNat = s.heap ∧
          ∀ addr buf, task.mem.readBytes addr buf = FlatSpace.read PAGE_SIZE 0 s.bytes addr.toNat buf) ↔
      Meets (heapStep X D rest raw) (Enough (linuxStep (serverKernel X) raw) (layerUses X D rest)) (L,h) events := by
  obtain ⟨results,L',S',ran,path,refines⟩ := run_refined small raw (refines_initial client service inOrder) meant
  unfold heapStep
  rw [← metered_ran_iff ran]
  constructor
  · rintro ⟨results',L'',k,_,ran',_⟩
    cases ran.symm.trans (metered_ran ran')
    exact ⟨k,ran'⟩
  · rintro ⟨k,ran'⟩
    refine ⟨results,L',k,S',ran',path,refines.stands.serves,refines.printed,fun tid s isSpace => ?_⟩
    obtain ⟨task,isTask,shows'⟩ := refines.models.shown isSpace
    exact ⟨task,isTask,shows'.heap,read_shown shows'⟩

end

/-- A task that has the path of the file at 0x1000, and the layer with a service that has just started. -/
def reading : Layer (Server (List MemFs.Node) MemFs.Handle) where
  tasks tid :=
    if tid = 1 then some { Sel4Task.new 1 5 with mem := TaskMemInfo.default.writePage 0x1000 0 Replies.aPath.bytes } else none
  lcl := started

/-- The task opens the file and reads two bytes of it into a page that is not there yet. -/
def readsFile : List (Word × TaskEvent) :=
  [(1,.syscall { syscallNo := 257, a0 := 0, a1 := 0x1000, a2 := 0, a3 := 0, a4 := 0, a5 := 0 }),
    (1,.syscall { syscallNo := 0, a0 := 3, a1 := 0x2000, a2 := 2, a3 := 0, a4 := 0, a5 := 0 }),(1,.pageFault 0x3123)]

/-- The heap as it is. -/
def noRest {ω : Type} : Rest ω := fun _ _ _ h => .ok h

theorem linux_refined_reading : ∃ results L' k S',
    run (heapStep MemFs.memFs .none noRest fun _ _ => []) (reading,.unused) readsFile = .ok (results,(L',k)) ∧
      Path (Step (memTree started.world.service.fs.disk)) (initial reading) readsFile results S' ∧ L'.lcl.console = S'.printed := by
  have inOrder : InOrder reading := by
    intro tid task isTask
    change (if tid = 1 then some _ else none) = some task at isTask
    split at isTask
    · cases isTask
      exact ⟨PageMaps.consistent_writePage PageMaps.consistent_default 0x1000 0 _,rfl⟩
    · cases isTask
  have path (s : TaskSpace) (here : (initial reading).spaces 1 = some s) : pathAt s 0x1000 = Replies.aPath := by
    have models : Models reading (initial reading).spaces := models_spacesOf inOrder
    obtain ⟨task,isTask,shows'⟩ : ∃ task, reading.tasks 1 = some task ∧ Shows task s := models.shown here
    rw [← pathAt_shown shows' (by decide)]
    cases isTask
    decide +kernel
  have isOpenat : Sysno.tryFrom 257 = some .openat := rfl
  have isRead : Sysno.tryFrom 0 = some .read := rfl
  have meant : MeetsBoth (linuxStep (serverKernel MemFs.memFs) fun _ _ => []) (Step (memTree started.world.service.fs.disk))
      (Meant MemFs.memFs (fun _ _ => []) (memTree started.world.service.fs.disk)) reading (initial reading) readsFile := by
    refine ⟨fun task s _ here => ?_,fun o L₁ S₁ _ first => ⟨fun task s _ _ => ?_,fun _ _ _ _ _ =>
      ⟨trivial,fun _ _ _ _ _ => trivial⟩⟩⟩
    · dsimp only
      rw [isOpenat]
      refine .files ⟨by decide,fun _ => ?_⟩
      rw [path s here]
      exact ⟨by decide,plain_zero memLibrary,by decide,by decide⟩
    · dsimp only
      rw [isRead]
      refine .files ⟨by decide,by decide,fun _ cur live => ?_⟩
      cases first with
      | absent none' => cases none'
      | @syscall _ _ s₀ _ _ _ _ before answers =>
        dsimp only at answers
        rw [isOpenat] at answers
        obtain ⟨_,_,rfl,_⟩ := answers.of_files rfl
        have opened : (openat (memTree started.world.service.fs.disk) s₀ Machine.new 0x1000).files =
            { Machine.new.set 3 (some { content := [1,2,3,4,5], offset := 0 }) with next := 4 } := by
          rw [openat,path s₀ before]
          rfl
        change (openat _ s₀ Machine.new 0x1000).files.cursor 3 = some cur at live
        rw [opened] at live
        cases live
        decide
  have enough : Meets (heapStep MemFs.memFs .none noRest fun _ _ => []) (Enough (linuxStep (serverKernel MemFs.memFs) fun _ _ => [])
      (layerUses MemFs.memFs .none noRest)) (reading,.unused) readsFile := (metered_ran_iff rfl).mp ⟨_,rfl⟩
  obtain ⟨results,L',k,S',ran,path,_,printed,_⟩ :=
    (@linux_refined _ _ _ memLibrary .none noRest (fun _ _ => []) _ reading rfl rfl started_small inOrder readsFile meant
      .unused).mpr enough
  exact ⟨results,L',k,S',ran,path,printed⟩

end Sel4Linux.LinuxLayer
