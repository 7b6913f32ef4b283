import Sel4Linux.Rounds

/-!
What the root task writes to the memory that it shares with the guest. A round
changes only the missing page, the two bytes of a patched instruction, or the
buffers that the guest has passed to its syscall (`faultRound_writes`), whatever
the kernel and the file service answer. So what the guest keeps elsewhere is
there after every run of the loop (`memory_kept`).
-/
namespace Sel4Linux.GuestMemory
open Sel4Linux.Bytes Sel4Linux.Utf8 Sel4Linux.Ipc Sel4Linux.TaskMem Sel4Linux.Client Sel4Linux.Slots Sel4Linux.Tcb
open Sel4Linux.FileSyscalls Sel4Linux.Emulation Sel4Linux.FaultLoop Sel4Linux.Runs
set_option linter.unusedSimpArgs false

/-! ## Regions -/

/-- `len` bytes from `addr` on. -/
structure Region where
  addr : Word
  len : Nat
  deriving DecidableEq

def Region.Has (g : Region) (a : Word) : Prop := (a - g.addr).toNat < g.len

instance (g : Region) (a : Word) : Decidable (g.Has a) := inferInstanceAs (Decidable (_ < _))

/-- An address outside of all regions. -/
def Outside (regions : List Region) (a : Word) : Prop := ∀ g ∈ regions, ¬ g.Has a

instance (regions : List Region) (a : Word) : Decidable (Outside regions a) :=
  inferInstanceAs (Decidable (∀ g ∈ regions, ¬ g.Has a))

/-- The memory changes only inside of the regions. -/
def OnlyIn (regions : List Region) (before after : Mem) : Prop := ∀ a, Outside regions a → after a = before a

theorem onlyIn_refl (regions : List Region) (mem : Mem) : OnlyIn regions mem mem := fun _ _ => rfl

theorem onlyIn_trans {regions : List Region} {first middle last : Mem} (earlier : OnlyIn regions first middle)
    (later : OnlyIn regions middle last) : OnlyIn regions first last := by
  intro a outside
  rw [later a outside,earlier a outside]

/-- Bytes are written inside of a region that is long enough for them. -/
theorem onlyIn_store (mem : Mem) (addr : Word) {data : List Byte} {len : Nat} (fits : data.length ≤ len) :
    OnlyIn [⟨addr,len⟩] mem (storeBytes mem addr data) := by
  intro a outside
  have beyond : data.length ≤ (a - addr).toNat := Nat.le_trans fits (Nat.le_of_not_lt (outside _ List.mem_cons_self))
  rw [storeBytes,List.getD_eq_getElem?_getD,List.getElem?_eq_none beyond,Option.getD_none]

/-- One byte inside of a buffer. -/
theorem onlyIn_storeAt (mem : Mem) (buf n count : Word) (b : Byte) (room : n < count) :
    OnlyIn [⟨buf,count.toNat⟩] mem (storeBytes mem (buf + n) [b]) := by
  intro a outside
  have beyond : ¬ (a - buf).toNat < count.toNat := outside _ List.mem_cons_self
  have away : (a - (buf + n)).toNat ≠ 0 := by
    intro isZero
    have same : a - (buf + n) = 0 := BitVec.eq_of_toNat_eq isZero
    have isN : a - buf = n := by bv_omega
    rw [isN] at beyond
    exact beyond room
  have none : [b][(a - (buf + n)).toNat]? = none := List.getElem?_eq_none (Nat.pos_of_ne_zero away)
  rw [storeBytes,List.getD_eq_getElem?_getD,none,Option.getD_none]

theorem onlyIn_zeroPage (mem : Mem) (addr : Word) : OnlyIn [⟨pageVaddr addr,PAGE_SIZE⟩] mem (zeroPage mem (pageVaddr addr)) := by
  intro a outside
  refine if_neg fun same => outside _ List.mem_cons_self ?_
  have split := pageVaddr_add_offset a
  have offset := pageOffset_lt a
  rw [Region.Has,← same]
  change (a - pageVaddr a).toNat < PAGE_SIZE
  rw [BitVec.toNat_sub_of_le (BitVec.le_def.mpr (by omega))]
  omega

variable {ω : Type} {K : Kernel ω}

/-! ## Syscalls without the loop's variables -/

/-- The buffers that a guest passes to a syscall for the answer. -/
def syscallBuffers (rax rdi rsi rdx : Word) : List Region :=
  match rax.toNat with
  | 0 | 217 => [⟨rsi,rdx.toNat⟩]
  | 4 | 5 => [⟨rsi,144⟩]
  | 63 => [⟨rdi,390⟩]
  | 79 => [⟨rdi,rsi.toNat⟩]
  | 262 => [⟨rdx,144⟩]
  | _ => []

/-- A handler writes only inside of the regions. -/
def Writes (w : World ω) (regions : List Region) (x : Except Stop (Emulated ω)) : Prop :=
  Ensures x fun out => OnlyIn regions w.mem out.2.mem

variable {w : World ω} {regions : List Region}

theorem writes_nothing (v : Word) : Writes w regions (.ok (v,w)) := ensures_ok (onlyIn_refl regions w.mem)

theorem writes_store (v : Word) (addr : Word) {data : List Byte} {len : Nat} (fits : data.length ≤ len) :
    Writes w [⟨addr,len⟩] (.ok (v,w.store addr data)) := ensures_ok (onlyIn_store w.mem addr fits)

/-- A call of the file client leaves guest memory alone. -/
theorem client_ensures {α : Type} {call : Lcl ω → Except Fault (α × Lcl ω)} {Q : α → Prop}
    (holds : Ensures (call w.lcl) fun out => Q out.1) :
    Ensures (w.client call) fun out => out.2.mem = w.mem ∧ Q out.1 := by
  rw [World.client]
  cases called : call w.lcl with
  | error reason => exact ensures_error
  | ok out => exact ensures_ok ⟨rfl,holds out called⟩

theorem writes_client {α : Type} {call : Lcl ω → Except Fault (α × Lcl ω)} {next : α × World ω → Except Stop (Emulated ω)}
    (after : ∀ a w', w'.mem = w.mem → Writes w' regions (next (a,w'))) : Writes w regions (w.client call >>= next) := by
  refine ensures_bind (client_ensures (Q := fun _ => True) fun _ _ => trivial) ?_
  rintro ⟨a,w'⟩ ⟨same,_⟩
  have later := after a w' same
  rw [Writes,same] at later
  exact later

theorem copyOut_length (buf data : List Byte) (r1 : Word) : (copyOut buf data r1).2.length = buf.length := by
  simp only [copyOut,List.length_append,List.length_take,List.length_drop]
  omega

/-- The caller's buffer keeps its length. -/
theorem read_length (s : Lcl ω) (fd : Word) (buf : List Byte) :
    Ensures (s.read K fd buf) fun out => out.1.2.length = buf.length := by
  unfold Lcl.read
  split
  · exact ensures_ok rfl
  · split
    · exact ensures_ok rfl
    · refine ensures_then ?_
      rintro ⟨reply,s⟩
      cases reply with
      | error e => exact ensures_ok rfl
      | ok answer =>
        dsimp only
        split
        · exact ensures_then fun data => ensures_ok (copyOut_length buf data _)
        · split
          · exact ensures_ok rfl
          · exact ensures_ok rfl

/-- A line from the console stays in its buffer, whatever the port gives. -/
theorem readStdinLine_writes {buf count : Word} {mem₀ : Mem} (port : List (Word × Byte)) (lcl : Lcl ω) (mem : Mem) (n : Word)
    (before : OnlyIn [⟨buf,count.toNat⟩] mem₀ mem) :
    Ensures (readStdinLine buf count lcl mem n port) fun out => OnlyIn [⟨buf,count.toNat⟩] mem₀ out.2.mem := by
  have typed {n n' : Word} {mem mem' : Mem} {lcl lcl' : Lcl ω} {ch : Byte} (before : OnlyIn [⟨buf,count.toNat⟩] mem₀ mem)
      (echoed : (if n < count then (n + 1,storeBytes mem (buf + n) [ch],{ lcl with console := lcl.console ++ [ch] })
        else (n,mem,lcl)) = (n',mem',lcl')) : OnlyIn [⟨buf,count.toNat⟩] mem₀ mem' := by
    split at echoed
    · next room =>
      cases echoed
      exact onlyIn_trans before (onlyIn_storeAt mem buf n count ch room)
    · cases echoed
      exact before
  fun_induction readStdinLine with
  | case1 => exact ensures_error
  | case2 => exact ensures_ok before
  | case3 lcl mem n err lsr port _ _ ih => exact ih before
  | case4 => exact ensures_error
  | case5 => exact ensures_ok before
  | case6 lcl mem n err lsr _ _ err' ch port _ _ _ room =>
    exact ensures_ok (onlyIn_trans before (onlyIn_storeAt mem buf n count 0x0A room))
  | case7 => exact ensures_ok before
  | case8 => exact ensures_ok before
  | case9 lcl mem n err lsr _ _ err' ch port _ _ _ n' lcl' _ _ ih => exact ih before
  | case10 lcl mem n err lsr _ _ err' ch port _ _ _ n' mem' lcl' echoed => exact ensures_ok (typed before echoed)
  | case11 lcl mem n err lsr _ _ err' ch port _ _ _ n' mem' lcl' echoed _ ih => exact ih (typed before echoed)

theorem readCall_writes (rdi rsi rdx : Word) : Writes w [⟨rsi,rdx.toNat⟩] (readCall K w rdi rsi rdx) := by
  unfold readCall
  split
  · exact readStdinLine_writes w.port _ w.mem 0 (onlyIn_refl _ _)
  · split
    · refine ensures_bind (client_ensures (Q := fun out => out.2.length = min rdx.toNat 944) ?_) ?_
      · intro out called
        rw [read_length _ _ _ out called,List.length_replicate]
      · rintro ⟨⟨result,buf⟩,w'⟩ ⟨same,length⟩
        dsimp only at same length ⊢
        rw [← same]
        split
        · split
          · refine writes_store _ _ ?_
            rw [List.length_take,length]
            omega
          · exact writes_nothing 0
        · exact writes_nothing 0
    · exact writes_nothing 0

theorem getdents64_length (s : Lcl ω) (fd : Word) (buf : List Byte) :
    Ensures (s.getdents64 K fd buf) fun out => out.1.2.length = buf.length := by
  unfold Lcl.getdents64
  refine ensures_then ?_
  rintro ⟨reply,s⟩
  cases reply with
  | error e => exact ensures_ok rfl
  | ok answer =>
    dsimp only
    split
    · exact ensures_then fun data => ensures_ok (copyOut_length buf data _)
    · split
      · exact ensures_ok rfl
      · exact ensures_ok rfl

theorem getdents64Call_writes (rdi rsi rdx : Word) : Writes w [⟨rsi,rdx.toNat⟩] (getdents64Call K w rdi rsi rdx) := by
  refine ensures_bind (client_ensures (Q := fun out => out.2.length = min rdx.toNat 944) ?_) ?_
  · intro out called
    rw [getdents64_length _ _ _ out called,List.length_replicate]
  · rintro ⟨⟨result,buf⟩,w'⟩ ⟨same,length⟩
    dsimp only at same length ⊢
    rw [← same]
    split
    · split
      · refine writes_store _ _ ?_
        rw [List.length_take,length]
        omega
      · exact writes_nothing 0
    · exact writes_nothing _

theorem structStat_length (ino nlink : Word) (mode : BitVec 32) (size blksize blocks : Word) :
    (structStat ino nlink mode size blksize blocks).length = 144 := by
  simp [structStat,leBytes]

theorem statPath_writes (path : Str) (statbuf : Word) : Writes w [⟨statbuf,144⟩] (statPath K w path statbuf) := by
  refine writes_client ?_
  intro r w' same
  dsimp only
  split
  · exact writes_store 0 statbuf (Nat.le_of_eq (structStat_length _ _ _ _ _ _))
  · exact writes_nothing _

theorem statCall_writes (rdi rsi : Word) : Writes w [⟨rsi,144⟩] (statCall K w rdi rsi) := by
  unfold statCall
  dsimp only
  split
  · exact writes_store 0 rsi (Nat.le_of_eq (structStat_length _ _ _ _ _ _))
  · exact statPath_writes _ rsi

theorem fstatCall_writes (rdi rsi : Word) : Writes w [⟨rsi,144⟩] (fstatCall K w rdi rsi) := by
  unfold fstatCall
  split
  · exact writes_nothing 0
  · refine writes_client ?_
    intro r w' same
    dsimp only
    split
    · exact writes_store 0 rsi (Nat.le_of_eq (structStat_length _ _ _ _ _ _))
    · exact writes_nothing _

theorem unameCall_writes (rdi : Word) : Writes w [⟨rdi,390⟩] (unameCall w rdi) := by
  refine writes_store 0 rdi (Nat.le_of_eq ?_)
  simp only [List.length_append]
  rw [utsField_length,utsField_length,utsField_length,utsField_length,utsField_length,utsField_length]
  all_goals decide

theorem getcwdCall_writes (rdi rsi : Word) : Writes w [⟨rdi,rsi.toNat⟩] (getcwdCall w rdi rsi) := by
  unfold getcwdCall
  split
  · next room => exact writes_store 2 rdi (BitVec.le_def.mp room)
  · exact writes_nothing _

theorem openCall_writes (path : Word) (flags : BitVec 32) : Writes w regions (openCall K w path flags) := by
  unfold openCall
  dsimp only
  split
  · exact writes_nothing 10
  · split
    · exact writes_nothing 11
    · split
      · exact writes_nothing 12
      · exact writes_client fun r w' same => writes_nothing _

theorem accessCall_writes (path : Word) (mode : BitVec 32) : Writes w regions (accessCall K w path mode) := by
  refine writes_client ?_
  intro r w' same
  dsimp only
  split
  · exact writes_nothing 0
  · exact writes_nothing _

theorem writeCall_writes (rdi rsi rdx : Word) : Writes w regions (writeCall K w rdi rsi rdx) := by
  unfold writeCall
  split
  · exact ensures_ok (onlyIn_refl regions w.mem)
  · exact writes_client fun r w' same => writes_nothing _

theorem writevLoop_mem (rsi : Word) (n : Nat) (v total : Word) (w : World ω) : (writevLoop rsi n v total w).2.mem = w.mem := by
  induction n generalizing v total w with
  | zero => rfl
  | succ n ih =>
    rw [writevLoop]
    exact ih _ _ _

theorem writevCall_writes (rdi rsi rdx : Word) : Writes w regions (writevCall w rdi rsi rdx) := by
  unfold writevCall
  split
  · refine ensures_ok ?_
    intro a outside
    rw [writevLoop_mem]
  · exact writes_nothing _

/-- A syscall writes only inside of the buffers that the guest has passed to it. -/
theorem emulate_writes (rax rdi rsi rdx : Word) : Writes w (syscallBuffers rax rdi rsi rdx) (emulate K w rax rdi rsi rdx) := by
  unfold emulate
  split
  · next isRead =>
    rw [syscallBuffers,isRead]
    exact readCall_writes rdi rsi rdx
  · exact writeCall_writes rdi rsi rdx
  · exact openCall_writes rdi _
  · exact writes_client fun r w' same => writes_nothing 0
  · next isStat =>
    rw [syscallBuffers,isStat]
    exact statCall_writes rdi rsi
  · next isFstat =>
    rw [syscallBuffers,isFstat]
    exact fstatCall_writes rdi rsi
  · exact writes_client fun r w' same => writes_nothing _
  · exact writes_nothing _
  · exact writevCall_writes rdi rsi rdx
  · exact accessCall_writes rdi _
  · next isUname =>
    rw [syscallBuffers,isUname]
    exact unameCall_writes rdi
  · next isGetcwd =>
    rw [syscallBuffers,isGetcwd]
    exact getcwdCall_writes rdi rsi
  · next isGetdents =>
    rw [syscallBuffers,isGetdents]
    exact getdents64Call_writes rdi rsi rdx
  · exact openCall_writes rsi _
  · next isStatAt =>
    rw [syscallBuffers,isStatAt]
    exact statPath_writes _ rdx
  · exact accessCall_writes rsi _
  all_goals exact writes_nothing _

/-! ## Rounds -/

variable {cfg : Setup} {s : State ω} {r : Round}

/-- The buffers that a guest passes to a syscall in its registers. -/
def buffers (regs : Regs) : List Region :=
  match request regs with
  | .wait4 status => [⟨status,4⟩]
  | .archPrctl _ addr => [⟨addr,8⟩]
  | .other =>
    let caller := generalRegisters regs
    syscallBuffers caller.rax caller.rdi caller.rsi caller.rdx
  | _ => []

/-- Where a round may write: the missing page, the patched instruction, or the buffers of a syscall. -/
def written (s : State ω) (r : Round) : List Region :=
  match faultType r.tag with
  | 4 | 5 => [⟨pageVaddr (r.ib.readMr 1),PAGE_SIZE⟩]
  | 1 => [⟨r.ib.readMr 0,2⟩]
  | 2 => buffers (r.readRegisters s.process.activeTcb).2
  | _ => []

theorem serve_writes (regs : Regs) : Ensures (serve cfg K s r regs) fun v => OnlyIn (buffers regs) r.mem v.mem := by
  have ended : Ensures (endChild cfg s r) fun v => OnlyIn (buffers regs) r.mem v.mem := by
    unfold endChild
    split
    · exact ensures_error
    · exact ensures_ok (onlyIn_refl _ r.mem)
  unfold serve
  cases asked : request regs with
  | mmap length => exact ensures_ok (onlyIn_refl _ r.mem)
  | brk addr => exact ensures_ok (onlyIn_refl _ r.mem)
  | fork =>
    refine ensures_ok ?_
    unfold forkCall
    split
    · exact onlyIn_refl _ r.mem
    · exact onlyIn_refl _ r.mem
  | execve =>
    dsimp only [execveCall]
    split
    · exact ended
    · exact ensures_ok (onlyIn_refl _ r.mem)
  | exit code =>
    dsimp only [exitCall]
    split
    · exact ended
    · exact ensures_ok (onlyIn_refl _ r.mem)
  | wait4 status =>
    refine ensures_ok ?_
    simp only [buffers,asked]
    unfold wait4Call
    split
    · exact onlyIn_refl _ r.mem
    · dsimp only
      split
      · exact onlyIn_refl _ r.mem
      · exact @onlyIn_store r.mem status [0,0,0,0] 4 (Nat.le_refl 4)
  | archPrctl code addr =>
    refine ensures_ok ?_
    simp only [buffers,asked]
    unfold archPrctlCall
    split
    · exact onlyIn_refl _ r.mem
    · split
      · exact @onlyIn_store r.mem addr (leBytes (fsBase regs)) 8 (Nat.le_of_eq (by simp [leBytes]))
      · exact onlyIn_refl _ r.mem
  | other =>
    refine ensures_bind (emulate_writes _ _ _ _) ?_
    rintro ⟨retVal,w⟩ inside
    refine ensures_ok ?_
    rw [buffers,asked]
    exact inside

private theorem mapWithTable_writes (done : List Action) (page : Word) (map : Invocation) :
    Ensures (mapWithTable cfg s r done page map) fun h => h.mem = r.mem ∨ h.mem = zeroPage r.mem page := by
  unfold mapWithTable
  split
  · exact ensures_ok (Or.inl rfl)
  · refine ensures_then ?_
    rintro ⟨slot,t⟩
    dsimp only
    split
    · split
      · exact ensures_ok (Or.inr rfl)
      · exact ensures_ok (Or.inl rfl)
    · exact ensures_ok (Or.inl rfl)

theorem vmFault_writes :
    Ensures (vmFault cfg s r) fun h => OnlyIn [⟨pageVaddr (r.ib.readMr 1),PAGE_SIZE⟩] r.mem h.mem := by
  have zeroed : Ensures (vmFault cfg s r) fun h => h.mem = r.mem ∨ h.mem = zeroPage r.mem (pageVaddr (r.ib.readMr 1)) := by
    unfold vmFault
    dsimp only
    split
    · exact ensures_ok (Or.inl rfl)
    · split
      · exact ensures_ok (Or.inl rfl)
      · refine ensures_then ?_
        rintro ⟨slot,t⟩
        dsimp only
        split
        · split
          · exact ensures_ok (Or.inr rfl)
          · exact mapWithTable_writes _ _ _
        · exact ensures_ok (Or.inl rfl)
  intro h handled
  rcases zeroed h handled with same | filled
  · rw [same]
    exact onlyIn_refl _ r.mem
  · rw [filled]
    exact onlyIn_zeroPage r.mem (r.ib.readMr 1)

theorem capFault_writes : OnlyIn [⟨r.ib.readMr 0,2⟩] r.mem (capFault cfg s r).mem := by
  unfold capFault
  dsimp only
  split
  · exact onlyIn_store r.mem _ (Nat.le_refl 2)
  · exact onlyIn_refl _ r.mem

theorem unknownSyscall_writes :
    Ensures (unknownSyscall cfg K s r) fun h => OnlyIn (buffers (r.readRegisters s.process.activeTcb).2) r.mem h.mem := by
  unfold unknownSyscall
  dsimp only
  split
  · exact ensures_ok (onlyIn_refl _ r.mem)
  · refine ensures_bind (serve_writes _) ?_
    intro v inside
    split
    · exact ensures_ok inside
    · exact ensures_ok inside

/-- In every state and for all that the kernel and the file service answer, a round changes no byte of the guest's
    memory but in the missing page, the patched instruction or the buffers of the syscall. -/
theorem faultRound_writes (cfg : Setup) (K : Kernel ω) (s : State ω) (r : Round) :
    Ensures (faultRound cfg K s r) fun out => OnlyIn (written s r) r.mem out.1.mem := by
  have handled : Ensures (handle cfg K s.counted r) fun h => OnlyIn (written s r) r.mem h.mem := by
    unfold handle
    split
    · next isFault =>
      rw [written,isFault]
      exact vmFault_writes
    · next isFault =>
      rw [written,isFault]
      exact vmFault_writes
    · next isFault =>
      rw [written,isFault]
      exact ensures_ok capFault_writes
    · next isFault =>
      rw [written,isFault]
      exact unknownSyscall_writes
    · exact ensures_ok (onlyIn_refl _ r.mem)
    · exact ensures_ok (onlyIn_refl _ r.mem)
  by_cases left : s.left = true
  · unfold faultRound
    rw [if_pos left]
    exact ensures_error
  · by_cases within : s.faultCount < MAX_FAULTS
    · rw [faultRound_eq (Bool.eq_false_iff.mpr left) within]
      refine ensures_bind handled ?_
      intro h inside
      refine ensures_ok ?_
      rw [finish_mem]
      exact inside
    · unfold faultRound
      dsimp only
      rw [if_neg left,if_pos (by omega)]
      exact ensures_ok (onlyIn_refl _ r.mem)

/-! ## Runs -/

/-- A round of the loop, with the memory that the last round has left. -/
def memoryRound (cfg : Setup) (K : Kernel ω) : State ω × Mem → Round → Except Stop (Output × (State ω × Mem)) :=
  recorded (faultRound cfg K) fun _ _ out _ _ => out.mem

/-- The guest has not changed the byte at `a` since the last round, and the round may not write there. -/
def Spared (a : Word) : State ω × Mem → Round → Prop := fun (s,mem) r => r.mem a = mem a ∧ Outside (written s r) a

/-- What the guest keeps outside of the pages that it misses, the instructions that are patched and the buffers of its
    syscalls is there after every run of the loop. -/
theorem memory_kept (cfg : Setup) (K : Kernel ω) {s t : State ω} {mem mem' : Mem} {rounds : List Round} {outs : List Output}
    (a : Word) (spared : Meets (memoryRound cfg K) (Spared a) (s,mem) rounds)
    (ran : run (memoryRound cfg K) (s,mem) rounds = .ok (outs,(t,mem'))) : mem' a = mem a := by
  have kept (s t : State ω × Mem) (r : Round) (out : Output) (same : s.2 a = mem a) (here : Spared a s r)
      (round : memoryRound cfg K s r = .ok (out,t)) : t.2 a = mem a := by
    obtain ⟨s,mem₁⟩ := s
    obtain ⟨t,mem₂⟩ := t
    obtain ⟨first,rfl⟩ := recorded_ok_iff.mp round
    have inside : OnlyIn (written s r) r.mem out.mem := faultRound_writes cfg K s r _ first
    exact (inside a here.2).trans (here.1.trans same)
  exact run_invariant_meets (I := fun s => s.2 a = mem a) (fun s r out t same here round => kept s t r out same here round) rfl
    spared ran

/-- A byte is kept while the guest asks for its directory in a buffer of 16 bytes beside it and then for its pid. -/
theorem memory_kept_getcwd : ∃ outs t mem, run (memoryRound twoThreads noService) (beginning,fun _ => 7)
    [{ calling 0x401000 79 0x5000 16 with mem := fun _ => 7 },
      { calling 0x402000 39 0 0 with mem := storeBytes (fun _ => 7) 0x5000 [0x2F,0] }] = .ok (outs,(t,mem)) ∧ mem 0x5010 = 7 := by
  obtain ⟨outs,t,mem,ran⟩ : ∃ outs t mem, run (memoryRound twoThreads noService) (beginning,fun _ => 7)
      [{ calling 0x401000 79 0x5000 16 with mem := fun _ => 7 },
        { calling 0x402000 39 0 0 with mem := storeBytes (fun _ => 7) 0x5000 [0x2F,0] }] = .ok (outs,(t,mem)) := ⟨_,_,_,rfl⟩
  refine ⟨outs,t,mem,ran,memory_kept twoThreads noService 0x5010 ?_ ran⟩
  refine ⟨⟨rfl,by decide⟩,?_⟩
  intro o u first
  cases first
  refine ⟨⟨rfl,by decide⟩,?_⟩
  intro o u second
  cases second
  trivial

end Sel4Linux.GuestMemory
