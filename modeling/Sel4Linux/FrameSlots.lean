import Sel4Linux.ElfDecoding
import Sel4Linux.FirstStack
import Sel4Linux.PagePlan
import Sel4Linux.Slots
import Sel4Linux.Tcb

/-!
The slots for the frames of a program (`create_user_task` in
`lcl/src/task/runner.rs`). The free slots are pushed in reverse order, so that the
allocator gives them in order: first to the page tables, then to the frames. The
frames are made in batches, each from the first slot of the batch on. With enough
free slots each frame is made in the slot that its page is mapped from
(`frames_land`), whatever the allocator has held before; the frames made afterwards
take other slots.
-/
namespace Sel4Linux.FrameSlots
open Sel4Linux.Bytes Sel4Linux.Ipc Sel4Linux.Execve Sel4Linux.Loader Sel4Linux.LoadedImage Sel4Linux.PagePlan Sel4Linux.Slots
open Sel4Linux.Tcb Sel4Linux.Runs Sel4Linux.TaskMem
open Sel4Linux.FirstStack (STACK_VADDR STACK_EXTRA_PAGES)
open Sel4Linux.ElfDecoding (notedProgram)
set_option linter.unusedSimpArgs false

/-! ## Retypes -/

/-- `seL4_Untyped_Retype` of some objects, into consecutive slots. -/
structure Retype where
  kind : ObjectType
  slot : Word
  count : Nat
  deriving DecidableEq

def frameRetypes (done : List Retype) : List Retype := done.filter fun r => r.kind = .frame4k

/-- The slots of the frames that have been made, in their order. -/
def createdFrames (done : List Retype) : List Word :=
  (frameRetypes done).flatMap fun r => (List.range r.count).map fun i => r.slot + BitVec.ofNat 64 i

/-- What the kernel answers: to a retype after those that it has done, to a mapping of a page table or a frame, and to the
    invocations of the thread. -/
structure Answers where
  retype : List Retype → Retype → Word
  tableMap : Word → Word → Word
  frameMap : Word → Word → Word
  configure : Word
  schedParams : Word

/-- Why `create_user_task` ends early. -/
inductive Stop where
  | panic (f : Fault)
  /-- It returns `None`. -/
  | none
  deriving DecidableEq

/-- The allocator, and what the kernel has made. -/
structure Making where
  allocator : ObjectAllocator
  done : List Retype

variable (K : Answers) (bi : BootInfo)

/-- A retype that ends the task when it fails. -/
def Making.retype (s : Making) (r : Retype) : Except Stop Making :=
  if K.retype s.done r ≠ 0 then .error .none else .ok { s with done := s.done ++ [r] }

/-- A retype whose failure is only printed. -/
def Making.tryRetype (s : Making) (r : Retype) : Making :=
  if K.retype s.done r ≠ 0 then s else { s with done := s.done ++ [r] }

/-- `sm.alloc()?`. -/
def Making.takeSlot (s : Making) : Except Stop (Word × Making) :=
  match s.allocator.alloc with
  | (none,_) => .error .none
  | (some slot,allocator) => .ok (slot,{ s with allocator := allocator })

/-- `find_free_untyped(bits)?`. -/
def needUntyped (bits : BitVec 8) : Except Stop Unit := if (bi.findFreeUntyped bits).isSome then .ok () else .error .none

/-! ## Page tables and frames -/

/-- A page table for each region that has none; whether the kernel maps it does not matter. -/
def regionTables (s : Making) (mappedPts : List Word) : List Word → Except Stop (List Word × Making)
  | [] => .ok (mappedPts,s)
  | region :: rest =>
    if mappedPts.contains region then regionTables s mappedPts rest
    else do
      let (newPt,s) ← s.takeSlot
      needUntyped bi 12
      let s ← s.retype K { kind := .pageTable, slot := newPt, count := 1 }
      regionTables s (mappedPts ++ [region]) rest

def segmentTables (relocOffset : Word) (s : Making) (mappedPts : List Word) : List Segment → Except Stop (List Word × Making)
  | [] => .ok (mappedPts,s)
  | seg :: rest => do
    let relocatedStart := seg.vaddr + relocOffset
    let relocatedEnd := relocatedStart + seg.memsz
    let regions := regionRange (regionOf relocatedStart) (regionOf (relocatedEnd + BitVec.ofNat 64 (REGION_SIZE - 1)))
    let (mappedPts,s) ← regionTables K bi s mappedPts regions
    segmentTables relocOffset s mappedPts rest

/-- `frame_slots`. -/
def takeSlots (s : Making) : Nat → Except Stop (List Word × Making)
  | 0 => .ok ([],s)
  | n + 1 => do
    let (slot,s) ← s.takeSlot
    let (rest,s) ← takeSlots s n
    .ok (slot :: rest,s)

/-- The objects of one retype, at most. -/
def MAX_RETYPE : Nat := 256

/-- The loop over the batches. -/
def retypeBatches (frameSlots : List Word) (total framesAllocated : Nat) (s : Making) : Except Stop Making :=
  if framesAllocated < total then
    match frameSlots[framesAllocated]? with
    | none => .error (.panic .range)
    | some slot => do
      let s ← s.retype K { kind := .frame4k, slot := slot, count := min (total - framesAllocated) MAX_RETYPE }
      retypeBatches frameSlots total (framesAllocated + min (total - framesAllocated) MAX_RETYPE) s
  else .ok s
termination_by total - framesAllocated
decreasing_by
  have batch : 0 < min (total - framesAllocated) MAX_RETYPE := by
    rw [MAX_RETYPE]
    omega
  omega

/-- What `create_user_task` has before it maps the pages. -/
structure Prepared where
  taken : TaskSlots
  pageInfo : List PageInfo
  frameSlots : List Word
  making : Making

/-- `create_user_task` up to the mapping of the pages. -/
def prepareFrames (data : List Byte) (a : ObjectAllocator) : Except Stop Prepared :=
  match relocation data with
  | .error f => .error (.panic f)
  | .ok none => .error .none
  | .ok (some (relocOffset,segments)) => do
    needUntyped bi 21
    needUntyped bi 12
    let (taken,a) := createUserTaskSlots bi.empty a
    let s ← ({ allocator := a, done := [] } : Making).retype K { kind := .endpoint, slot := taken.faultEp, count := 1 }
    let s ← s.retype K { kind := .tcb, slot := taken.tcb, count := 1 }
    let (ptLoad,s) ← s.takeSlot
    let s := s.tryRetype K { kind := .pageTable, slot := ptLoad, count := 1 }
    let (_,s) ← segmentTables K bi relocOffset s [regionOf LOAD_BASE] segments
    let s ← s.retype K { kind := .pageTable, slot := taken.ptStack, count := 1 }
    if K.tableMap taken.ptStack 0xF00000 ≠ 0 then .error .none
    else do
      let pageInfo := pagePlan relocOffset [] segments
      let (frameSlots,s) ← takeSlots s pageInfo.length
      if frameSlots.isEmpty then .error (.panic .range)
      else do
        let s ← retypeBatches K frameSlots pageInfo.length 0 s
        .ok { taken := taken, pageInfo := pageInfo, frameSlots := frameSlots, making := s }

/-- The calls that map the listed pages, each with its slot, up to one that fails. -/
def mapFrames (frameSlots : List Word) : Nat → List PageInfo → List (Word × Word) × Option Stop
  | _, [] => ([],none)
  | idx, info :: rest =>
    match frameSlots[idx]? with
    | none => ([],some (.panic .range))
    | some frameSlot =>
      if K.frameMap frameSlot info.pageVaddr ≠ 0 then ([(frameSlot,info.pageVaddr)],some .none)
      else
        let (calls,stop) := mapFrames frameSlots (idx + 1) rest
        ((frameSlot,info.pageVaddr) :: calls,stop)

/-! ## The other frames -/

def IPC_BUF_VADDR : Word := 0xF11000

/-- `tls_base`. -/
def TLS_PAGE : Word := 0x720000

def TRAMPOLINE_PAGE : Word := 0x730000

/-- A frame that is made after those of the file: its slot, or one of the allocator's. One that is `optional` is left out
    where there is no untyped object for it. -/
structure FrameRequest where
  slot : Option Word
  vaddr : Word
  optional : Bool

/-- The frames of the stack and of the message buffer. -/
def stackRequests (taken : TaskSlots) : List FrameRequest :=
  { slot := some taken.stackFrame, vaddr := STACK_VADDR, optional := false } ::
    ((List.range' 1 STACK_EXTRA_PAGES).map fun i =>
      { slot := none, vaddr := STACK_VADDR - BitVec.ofNat 64 (i * PAGE_SIZE), optional := true }) ++
    [{ slot := some taken.ipcFrame, vaddr := IPC_BUF_VADDR, optional := false }]

/-- The frames made once the thread is configured. -/
def lastRequests : List FrameRequest :=
  [{ slot := none, vaddr := TLS_PAGE, optional := false },{ slot := none, vaddr := TRAMPOLINE_PAGE, optional := false }]

/-- The slot of a frame. -/
def Making.slotFor (s : Making) : Option Word → Except Stop (Word × Making)
  | some slot => .ok (slot,s)
  | none => s.takeSlot

/-- Requested frames, each made and mapped, up to one that fails. -/
def makeFrames (s : Making) : List FrameRequest → Making × Option Stop
  | [] => (s,none)
  | r :: rest =>
    if (bi.findFreeUntyped 12).isNone then if r.optional then makeFrames s rest else (s,some .none)
    else
      match s.slotFor r.slot with
      | .error stop => (s,some stop)
      | .ok (slot,s) =>
        match s.retype K { kind := .frame4k, slot := slot, count := 1 } with
        | .error stop => (s,some stop)
        | .ok s => if K.frameMap slot r.vaddr ≠ 0 then (s,some .none) else makeFrames s rest

/-- What has been made when `create_user_task` ends. -/
def finishFrames (p : Prepared) : Making :=
  match mapFrames K p.frameSlots 0 p.pageInfo with
  | (_,some _) => p.making
  | (_,none) =>
    match makeFrames K bi p.making (stackRequests p.taken) with
    | (s,some _) => s
    | (s,none) => if K.configure ≠ 0 ∨ K.schedParams ≠ 0 then s else (makeFrames K bi s lastRequests).1

/-! ## The slots that the task takes -/

/-- The slots for `data`, up to the frames of its pages. -/
def slotsTaken (data : List Byte) : Nat :=
  match relocation data with
  | .ok (some (relocOffset,segments)) =>
    match recordTables (fun _ => .ok ()) relocOffset [regionOf LOAD_BASE] segments with
    | .ok mappedPts => 6 + (mappedPts.length + (pagePlan relocOffset [] segments).length)
    | .error _ => 6
  | _ => 6

/-- The slots taken from the allocator after those. -/
def LATER_SLOTS : Nat := STACK_EXTRA_PAGES + 2

/-- From `s` to `t` the allocator has given `n` slots, and no frame has been made. -/
structure Takes (n : Nat) (s t : Making) : Prop where
  slots : t.allocator.recycled = s.allocator.recycled.drop n
  frames : frameRetypes t.done = frameRetypes s.done

variable {K bi}

theorem Takes.refl (s : Making) : Takes 0 s s := ⟨rfl,rfl⟩

theorem Takes.trans {m n : Nat} {s t u : Making} (first : Takes m s t) (second : Takes n t u) : Takes (m + n) s u :=
  ⟨by rw [second.slots,first.slots,List.drop_drop],second.frames.trans first.frames⟩

theorem frameRetypes_append (done more : List Retype) : frameRetypes (done ++ more) = frameRetypes done ++ frameRetypes more :=
  List.filter_append ..

theorem createdFrames_append (done more : List Retype) :
    createdFrames (done ++ more) = createdFrames done ++ createdFrames more := by
  rw [createdFrames,frameRetypes_append,List.flatMap_append,createdFrames,createdFrames]

/-- A retype of other objects adds no frames. -/
theorem frameRetypes_other {r : Retype} (other : r.kind ≠ .frame4k) (done : List Retype) :
    frameRetypes (done ++ [r]) = frameRetypes done := by
  simp [frameRetypes,other]

theorem retype_ok_iff {s t : Making} {r : Retype} :
    s.retype K r = .ok t ↔ K.retype s.done r = 0 ∧ t = { s with done := s.done ++ [r] } := by
  rw [Making.retype]
  by_cases accepted : K.retype s.done r = 0
  · simp [accepted,eq_comm]
  · rw [if_pos accepted]
    refine ⟨fun ran => ?_,fun both => absurd both.1 accepted⟩
    cases ran

theorem retype_takes {s t : Making} {r : Retype} (other : r.kind ≠ .frame4k) (ran : s.retype K r = .ok t) : Takes 0 s t := by
  obtain ⟨_,rfl⟩ := retype_ok_iff.mp ran
  exact ⟨rfl,frameRetypes_other other s.done⟩

theorem tryRetype_takes (s : Making) {r : Retype} (other : r.kind ≠ .frame4k) : Takes 0 s (s.tryRetype K r) := by
  rw [Making.tryRetype]
  split
  · exact Takes.refl s
  · exact ⟨rfl,frameRetypes_other other s.done⟩

theorem takeSlot_ok_iff {s t : Making} {slot : Word} : s.takeSlot = .ok (slot,t) ↔
    ∃ rest, s.allocator.recycled = slot :: rest ∧ t = { s with allocator := ⟨rest⟩ } := by
  rw [Making.takeSlot,ObjectAllocator.alloc]
  cases recycled : s.allocator.recycled with
  | nil => simp
  | cons first rest => simp [eq_comm]

theorem takeSlot_takes {s t : Making} {slot : Word} (ran : s.takeSlot = .ok (slot,t)) : Takes 1 s t := by
  obtain ⟨rest,recycled,rfl⟩ := takeSlot_ok_iff.mp ran
  exact ⟨by rw [recycled]; rfl,rfl⟩

/-! ## Page tables -/

theorem regionTables_takes {s t : Making} {mappedPts pts regions : List Word}
    (ran : regionTables K bi s mappedPts regions = .ok (pts,t)) :
    recordRegions (fun _ => .ok ()) mappedPts regions = .ok pts ∧
      ∃ n, pts.length = mappedPts.length + n ∧ Takes n s t := by
  induction regions generalizing s mappedPts with
  | nil =>
    cases ran
    exact ⟨rfl,0,rfl,Takes.refl _⟩
  | cons region rest ih =>
    rw [regionTables] at ran
    rw [recordRegions]
    by_cases there : mappedPts.contains region = true
    · rw [if_pos there] at ran ⊢
      exact ih ran
    · rw [if_neg there] at ran ⊢
      obtain ⟨⟨newPt,s₁⟩,taken,ran⟩ := bind_ok_iff.mp ran
      obtain ⟨_,_,ran⟩ := bind_ok_iff.mp ran
      obtain ⟨s₂,made,ran⟩ := bind_ok_iff.mp ran
      obtain ⟨recorded,n,count,takes⟩ := ih ran
      rw [List.length_append,List.length_singleton] at count
      have made' := retype_takes (show ObjectType.pageTable ≠ .frame4k by simp) made
      exact ⟨recorded,1 + n,by omega,((takeSlot_takes taken).trans made').trans takes⟩

theorem segmentTables_takes {relocOffset : Word} {s t : Making} {mappedPts pts : List Word} {segments : List Segment}
    (ran : segmentTables K bi relocOffset s mappedPts segments = .ok (pts,t)) :
    recordTables (fun _ => .ok ()) relocOffset mappedPts segments = .ok pts ∧
      ∃ n, pts.length = mappedPts.length + n ∧ Takes n s t := by
  induction segments generalizing s mappedPts with
  | nil =>
    cases ran
    exact ⟨rfl,0,rfl,Takes.refl _⟩
  | cons seg rest ih =>
    obtain ⟨⟨between,u⟩,first,ran⟩ := bind_ok_iff.mp ran
    obtain ⟨recorded,m,count,takes⟩ := regionTables_takes first
    obtain ⟨later,n,count',takes'⟩ := ih ran
    exact ⟨bind_ok_iff.mpr ⟨between,recorded,later⟩,m + n,by omega,takes.trans takes'⟩

/-! ## Frames -/

theorem takeSlots_takes {n : Nat} {s t : Making} {slots : List Word} (ran : takeSlots s n = .ok (slots,t)) :
    slots = s.allocator.recycled.take n ∧ Takes n s t := by
  induction n generalizing s slots with
  | zero =>
    cases ran
    exact ⟨rfl,Takes.refl _⟩
  | succ n ih =>
    obtain ⟨⟨slot,u⟩,first,ran⟩ := bind_ok_iff.mp ran
    obtain ⟨⟨later,v⟩,second,ran⟩ := bind_ok_iff.mp ran
    cases ran
    obtain ⟨isLater,takes⟩ := ih second
    obtain ⟨rest,recycled,rfl⟩ := takeSlot_ok_iff.mp first
    refine ⟨by rw [recycled,List.take_succ_cons,isLater],?_⟩
    rw [Nat.add_comm]
    exact (takeSlot_takes first).trans takes

theorem named_append (ns ms : List Nat) : named (ns ++ ms) = named ns ++ named ms := List.map_append

/-- The frames of a retype are in consecutive slots. -/
theorem createdFrames_batch (base count : Nat) :
    createdFrames [{ kind := .frame4k, slot := BitVec.ofNat 64 base, count := count }] = named (List.range' base count) := by
  simp only [createdFrames,named,List.range'_eq_map_range,List.map_map]
  simp [frameRetypes,Function.comp_def,BitVec.ofNat_add]

/-- What the batches from `framesAllocated` on make, and how many objects each of them asks for. -/
theorem retypeBatches_frames {base total framesAllocated : Nat} {s t : Making}
    (ran : retypeBatches K (named (List.range' base total)) total framesAllocated s = .ok t) :
    (∃ more, t.done = s.done ++ more ∧ ∀ r ∈ more, r.count ≤ MAX_RETYPE) ∧ t.allocator = s.allocator ∧
      createdFrames t.done = createdFrames s.done ++ named (List.range' (base + framesAllocated) (total - framesAllocated)) := by
  induction framesAllocated,s using retypeBatches.induct (named (List.range' base total)) total with
  | case1 fa s more beyond =>
    have inside : fa < (named (List.range' base total)).length := by simpa [named] using more
    rw [List.getElem?_eq_getElem inside] at beyond
    cases beyond
  | case2 fa s more slot isSlot ih =>
    rw [retypeBatches,if_pos more,isSlot] at ran
    obtain ⟨u,made,ran⟩ := bind_ok_iff.mp ran
    obtain ⟨⟨later,isDone,few⟩,same,created⟩ := ih u ran
    obtain ⟨_,rfl⟩ := retype_ok_iff.mp made
    have place : slot = BitVec.ofNat 64 (base + fa) := by
      simpa [named,List.getElem?_range',more,eq_comm] using isSlot
    subst place
    refine ⟨⟨_ :: later,by rw [isDone,List.append_assoc]; rfl,?_⟩,same,?_⟩
    · intro r member
      rcases List.mem_cons.mp member with rfl | member
      · exact Nat.min_le_right _ _
      · exact few r member
    · rw [created,createdFrames_append,createdFrames_batch,List.append_assoc,← named_append,← Nat.add_assoc]
      have split : total - fa = min (total - fa) MAX_RETYPE + (total - (fa + min (total - fa) MAX_RETYPE)) := by omega
      conv => rhs; rw [split,← List.range'_append_1]
  | case3 fa s done =>
    rw [retypeBatches,if_neg done] at ran
    cases ran
    refine ⟨⟨[],(List.append_nil _).symm,fun r member => ?_⟩,rfl,?_⟩
    · cases member
    · rw [Nat.sub_eq_zero_of_le (Nat.le_of_not_lt done)]
      simp [named]

/-- The calls map the pages in their order, each from its slot. -/
theorem mapFrames_calls {frameSlots : List Word} {start : Nat} {pageInfo : List PageInfo} {idx : Nat} {call : Word × Word}
    (made : (mapFrames K frameSlots start pageInfo).1[idx]? = some call) :
    frameSlots[start + idx]? = some call.1 ∧ pageInfo[idx]?.map PageInfo.pageVaddr = some call.2 := by
  induction pageInfo generalizing start idx with
  | nil => simp [mapFrames] at made
  | cons info rest ih =>
    rw [mapFrames] at made
    cases isSlot : frameSlots[start]? with
    | none => simp [isSlot] at made
    | some frameSlot =>
      rw [isSlot] at made
      by_cases refused : K.frameMap frameSlot info.pageVaddr ≠ 0
      · simp only [if_pos refused] at made
        cases idx with
        | zero =>
          cases made
          exact ⟨isSlot,rfl⟩
        | succ idx => simp at made
      · simp only [if_neg refused] at made
        cases idx with
        | zero =>
          cases made
          exact ⟨isSlot,rfl⟩
        | succ idx =>
          have later := ih made
          rw [show start + 1 + idx = start + (idx + 1) by omega] at later
          exact later

/-! ## The frames made afterwards -/

/-- From `s` to `t` frames have been made in slots of `own`, and in at most `n` that the allocator has given. -/
structure Makes (n : Nat) (own : List Word) (s t : Making) : Prop where
  slots : ∃ m, m ≤ n ∧ t.allocator.recycled = s.allocator.recycled.drop m
  frames : ∃ more, createdFrames t.done = createdFrames s.done ++ more ∧
    ∀ slot ∈ more, slot ∈ own ∨ slot ∈ s.allocator.recycled.take n

theorem Makes.refl (n : Nat) (own : List Word) (s : Making) : Makes n own s s :=
  ⟨⟨0,Nat.zero_le n,rfl⟩,[],(List.append_nil _).symm,fun _ member => absurd member List.not_mem_nil⟩

theorem Makes.trans {m n : Nat} {own own' : List Word} {s t u : Making} (first : Makes m own s t) (second : Makes n own' t u) :
    Makes (m + n) (own ++ own') s u := by
  obtain ⟨⟨i,few,slots⟩,more,frames,places⟩ := first
  obtain ⟨⟨j,few',slots'⟩,more',frames',places'⟩ := second
  refine ⟨⟨i + j,by omega,by rw [slots',slots,List.drop_drop]⟩,more ++ more',by rw [frames',frames,List.append_assoc],?_⟩
  intro slot member
  rcases List.mem_append.mp member with early | late
  · rcases places slot early with isOwn | given
    · exact .inl (List.mem_append_left _ isOwn)
    · exact .inr (List.take_subset_take_left _ (Nat.le_add_right m n) given)
  · rcases places' slot late with isOwn | given
    · exact .inl (List.mem_append_right _ isOwn)
    · rw [slots,List.take_drop] at given
      exact .inr (List.take_subset_take_left _ (by omega) (List.mem_of_mem_drop given))

/-- The slots named in requests, and the number of those that name none. -/
def ownSlots (requests : List FrameRequest) : List Word := requests.filterMap FrameRequest.slot

def unnamed (requests : List FrameRequest) : Nat := requests.countP fun r => r.slot.isNone

theorem slotFor_given {s t : Making} {r : FrameRequest} {slot : Word} (given : s.slotFor r.slot = .ok (slot,t)) :
    t.done = s.done ∧ (∃ m, m ≤ unnamed [r] ∧ t.allocator.recycled = s.allocator.recycled.drop m) ∧
      (slot ∈ ownSlots [r] ∨ slot ∈ s.allocator.recycled.take (unnamed [r])) := by
  cases isSlot : r.slot with
  | some own =>
    rw [isSlot] at given
    cases given
    exact ⟨rfl,⟨0,Nat.zero_le _,rfl⟩,.inl (by simp [ownSlots,isSlot])⟩
  | none =>
    rw [isSlot] at given
    obtain ⟨rest,recycled,rfl⟩ := takeSlot_ok_iff.mp given
    exact ⟨rfl,⟨1,by simp [unnamed,isSlot],by rw [recycled]; rfl⟩,.inr (by simp [unnamed,isSlot,recycled])⟩

theorem makeFrames_makes (s : Making) (requests : List FrameRequest) :
    Makes (unnamed requests) (ownSlots requests) s (makeFrames K bi s requests).1 := by
  induction requests generalizing s with
  | nil => exact Makes.refl _ _ s
  | cons r rest ih =>
    have count : unnamed (r :: rest) = unnamed [r] + unnamed rest := by
      rw [unnamed,unnamed,unnamed,← List.countP_append]
      rfl
    have own : ownSlots (r :: rest) = ownSlots [r] ++ ownSlots rest := by
      rw [ownSlots,ownSlots,ownSlots,← List.filterMap_append]
      rfl
    rw [count,own,makeFrames]
    split
    · split
      · exact (Makes.refl _ _ s).trans (ih s)
      · exact Makes.refl _ _ s
    · split
      · exact Makes.refl _ _ s
      · next slot t given =>
        obtain ⟨same,slots,place⟩ := slotFor_given given
        split
        · -- The slot is taken although nothing is made in it.
          have lost : Makes (unnamed [r]) (ownSlots [r]) s t :=
            ⟨slots,[],by rw [same,List.append_nil],fun _ member => absurd member List.not_mem_nil⟩
          exact lost.trans (Makes.refl _ _ t)
        · next u made =>
          obtain ⟨_,isNext⟩ := retype_ok_iff.mp made
          have one : createdFrames [{ kind := .frame4k, slot := slot, count := 1 }] = [slot] := by
            simp [createdFrames,frameRetypes]
          have here : Makes (unnamed [r]) (ownSlots [r]) s u := by
            rw [isNext]
            refine ⟨slots,[slot],by rw [createdFrames_append,one,same],?_⟩
            intro slot' member
            rw [List.mem_singleton.mp member]
            exact place
          split
          · exact here.trans (Makes.refl _ _ _)
          · exact here.trans (ih _)

theorem stackRequests_own (taken : TaskSlots) : ownSlots (stackRequests taken) = [taken.stackFrame,taken.ipcFrame] := by
  simp [ownSlots,stackRequests,List.filterMap_map,Function.comp_def]

theorem stackRequests_unnamed (taken : TaskSlots) : unnamed (stackRequests taken) = STACK_EXTRA_PAGES := by
  simp [unnamed,stackRequests,List.countP_map,Function.comp_def]

/-- The frames of the stack, of the message buffer and the last two. -/
theorem finishFrames_makes (p : Prepared) :
    Makes LATER_SLOTS [p.taken.stackFrame,p.taken.ipcFrame] p.making (finishFrames K bi p) := by
  have stack := @makeFrames_makes K bi p.making (stackRequests p.taken)
  rw [stackRequests_own,stackRequests_unnamed] at stack
  have whole : ∀ {s}, Makes STACK_EXTRA_PAGES [p.taken.stackFrame,p.taken.ipcFrame] p.making s →
      Makes LATER_SLOTS [p.taken.stackFrame,p.taken.ipcFrame] p.making s := fun first => by
    have := first.trans (Makes.refl 2 [] _)
    rwa [List.append_nil] at this
  rw [finishFrames]
  split
  · exact Makes.refl _ _ _
  · split
    · next s stop ended =>
      rw [ended] at stack
      exact whole stack
    · next s ended =>
      rw [ended] at stack
      split
      · exact whole stack
      · have last := stack.trans (@makeFrames_makes K bi s lastRequests)
        exact last

/-! ## Where the frames are -/

/-- Slots further on in the region come before all that was in the allocator. -/
theorem given_slots {base count k n : Nat} (old : List Word) (room : k + n ≤ count) :
    ((named (List.range' base count) ++ old).drop k).take n = named (List.range' (base + k) n) := by
  have long : n ≤ ((named (List.range' base count)).drop k).length := by
    rw [List.length_drop,named,List.length_map,List.length_range']
    omega
  rw [List.drop_append_of_le_length (by simp [named]; omega),List.take_append_of_le_length long]
  rw [named,← List.map_drop,← List.map_take,List.drop_range',List.take_range'_of_length_ge (by omega),Nat.mul_one]
  rfl

/-- Two ranges of slots, one behind the other. -/
theorem named_apart {x c y d : Nat} (order : x + c ≤ y) (bound : y + d < 2 ^ 64) {slot : Word}
    (first : slot ∈ named (List.range' x c)) : slot ∉ named (List.range' y d) := by
  intro second
  obtain ⟨i,low,rfl⟩ := List.mem_map.mp first
  obtain ⟨j,high,same⟩ := List.mem_map.mp second
  rw [List.mem_range'_1] at low high
  rw [ofNat_inj (by omega) (by omega)] at same
  omega

/-- The steps of `create_user_task` up to the frames: with the page tables `pts` that are recorded, it has taken as many slots from
    the allocator when it comes to those of the frames. -/
theorem prepared_steps {data : List Byte} {a : ObjectAllocator} {p : Prepared} (prepared : prepareFrames K bi data a = .ok p) :
    ∃ relocOffset segments pts s t, relocation data = .ok (some (relocOffset,segments)) ∧
      recordTables (fun _ => .ok ()) relocOffset [regionOf LOAD_BASE] segments = .ok pts ∧
      p.pageInfo = pagePlan relocOffset [] segments ∧ p.taken = (createUserTaskSlots bi.empty a).1 ∧
      Takes pts.length { allocator := (createUserTaskSlots bi.empty a).2, done := [] } s ∧
      takeSlots s p.pageInfo.length = .ok (p.frameSlots,t) ∧
      retypeBatches K p.frameSlots p.pageInfo.length 0 t = .ok p.making := by
  rw [prepareFrames] at prepared
  split at prepared
  · cases prepared
  · cases prepared
  · next relocOffset segments read =>
    obtain ⟨_,_,prepared⟩ := bind_ok_iff.mp prepared
    obtain ⟨_,_,prepared⟩ := bind_ok_iff.mp prepared
    obtain ⟨s₁,endpoint,prepared⟩ := bind_ok_iff.mp prepared
    obtain ⟨s₂,thread,prepared⟩ := bind_ok_iff.mp prepared
    obtain ⟨⟨ptLoad,s₃⟩,load,prepared⟩ := bind_ok_iff.mp prepared
    obtain ⟨⟨pts,s₄⟩,tables,prepared⟩ := bind_ok_iff.mp prepared
    obtain ⟨s₅,stack,prepared⟩ := bind_ok_iff.mp prepared
    split at prepared
    · cases prepared
    obtain ⟨⟨frameSlots,s₆⟩,slots,prepared⟩ := bind_ok_iff.mp prepared
    simp only at prepared
    split at prepared
    · cases prepared
    obtain ⟨s₇,batches,prepared⟩ := bind_ok_iff.mp prepared
    cases prepared
    obtain ⟨recorded,n,count,mapped⟩ := segmentTables_takes tables
    rw [List.length_singleton] at count
    have noFrame : ObjectType.pageTable ≠ .frame4k := by simp
    have before := (retype_takes (show ObjectType.endpoint ≠ .frame4k by simp) endpoint).trans
      (retype_takes (show ObjectType.tcb ≠ .frame4k by simp) thread)
    have loaded := (takeSlot_takes load).trans (@tryRetype_takes K s₃ { kind := .pageTable, slot := ptLoad, count := 1 } noFrame)
    have takes := (before.trans loaded).trans (mapped.trans (retype_takes noFrame stack))
    rw [show 0 + 0 + (1 + 0) + (n + 0) = pts.length by omega] at takes
    exact ⟨relocOffset,segments,pts,s₅,s₆,read,recorded,rfl,rfl,takes,slots,batches⟩

/-- The slots of the frames, after those that `k` page tables have taken. -/
theorem prepared_slots {data : List Byte} {a : ObjectAllocator} {p : Prepared} (room : slotsTaken data ≤ bi.empty.count)
    (prepared : prepareFrames K bi data a = .ok p) : ∃ k,
      6 + (k + p.pageInfo.length) = slotsTaken data ∧ p.taken = (createUserTaskSlots bi.empty a).1 ∧
      p.frameSlots = named (List.range' (bi.empty.start.toNat + 6 + k) p.pageInfo.length) ∧
      p.making.allocator.recycled =
        ((named (List.range' (bi.empty.start.toNat + 6) (bi.empty.count - 6))) ++ a.recycled).drop (k + p.pageInfo.length) ∧
      createdFrames p.making.done = p.frameSlots ∧
      ∀ r ∈ frameRetypes p.making.done, r.count ≤ MAX_RETYPE := by
  obtain ⟨relocOffset,segments,pts,s,t,read,recorded,pages,taken,takes,slots,batches⟩ := prepared_steps prepared
  have total : 6 + (pts.length + p.pageInfo.length) = slotsTaken data := by
    rw [slotsTaken,read,pages]
    simp only [recorded]
  obtain ⟨_,recycled⟩ := createUserTaskSlots_eq (show 6 ≤ bi.empty.count by omega) a
  obtain ⟨isSlots,later⟩ := takeSlots_takes slots
  rw [takes.slots] at isSlots
  simp only [recycled] at isSlots
  rw [given_slots a.recycled (by omega)] at isSlots
  rw [isSlots] at batches
  obtain ⟨⟨more,isDone,few⟩,same,created⟩ := retypeBatches_frames batches
  have all := takes.trans later
  have none' : frameRetypes t.done = [] := all.frames
  have before : createdFrames t.done = [] := by
    rw [createdFrames,none']
    rfl
  refine ⟨pts.length,total,taken,isSlots,?_,?_,?_⟩
  · rw [same,all.slots]
    simp only [recycled]
  · rw [created,before,isSlots]
    rfl
  · intro r member
    rw [isDone,frameRetypes_append,none',List.nil_append] at member
    exact few r (List.mem_of_mem_filter member)

/-- For every file, every region of empty slots and every content of the allocator: where the region has as many slots as are
    taken up to the frames of the pages, each frame of a batch is made in the slot of its page, in that slot no other frame is
    made, and the page is mapped from it. Where it also has the slots for the frames of the task itself, these are made in
    other slots. -/
theorem frames_land {data : List Byte} {a : ObjectAllocator} {p : Prepared} (room : slotsTaken data ≤ bi.empty.count)
    (prepared : prepareFrames K bi data a = .ok p) :
    p.frameSlots.length = p.pageInfo.length ∧ createdFrames p.making.done = p.frameSlots ∧
      (∀ r ∈ frameRetypes p.making.done, r.count ≤ MAX_RETYPE) ∧
      (∀ (idx : Nat) (call : Word × Word), (mapFrames K p.frameSlots 0 p.pageInfo).1[idx]? = some call →
        (createdFrames p.making.done)[idx]? = some call.1 ∧ p.pageInfo[idx]?.map PageInfo.pageVaddr = some call.2) ∧
      (∀ slot ∈ p.frameSlots, (createdFrames p.making.done).count slot = 1) ∧
      (slotsTaken data + LATER_SLOTS ≤ bi.empty.count →
        ∀ slot ∈ p.frameSlots, (createdFrames (finishFrames K bi p).done).count slot = 1) := by
  obtain ⟨k,total,taken,slots,recycled,created,few⟩ := prepared_slots room prepared
  have bound : bi.empty.start.toNat + bi.empty.count < 2 ^ 64 := by
    have := bi.empty.stop.isLt
    unfold SlotRegion.count at *
    omega
  have nodup : p.frameSlots.Nodup := by
    rw [slots]
    refine (named_nodup_iff fun n member => ?_).mpr List.nodup_range'
    rw [List.mem_range'_1] at member
    omega
  refine ⟨by rw [slots]; simp [named],created,few,fun idx call made => ?_,fun slot member => ?_,fun more slot member => ?_⟩
  · obtain ⟨place,page⟩ := mapFrames_calls made
    rw [Nat.zero_add] at place
    exact ⟨by rw [created]; exact place,page⟩
  · rw [created]
    exact List.count_eq_one_of_mem nodup member
  · obtain ⟨_,others,frames,places⟩ := @finishFrames_makes K bi p
    rw [frames,created,List.count_append,List.count_eq_one_of_mem nodup member,Nat.add_eq_left,List.count_eq_zero]
    intro other
    rw [slots] at member
    rcases places slot other with own | given
    · have six : slot ∈ named (List.range' bi.empty.start.toNat 6) := by
        rw [← (createUserTaskSlots_eq (show 6 ≤ bi.empty.count by omega) a).1,← taken,TaskSlots.all]
        rcases List.mem_cons.mp own with rfl | own
        · simp
        · simp [List.mem_singleton.mp own]
      exact named_apart (by omega) (by omega) six member
    · rw [recycled,given_slots a.recycled (by omega)] at given
      exact named_apart (by omega) (by omega) member given

/-- A kernel that does all that it is asked for. -/
def accepting : Answers :=
  { retype := fun _ _ => 0, tableMap := fun _ _ => 0, frameMap := fun _ _ => 0, configure := 0, schedParams := 0 }

/-- Forty-eight empty slots, and a large untyped object. -/
def manySlots : BootInfo := { empty := ⟨100,148⟩, untypedStart := 50, untypedList := [⟨21,0⟩] }

/-- Four pages far apart, with a slot from before in the allocator: page tables take two slots before the frames, and
    there is room for the frames of the task itself. -/
theorem frames_land_noted : ∃ p, prepareFrames accepting manySlots (notedProgram 0x2000) ⟨[55]⟩ = .ok p ∧
    p.frameSlots = [108,109,110,111] ∧ p.pageInfo.map PageInfo.pageVaddr = [0x400000,0x401000,0x5FF000,0x600000] ∧
    createdFrames p.making.done = p.frameSlots ∧
    ∀ slot ∈ p.frameSlots, (createdFrames (finishFrames accepting manySlots p).done).count slot = 1 := by
  have room : slotsTaken (notedProgram 0x2000) = 12 := by
    decide +kernel
  obtain ⟨p,ran,slots,pages⟩ : ∃ p, prepareFrames accepting manySlots (notedProgram 0x2000) ⟨[55]⟩ = .ok p ∧
      p.frameSlots = [108,109,110,111] ∧ p.pageInfo.map PageInfo.pageVaddr = [0x400000,0x401000,0x5FF000,0x600000] := by
    have four : (prepareFrames accepting manySlots (notedProgram 0x2000) ⟨[55]⟩).toOption.map
        (fun p => (p.frameSlots,p.pageInfo.map PageInfo.pageVaddr)) =
        some ([108,109,110,111],[0x400000,0x401000,0x5FF000,0x600000]) := by
      decide +kernel
    cases ran : prepareFrames accepting manySlots (notedProgram 0x2000) ⟨[55]⟩ with
    | error stop =>
      rw [ran] at four
      cases four
    | ok p =>
      rw [ran] at four
      obtain ⟨slots,pages⟩ := Prod.mk.inj (Option.some.inj four)
      exact ⟨p,rfl,slots,pages⟩
  obtain ⟨_,created,_,_,_,later⟩ :=
    frames_land (show slotsTaken (notedProgram 0x2000) ≤ manySlots.empty.count by rw [room]; decide) ran
  exact ⟨p,ran,slots,pages,created,later (by rw [room]; decide)⟩

end Sel4Linux.FrameSlots
