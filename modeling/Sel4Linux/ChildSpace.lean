import Sel4Linux.FaultLoop
import Mathlib.Data.List.Sort

/-!
The address space of a child task (`create_child_vspace` and `create_child_tcb` in
`lcl/src/task/loader.rs`). A kernel that follows its mapping rules never lets both
succeed (`create_child_stops`): the first maps a stack page only where a page table
is, and the second maps a page table to the same place.
-/
namespace Sel4Linux.ChildSpace
open Sel4Linux.Bytes Sel4Linux.TaskMem Sel4Linux.Slots Sel4Linux.Tcb Sel4Linux.Runs
open Sel4Linux.FaultLoop (CNODE ALL_RIGHTS)
set_option linter.unusedSimpArgs false

/-- `init_slots::TCB`. -/
def TCB : Word := 1

def STACK_VADDR : Word := 0xF10000
def STACK_PAGES : Nat := 4
def IPC_BUF_VADDR : Word := 0xF11000
def TLS_BASE : Word := 0x720000

/-! ## The kernel's mapping rules -/

/-- The paging structures of an address space, by the entries that they take. -/
structure Space where
  pdpts : List Nat
  directories : List Nat
  tables : List Nat
  frames : List Nat

def Space.empty : Space := { pdpts := [], directories := [], tables := [], frames := [] }

/-- The entry of an address, among entries for `2 ^ bits` bytes. -/
def entryAt (bits : Nat) (vaddr : Word) : Nat := vaddr.toNat / 2 ^ bits

def Maps (inv : Invocation) : Prop := inv.label ∈ [33,35,37,41]

instance (inv : Invocation) : Decidable (Maps inv) := inferInstanceAs (Decidable (_ ∈ _))

/-- The space after a mapping call, unless it is refused: a page directory needs its PDPT, a page table its page
    directory and an empty entry, a frame its page table and an empty entry. -/
def Space.map (space : Space) (label : BitVec 32) (vaddr : Word) : Option Space :=
  if label = 33 then some { space with pdpts := entryAt 39 vaddr :: space.pdpts }
  else if label = 35 then
    if entryAt 39 vaddr ∈ space.pdpts then some { space with directories := entryAt 30 vaddr :: space.directories } else none
  else if label = 37 then
    if entryAt 30 vaddr ∈ space.directories ∧ entryAt 21 vaddr ∉ space.tables then
      some { space with tables := entryAt 21 vaddr :: space.tables }
    else none
  else
    if entryAt 21 vaddr ∈ space.tables ∧ entryAt 12 vaddr ∉ space.frames then
      some { space with frames := entryAt 12 vaddr :: space.frames }
    else none

theorem maps_pdptMap (pdpt vspace vaddr attr : Word) : Maps (pdptMap pdpt vspace vaddr attr) :=
  show (33 : BitVec 32) ∈ [33,35,37,41] by decide

theorem maps_pageDirectoryMap (pd vspace vaddr attr : Word) : Maps (pageDirectoryMap pd vspace vaddr attr) :=
  show (35 : BitVec 32) ∈ [33,35,37,41] by decide

theorem maps_pageTableMap (pt vspace vaddr attr : Word) : Maps (pageTableMap pt vspace vaddr attr) :=
  show (37 : BitVec 32) ∈ [33,35,37,41] by decide

theorem maps_frameMap (frame vspace vaddr rights attr : Word) : Maps (frameMap frame vspace vaddr rights attr) :=
  show (41 : BitVec 32) ∈ [33,35,37,41] by decide

/-- What the rules leave open: the error of a refused mapping, and the answers to other calls. -/
structure Answers where
  refusal : Invocation → Word
  refuses : ∀ inv, refusal inv ≠ 0
  other : Invocation → Word

/-- The allocator, and the address spaces by the slots of their PML4s. -/
structure Machine where
  allocator : ObjectAllocator
  spaces : Word → Space

/-- The kernel's answer, where every retype succeeds. -/
def Machine.invoke (K : Answers) (m : Machine) (inv : Invocation) : Word × Machine :=
  if inv.label = 1 then
    if inv.mrs.getD 0 0 = ObjectType.pml4.number then
      (0,{ m with spaces := Function.update m.spaces (inv.mrs.getD 4 0) Space.empty })
    else (0,m)
  else if Maps inv then
    let vspace := inv.extraCaps.getD 0 0
    match (m.spaces vspace).map inv.label (inv.mrs.getD 0 0) with
    | some space => (0,{ m with spaces := Function.update m.spaces vspace space })
    | none => (K.refusal inv,m)
  else (K.other inv,m)

/-! ## The loader -/

/-- Why a function of the loader returns `None`. -/
inductive Denied where
  | noSlot
  | noUntyped
  | failed (inv : Invocation) (err : Word)
  deriving DecidableEq

/-- The loaded pages, by address: a `BTreeMap`. -/
structure LoadedPages where
  frames : List (Word × Word)
  sorted : (frames.map Prod.fst).Pairwise (· < ·)

structure ChildTask where
  tcb : Word
  faultEp : Word
  cnode : Word
  pml4 : Word
  ipcFrame : Word

variable (K : Answers) (bi : BootInfo)

/-- A call, with `None` for any error. -/
def call (m : Machine) (inv : Invocation) : Except Denied Machine :=
  let (err,m) := m.invoke K inv
  if err ≠ 0 then .error (.failed inv err) else .ok m

/-- `OBJ_ALLOCATOR.lock().alloc()?`. -/
def allocSlot (m : Machine) : Except Denied (Word × Machine) :=
  match m.allocator.alloc with
  | (some slot,allocator) => .ok (slot,{ m with allocator := allocator })
  | (none,_) => .error .noSlot

/-- `bi.find_free_untyped(..)?`, and the retype of what it finds. -/
def retypeInto (m : Machine) (kind : ObjectType) (slot : Word) : Except Denied Machine :=
  match bi.findFreeUntyped (kind.sizeBits.setWidth 8) with
  | some (ut,_) => call K m (untypedRetype ut kind.number kind.sizeBits CNODE CNODE 64 slot 1)
  | none => .error .noUntyped

def create (m : Machine) (kind : ObjectType) : Except Denied (Word × Machine) := do
  let (slot,m) ← allocSlot m
  let m ← retypeInto K bi m kind slot
  .ok (slot,m)

/-- A new object for each address, mapped there by a call: in a loop, or once for a single address. -/
def mapEach (kind : ObjectType) (map : Word → Word → Invocation) : List Word → Machine → Except Denied Machine
  | [], m => .ok m
  | vaddr :: rest, m => do
    let (slot,m) ← create K bi m kind
    let m ← call K m (map slot vaddr)
    mapEach kind map rest m

/-- The distinct values of `vaddr & mask`, sorted. -/
def regions (mask : Word) (pages : List Word) : List Word :=
  (pages.foldl (fun found vaddr => if found.contains (vaddr &&& mask) then found else found ++ [vaddr &&& mask])
    []).insertionSort (· ≤ ·)

/-- The loaded frames, whatever the kernel answers. -/
def mapLoaded (pml4 : Word) (frames : List (Word × Word)) (m : Machine) : Machine :=
  frames.foldl (fun m frame => (m.invoke K (frameMap frame.2 pml4 frame.1 ALL_RIGHTS 0)).2) m

def stackPages : List Word := (List.range STACK_PAGES).map fun i => STACK_VADDR + BitVec.ofNat 64 (i * PAGE_SIZE)

def createChildVspace (m : Machine) (loaded : LoadedPages) : Except Denied (Word × Machine) := do
  let (pml4,m) ← create K bi m .pml4
  let m ← mapEach K bi .pdpt (fun slot vaddr => pdptMap slot pml4 vaddr 0) [0] m
  let pages := loaded.frames.map Prod.fst
  let m ← mapEach K bi .pageDirectory (fun slot vaddr => pageDirectoryMap slot pml4 vaddr 0) (regions (~~~0x3FFFFFFF) pages) m
  let m ← mapEach K bi .pageTable (fun slot vaddr => pageTableMap slot pml4 vaddr 0) (regions (~~~0x1FFFFF) pages) m
  let m := mapLoaded K pml4 loaded.frames m
  let m ← mapEach K bi .frame4k (fun slot vaddr => frameMap slot pml4 vaddr ALL_RIGHTS 0) stackPages m
  let m ← mapEach K bi .frame4k (fun slot vaddr => frameMap slot pml4 vaddr ALL_RIGHTS 0) [TLS_BASE] m
  .ok (pml4,m)

def createChildTcb (m : Machine) (cnode pml4 : Word) : Except Denied (ChildTask × Machine) := do
  let (tcb,m) ← allocSlot m
  let (faultEp,m) ← allocSlot m
  let (ipcFrame,m) ← allocSlot m
  let m ← retypeInto K bi m .tcb tcb
  let m ← retypeInto K bi m .endpoint faultEp
  let m ← mapEach K bi .pageTable (fun slot vaddr => pageTableMap slot pml4 vaddr 0) [0xF00000] m
  let m ← retypeInto K bi m .frame4k ipcFrame
  let m ← call K m (frameMap ipcFrame pml4 IPC_BUF_VADDR ALL_RIGHTS 0)
  let m ← mapEach K bi .frame4k (fun slot vaddr => frameMap slot pml4 vaddr ALL_RIGHTS 0) stackPages m
  -- The source looks at this error twice.
  let m ← call K m (tcbConfigure tcb faultEp cnode 0 pml4 IPC_BUF_VADDR ipcFrame)
  let m ← call K m (tcbSetSchedParams tcb TCB 255 255)
  .ok ({ tcb := tcb, faultEp := faultEp, cnode := cnode, pml4 := pml4, ipcFrame := ipcFrame },m)

/-- The address space, and then the thread in it. -/
def createChild (m : Machine) (cnode : Word) (loaded : LoadedPages) : Except Denied (ChildTask × Machine) := do
  let (pml4,m) ← createChildVspace K bi m loaded
  createChildTcb K bi m cnode pml4

/-! ## What a call keeps and why it fails -/

/-- No page table is lost. -/
def Keeps (m m' : Machine) : Prop := ∀ vspace entry, entry ∈ (m.spaces vspace).tables → entry ∈ (m'.spaces vspace).tables

theorem Keeps.trans {m m' m'' : Machine} (first : Keeps m m') (second : Keeps m' m'') : Keeps m m'' :=
  fun vspace entry there => second vspace entry (first vspace entry there)

/-- A retype to another kind of object than a PML4, or no retype. -/
def NotPml4 (inv : Invocation) : Prop := inv.label = 1 → inv.mrs.getD 0 0 ≠ ObjectType.pml4.number

theorem tables_map {space space' : Space} {label : BitVec 32} {vaddr : Word} (mapped : space.map label vaddr = some space')
    {entry : Nat} (there : entry ∈ space.tables) : entry ∈ space'.tables := by
  rw [Space.map] at mapped
  split at mapped
  · cases mapped
    exact there
  split at mapped
  · split at mapped
    · cases mapped
      exact there
    · cases mapped
  split at mapped
  · split at mapped
    · cases mapped
      exact List.mem_cons_of_mem _ there
    · cases mapped
  · split at mapped
    · cases mapped
      exact there
    · cases mapped

theorem invoke_retype (m : Machine) {inv : Invocation} (isRetype : inv.label = 1) : (m.invoke K inv).1 = 0 := by
  rw [Machine.invoke,if_pos isRetype]
  split
  · rfl
  · rfl

theorem invoke_map (m : Machine) {inv : Invocation} (maps : Maps inv) :
    m.invoke K inv = match (m.spaces (inv.extraCaps.getD 0 0)).map inv.label (inv.mrs.getD 0 0) with
      | some space => (0,{ m with spaces := Function.update m.spaces (inv.extraCaps.getD 0 0) space })
      | none => (K.refusal inv,m) := by
  have notRetype : inv.label ≠ 1 := by
    intro isRetype
    rw [Maps,isRetype] at maps
    revert maps
    decide
  rw [Machine.invoke,if_neg notRetype,if_pos maps]

theorem keeps_invoke (m : Machine) {inv : Invocation} (notPml4 : NotPml4 inv) : Keeps m (m.invoke K inv).2 := by
  intro vspace entry there
  rw [Machine.invoke]
  by_cases isRetype : inv.label = 1
  · rw [if_pos isRetype,if_neg (notPml4 isRetype)]
    exact there
  · by_cases maps : Maps inv
    · rw [← Machine.invoke,invoke_map K m maps]
      cases mapped : (m.spaces (inv.extraCaps.getD 0 0)).map inv.label (inv.mrs.getD 0 0) with
      | none => exact there
      | some space =>
        dsimp only
        by_cases here : vspace = inv.extraCaps.getD 0 0
        · subst here
          rw [Function.update_self]
          exact tables_map mapped there
        · rw [Function.update_of_ne here]
          exact there
    · rw [if_neg isRetype,if_neg maps]
      exact there

/-- The reasons that the rules leave: no slot, no untyped memory, or a mapping that is refused. -/
def Denied.Expected : Denied → Prop
  | .noSlot | .noUntyped => True
  | .failed inv _ => Maps inv

theorem call_ok {m m' : Machine} {inv : Invocation} (called : call K m inv = .ok m') :
    (m.invoke K inv).1 = 0 ∧ m' = (m.invoke K inv).2 := by
  rw [call] at called
  dsimp only at called
  by_cases err : (m.invoke K inv).1 ≠ 0
  · rw [if_pos err] at called
    cases called
  · rw [if_neg err] at called
    cases called
    exact ⟨not_not.mp err,rfl⟩

theorem keeps_call {m m' : Machine} {inv : Invocation} (notPml4 : NotPml4 inv) (called : call K m inv = .ok m') :
    Keeps m m' := by
  rw [(call_ok K called).2]
  exact keeps_invoke K m notPml4

theorem blames_map (m : Machine) {inv : Invocation} (maps : Maps inv) : Blames (call K m inv) Denied.Expected := by
  rw [call]
  dsimp only
  split
  · exact blames_error maps
  · exact blames_ok

theorem blames_retypeInto (m : Machine) (kind : ObjectType) (slot : Word) :
    Blames (retypeInto K bi m kind slot) Denied.Expected := by
  rw [retypeInto]
  cases bi.findFreeUntyped (kind.sizeBits.setWidth 8) with
  | none => exact blames_error trivial
  | some found =>
    dsimp only
    rw [call]
    dsimp only
    rw [invoke_retype K m rfl,if_neg (not_not.mpr rfl)]
    exact blames_ok

theorem blames_allocSlot (m : Machine) : Blames (allocSlot m) Denied.Expected := by
  rw [allocSlot]
  split
  · exact blames_ok
  · exact blames_error trivial

theorem blames_create (m : Machine) (kind : ObjectType) : Blames (create K bi m kind) Denied.Expected :=
  blames_bind (blames_allocSlot m) fun taken _ => blames_bind (blames_retypeInto K bi taken.2 kind taken.1) fun _ _ => blames_ok

theorem blames_mapEach (kind : ObjectType) {map : Word → Word → Invocation} (maps : ∀ slot vaddr, Maps (map slot vaddr))
    (vaddrs : List Word) (m : Machine) : Blames (mapEach K bi kind map vaddrs m) Denied.Expected := by
  induction vaddrs generalizing m with
  | nil => exact blames_ok
  | cons vaddr rest ih =>
    refine blames_bind (blames_create K bi m kind) fun made _ => ?_
    exact blames_bind (blames_map K made.2 (maps made.1 vaddr)) fun m' _ => ih m'

theorem keeps_retypeInto {m m' : Machine} {kind : ObjectType} {slot : Word} (other : kind.number ≠ ObjectType.pml4.number)
    (retyped : retypeInto K bi m kind slot = .ok m') : Keeps m m' := by
  rw [retypeInto] at retyped
  cases found : bi.findFreeUntyped (kind.sizeBits.setWidth 8) with
  | none =>
    rw [found] at retyped
    cases retyped
  | some pair =>
    rw [found] at retyped
    obtain ⟨ut,bits⟩ := pair
    have plain : NotPml4 (untypedRetype ut kind.number kind.sizeBits CNODE CNODE 64 slot 1) := fun _ => other
    exact keeps_call K plain retyped

theorem keeps_allocSlot {m m' : Machine} {slot : Word} (taken : allocSlot m = .ok (slot,m')) : Keeps m m' := by
  rw [allocSlot] at taken
  split at taken
  · cases taken
    exact fun _ _ there => there
  · cases taken

theorem keeps_create {m m' : Machine} {kind : ObjectType} {slot : Word} (other : kind.number ≠ ObjectType.pml4.number)
    (made : create K bi m kind = .ok (slot,m')) : Keeps m m' := by
  obtain ⟨taken,isTaken,made⟩ := bind_ok_iff.mp made
  obtain ⟨after,retyped,made⟩ := bind_ok_iff.mp made
  cases made
  exact (keeps_allocSlot isTaken).trans (keeps_retypeInto K bi other retyped)

theorem keeps_mapEach {kind : ObjectType} {map : Word → Word → Invocation} (other : kind.number ≠ ObjectType.pml4.number)
    (maps : ∀ slot vaddr, (map slot vaddr).label ≠ 1) {vaddrs : List Word} {m m' : Machine}
    (mapped : mapEach K bi kind map vaddrs m = .ok m') : Keeps m m' := by
  induction vaddrs generalizing m with
  | nil =>
    cases mapped
    exact fun _ _ there => there
  | cons vaddr rest ih =>
    obtain ⟨⟨slot,after⟩,made,mapped⟩ := bind_ok_iff.mp mapped
    obtain ⟨next,called,mapped⟩ := bind_ok_iff.mp mapped
    have plain : NotPml4 (map slot vaddr) := fun isRetype => absurd isRetype (maps slot vaddr)
    exact ((keeps_create K bi other made).trans (keeps_call K plain called)).trans (ih mapped)

/-! ## The page table of the stack -/

/-- A frame is mapped only where a page table is. -/
theorem table_of_frameMap {m m' : Machine} {frame pml4 vaddr rights attr : Word}
    (called : call K m (frameMap frame pml4 vaddr rights attr) = .ok m') : entryAt 21 vaddr ∈ (m'.spaces pml4).tables := by
  have maps := maps_frameMap frame pml4 vaddr rights attr
  have plain : NotPml4 (frameMap frame pml4 vaddr rights attr) := fun isRetype =>
    absurd isRetype (show (41 : BitVec 32) ≠ 1 by decide)
  refine keeps_call K plain called pml4 _ ?_
  by_contra missing
  have refused : (m.spaces pml4).map 41 vaddr = none := by
    rw [Space.map,if_neg (by decide),if_neg (by decide),if_neg (by decide),if_neg fun both => missing both.1]
  have answer : m.invoke K (frameMap frame pml4 vaddr rights attr) = (K.refusal (frameMap frame pml4 vaddr rights attr),m) := by
    rw [invoke_map K m maps]
    change (match (m.spaces pml4).map 41 vaddr with
      | some space => _
      | none => _) = _
    rw [refused]
  have accepted := (call_ok K called).1
  rw [answer] at accepted
  exact K.refuses _ accepted

/-- A second page table is refused. -/
theorem pageTableMap_refused {m : Machine} {pt pml4 vaddr attr : Word} (taken : entryAt 21 vaddr ∈ (m.spaces pml4).tables) :
    Fails (call K m (pageTableMap pt pml4 vaddr attr)) Denied.Expected := by
  have maps := maps_pageTableMap pt pml4 vaddr attr
  have refused : (m.spaces pml4).map 37 vaddr = none := by
    rw [Space.map,if_neg (by decide),if_neg (by decide),if_pos rfl,if_neg fun both => both.2 taken]
  have answer : m.invoke K (pageTableMap pt pml4 vaddr attr) = (K.refusal (pageTableMap pt pml4 vaddr attr),m) := by
    rw [invoke_map K m maps]
    change (match (m.spaces pml4).map 37 vaddr with
      | some space => _
      | none => _) = _
    rw [refused]
  rw [call,answer]
  dsimp only
  rw [if_pos (K.refuses _)]
  exact ⟨_,rfl,maps⟩

/-- The space of a child has the page table of the stack. -/
theorem table_of_createChildVspace {m m' : Machine} {loaded : LoadedPages} {pml4 : Word}
    (created : createChildVspace K bi m loaded = .ok (pml4,m')) : entryAt 21 STACK_VADDR ∈ (m'.spaces pml4).tables := by
  obtain ⟨⟨slot,m₁⟩,_,created⟩ := bind_ok_iff.mp created
  obtain ⟨m₂,_,created⟩ := bind_ok_iff.mp created
  obtain ⟨m₃,_,created⟩ := bind_ok_iff.mp created
  obtain ⟨m₄,_,created⟩ := bind_ok_iff.mp created
  obtain ⟨m₅,stack,created⟩ := bind_ok_iff.mp created
  obtain ⟨m₆,tls,created⟩ := bind_ok_iff.mp created
  cases created
  have frames : ∀ frame vaddr : Word, (frameMap frame pml4 vaddr ALL_RIGHTS 0).label ≠ 1 := fun _ _ =>
    show (41 : BitVec 32) ≠ 1 by decide
  have isFrame : ObjectType.frame4k.number ≠ ObjectType.pml4.number := by decide
  refine keeps_mapEach K bi isFrame frames tls pml4 _ ?_
  -- The first page of the stack is mapped, and the others take no table away.
  obtain ⟨⟨frame,m₇⟩,_,stack⟩ := bind_ok_iff.mp stack
  obtain ⟨m₈,called,rest⟩ := bind_ok_iff.mp stack
  refine keeps_mapEach K bi isFrame frames rest pml4 _ ?_
  exact table_of_frameMap K called

theorem blames_createChildVspace (m : Machine) (loaded : LoadedPages) :
    Blames (createChildVspace K bi m loaded) Denied.Expected := by
  refine blames_bind (blames_create K bi m .pml4) fun made _ => ?_
  have pdpts := blames_mapEach K bi .pdpt fun slot vaddr => maps_pdptMap slot made.1 vaddr 0
  have directories := blames_mapEach K bi .pageDirectory fun slot vaddr => maps_pageDirectoryMap slot made.1 vaddr 0
  have tables := blames_mapEach K bi .pageTable fun slot vaddr => maps_pageTableMap slot made.1 vaddr 0
  have frames := blames_mapEach K bi .frame4k fun slot vaddr => maps_frameMap slot made.1 vaddr ALL_RIGHTS 0
  refine blames_bind (pdpts [0] made.2) fun m₂ _ => ?_
  refine blames_bind (directories _ m₂) fun m₃ _ => ?_
  refine blames_bind (tables _ m₃) fun m₄ _ => ?_
  refine blames_bind (frames stackPages _) fun m₅ _ => ?_
  exact blames_bind (frames [TLS_BASE] m₅) fun m₆ _ => blames_ok

theorem createChildTcb_stops {m : Machine} {pml4 : Word} (taken : entryAt 21 STACK_VADDR ∈ (m.spaces pml4).tables)
    (cnode : Word) : Fails (createChildTcb K bi m cnode pml4) Denied.Expected := by
  refine fails_bind (blames_allocSlot m) fun first isFirst => ?_
  refine fails_bind (blames_allocSlot first.2) fun second isSecond => ?_
  refine fails_bind (blames_allocSlot second.2) fun third isThird => ?_
  refine fails_bind (blames_retypeInto K bi third.2 .tcb first.1) fun m₁ isTcb => ?_
  refine fails_bind (blames_retypeInto K bi m₁ .endpoint second.1) fun m₂ isEndpoint => ?_
  have mapped : Fails (mapEach K bi .pageTable (fun slot vaddr => pageTableMap slot pml4 vaddr 0) [0xF00000] m₂)
      Denied.Expected := by
    refine fails_bind (blames_create K bi m₂ .pageTable) fun made isMade => ?_
    have kept : Keeps m made.2 :=
      ((((keeps_allocSlot isFirst).trans (keeps_allocSlot isSecond)).trans (keeps_allocSlot isThird)).trans
        ((keeps_retypeInto K bi (by decide) isTcb).trans (keeps_retypeInto K bi (by decide) isEndpoint))).trans
        (keeps_create K bi (by decide) isMade)
    -- 0xF00000 and the stack are in the same 2 MiB.
    have refused : Fails (call K made.2 (pageTableMap made.1 pml4 0xF00000 0)) Denied.Expected :=
      pageTableMap_refused K (kept pml4 _ taken)
    obtain ⟨denied,isDenied,expected⟩ := refused
    dsimp only
    rw [isDenied]
    exact ⟨denied,rfl,expected⟩
  obtain ⟨denied,isDenied,expected⟩ := mapped
  rw [isDenied]
  exact ⟨denied,rfl,expected⟩

/-- For every kernel that follows its mapping rules, and every set of loaded pages: the address space and the thread of a
    child are never both created. As long as there are slots and untyped memory, a mapping call is refused. -/
theorem create_child_stops (m : Machine) (cnode : Word) (loaded : LoadedPages) :
    ∃ denied, createChild K bi m cnode loaded = .error denied ∧
      (denied = .noSlot ∨ denied = .noUntyped ∨ ∃ inv err, denied = .failed inv err ∧ Maps inv) := by
  have stops : Fails (createChild K bi m cnode loaded) Denied.Expected :=
    fails_bind (blames_createChildVspace K bi m loaded) fun created isCreated =>
      createChildTcb_stops K bi (table_of_createChildVspace K bi isCreated) cnode
  obtain ⟨denied,isDenied,expected⟩ := stops
  refine ⟨denied,isDenied,?_⟩
  cases denied with
  | noSlot => exact .inl rfl
  | noUntyped => exact .inr (.inl rfl)
  | failed inv err => exact .inr (.inr ⟨inv,err,rfl,expected⟩)

/-! Plenty of slots and untyped memory, and two pages in the regions of the TLS page and of the stack. -/

def obliging : Answers := { refusal := fun _ => 8, refuses := fun _ => by decide, other := fun _ => 0 }

def roomy : BootInfo :=
  { empty := { start := 0x100, stop := 0x140 }, untypedStart := 0x50, untypedList := [{ sizeBits := 30, isDevice := 0 }] }

def beginning : Machine := { allocator := initializeAllocator roomy.empty ObjectAllocator.new, spaces := fun _ => Space.empty }

def twoPages : LoadedPages := { frames := [(0x600000,0x80),(0xE00000,0x81)], sorted := by decide }

/-- The address space is created, with the page tables that the loaded pages need; the page table for the IPC buffer is
    refused, because there is one. -/
theorem child_refused : ¬ ∀ (K : Answers) (bi : BootInfo) (m : Machine) (cnode : Word) (loaded : LoadedPages),
    (∀ inv, K.other inv = 0) → (bi.findFreeUntyped 12).isSome →
      15 + 2 * loaded.frames.length ≤ m.allocator.recycled.length → loaded.frames ≠ [] →
      (∀ frame ∈ loaded.frames, frame.1.toNat % PAGE_SIZE = 0 ∧ frame.1.toNat < 2 ^ 39 ∧ frame.1 ∉ stackPages ∧
        frame.1 ≠ TLS_BASE ∧ frame.1 ≠ IPC_BUF_VADDR) →
      ∃ child m', createChild K bi m cnode loaded = .ok (child,m') := by
  intro all
  have avoids : ∀ frame ∈ twoPages.frames, frame.1.toNat % PAGE_SIZE = 0 ∧ frame.1.toNat < 2 ^ 39 ∧ frame.1 ∉ stackPages ∧
      frame.1 ≠ TLS_BASE ∧ frame.1 ≠ IPC_BUF_VADDR := by
    intro frame member
    rcases List.mem_cons.mp member with rfl | second
    · decide
    · obtain rfl := List.mem_singleton.mp second
      decide
  obtain ⟨child,m',created⟩ :=
    all obliging roomy beginning 0x90 twoPages (fun _ => rfl) (by decide) (by decide +kernel) (List.cons_ne_nil _ _) avoids
  have stopped : (createChild obliging roomy beginning 0x90 twoPages).toOption.isSome = false := by decide +kernel
  rw [created] at stopped
  cases stopped

end Sel4Linux.ChildSpace
