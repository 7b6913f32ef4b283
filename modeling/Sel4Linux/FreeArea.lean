import Sel4Linux.FirstFit
import Sel4Linux.PageMaps

/-!
Where mmap places a region (`find_free_area`, `sys_mmap` and `sys_munmap` in
`lcl/src/task/mod.rs` and `lcl/src/syscall/mm.rs`). The search for a free area is
a first fit among the mapped pages. Its result is at or above the floor that it
was given only when no page with room behind it ends below (`floor_le_iff`). As
long as no address wraps around, the region is on pages that were not there
(`mmap_fresh_zero`), and `sys_munmap` undoes the call (`munmap_undoes_mmap`).
-/
namespace Sel4Linux.FreeArea
open Sel4Linux.Bytes Sel4Linux.TaskMem Sel4Linux.MemImage Sel4Linux.Task Sel4Linux.PageMaps Sel4Linux.FirstFit
open Sel4Linux.Overlay (toNat_advance_of_lt)
set_option linter.unusedSimpArgs false

/-- `last_addr + size <= *vaddr`. -/
def FitsBefore (size place vaddr : Word) : Prop := place + size ≤ vaddr

instance (size place vaddr : Word) : Decidable (FitsBefore size place vaddr) := inferInstanceAs (Decidable (_ ≤ _))

/-- `*vaddr + PAGE_SIZE`. -/
def pageEnd (vaddr : Word) : Word := vaddr + BitVec.ofNat 64 PAGE_SIZE

/-- `task_vm_end.max(start)`. -/
def floor (taskVmEnd start : Word) : Word := if start ≤ taskVmEnd then taskVmEnd else start

theorem freeAreaFrom_eq (size place : Word) (pages : List Word) :
    freeAreaFrom size place pages = firstFit (FitsBefore size) pageEnd place pages := by
  induction pages generalizing place with
  | nil => rfl
  | cons vaddr rest ih =>
    rw [freeAreaFrom,firstFit]
    exact if_congr Iff.rfl rfl (ih (pageEnd vaddr))

theorem floor_le (taskVmEnd start place : Word) : floor taskVmEnd start ≤ place ↔ taskVmEnd ≤ place ∧ start ≤ place := by
  rw [floor]
  split
  · next low => exact ⟨fun above => ⟨above,BitVec.le_trans low above⟩,fun both => both.1⟩
  · next high => exact ⟨fun above => ⟨BitVec.le_trans (BitVec.le_of_lt (BitVec.not_le.mp high)) above,above⟩,fun both => both.2⟩

/-- For every task state, start and size: the free area is at or above both the end of the program and the start
    exactly when these have the size free below every page, or the first page with the size free behind it ends at or
    above them. -/
theorem floor_le_iff (mem : TaskMemInfo) (taskVmEnd start size : Word) :
    (taskVmEnd ≤ mem.findFreeArea taskVmEnd start size ∧ start ≤ mem.findFreeArea taskVmEnd start size) ↔
      (∀ vaddr ∈ mem.pages, floor taskVmEnd start + size ≤ vaddr) ∨
        ∀ vaddr, FirstRoom (FitsBefore size) pageEnd mem.pages vaddr →
          taskVmEnd ≤ vaddr + BitVec.ofNat 64 PAGE_SIZE ∧ start ≤ vaddr + BitVec.ofNat 64 PAGE_SIZE := by
  have asymm (p q : Word) (below : p < q) : ¬ q < p := fun above => BitVec.lt_irrefl p (BitVec.lt_trans below above)
  have mono (p q r : Word) (fits : FitsBefore size p q) (below : q < r) : FitsBefore size p r :=
    BitVec.le_trans fits (BitVec.le_of_lt below)
  have total (p q : Word) : p < q ∨ p = q ∨ q < p := by
    rcases Nat.lt_trichotomy p.toNat q.toNat with below | same | above
    · exact .inl (BitVec.lt_def.mpr below)
    · exact .inr (.inl (BitVec.eq_of_toNat_eq same))
    · exact .inr (.inr (BitVec.lt_def.mpr above))
  have search : floor taskVmEnd start ≤ freeAreaFrom size (floor taskVmEnd start) mem.pages ↔
      (∀ vaddr ∈ mem.pages, FitsBefore size (floor taskVmEnd start) vaddr) ∨
        ∀ vaddr, FirstRoom (FitsBefore size) pageEnd mem.pages vaddr → floor taskVmEnd start ≤ pageEnd vaddr := by
    rw [freeAreaFrom_eq]
    exact firstFit_iff (P := fun place => floor taskVmEnd start ≤ place) asymm mono total (pages_sorted mem)
      (BitVec.le_refl (floor taskVmEnd start))
  simp only [floor_le] at search
  exact search

/-- With one page at 0x1000 the area is right behind it, below a start of 0x100000. -/
theorem free_area_below_floor : ¬ ∀ (mem : TaskMemInfo) (taskVmEnd start size : Word), 1 ≤ size.toNat →
    taskVmEnd ≤ mem.findFreeArea taskVmEnd start size ∧ start ≤ mem.findFreeArea taskVmEnd start size := by
  intro all
  have low := all (TaskMemInfo.default.mapBlankPageSimple 0x1000) 0 0x100000 0x1000 (by decide)
  revert low
  decide +kernel

/-! ## Regions of whole pages -/

/-- The number of pages of `length` bytes. -/
def pageCount (length : Word) : Nat := (length.toNat + (PAGE_SIZE - 1)) / PAGE_SIZE

/-- The page `i` of a region. -/
def pageOf (start : Word) (i : Nat) : Word := start + BitVec.ofNat 64 (i * PAGE_SIZE)

/-- The addresses of the pages of a region. -/
def region (start length : Word) : Set Nat := addresses start (pageCount length * PAGE_SIZE)

/-- No address of the search, and none of the region that it finds, wraps around. -/
def SearchFits (size : Word) : Word → List Word → Prop
  | place, [] => place.toNat + size.toNat ≤ 2 ^ 64
  | place, vaddr :: rest =>
    place.toNat + size.toNat < 2 ^ 64 ∧
      (place + size ≤ vaddr ∨ vaddr.toNat + PAGE_SIZE < 2 ^ 64 ∧ SearchFits size (pageEnd vaddr) rest)

/-- Nothing wraps around in a `sys_mmap` without an address. -/
structure MmapFits (task : Sel4Task) (length : Word) : Prop where
  rounded : length.toNat + (PAGE_SIZE - 1) < 2 ^ 64
  search : SearchFits (BitVec.ofNat 64 (pageCount length * PAGE_SIZE)) (floor task.taskVmEnd 0x100000) task.mem.pages

theorem toNat_pageEnd {vaddr : Word} (room : vaddr.toNat + PAGE_SIZE < 2 ^ 64) :
    (pageEnd vaddr).toNat = vaddr.toNat + PAGE_SIZE := by
  rw [pageEnd,toNat_advance_of_lt room]

/-- What is found is the start or right behind a page, ends within the address space, and is apart from every page. -/
structure Apart (size place found : Word) (pages : List Word) : Prop where
  origin : found = place ∨ ∃ vaddr ∈ pages, found.toNat = vaddr.toNat + PAGE_SIZE
  ends : found.toNat + size.toNat ≤ 2 ^ 64
  apart : ∀ vaddr ∈ pages, vaddr.toNat + PAGE_SIZE ≤ found.toNat ∨ found.toNat + size.toNat ≤ vaddr.toNat

theorem freeAreaFrom_apart {size place : Word} {pages : List Word} (sorted : pages.Pairwise (· < ·))
    (fits : SearchFits size place pages) : Apart size place (freeAreaFrom size place pages) pages := by
  induction pages generalizing place with
  | nil => exact ⟨.inl rfl,fits,fun vaddr member => by cases member⟩
  | cons vaddr rest ih =>
    obtain ⟨below,sortedRest⟩ := List.pairwise_cons.mp sorted
    obtain ⟨room,later⟩ := fits
    rw [freeAreaFrom]
    by_cases here : place + size ≤ vaddr
    · rw [if_pos here]
      have exact' : place.toNat + size.toNat ≤ vaddr.toNat := by
        rw [BitVec.le_def,BitVec.toNat_add_of_lt room] at here
        exact here
      refine ⟨.inl rfl,Nat.le_of_lt room,fun other member => .inr ?_⟩
      rcases List.mem_cons.mp member with same | inRest
      · rw [same]
        exact exact'
      · exact Nat.le_trans exact' (Nat.le_of_lt (below other inRest))
    · rw [if_neg here]
      obtain ⟨roomBehind,fitsBehind⟩ := later.resolve_left here
      obtain ⟨origin,ends,apart⟩ := ih sortedRest fitsBehind
      have fromPage : ∃ p ∈ vaddr :: rest,
          (freeAreaFrom size (pageEnd vaddr) rest).toNat = p.toNat + PAGE_SIZE ∧ vaddr.toNat ≤ p.toNat := by
        rcases origin with same | ⟨p,inRest,isEnd⟩
        · refine ⟨vaddr,List.mem_cons_self,?_,Nat.le_refl _⟩
          rw [same]
          exact toNat_pageEnd roomBehind
        · exact ⟨p,List.mem_cons_of_mem vaddr inRest,isEnd,Nat.le_of_lt (below p inRest)⟩
      obtain ⟨p,isPage,isEnd,above⟩ := fromPage
      refine ⟨.inr ⟨p,isPage,isEnd⟩,ends,fun other member => ?_⟩
      rcases List.mem_cons.mp member with same | inRest
      · left
        rw [same]
        exact Nat.le_trans (Nat.add_le_add_right above PAGE_SIZE) (Nat.le_of_eq isEnd.symm)
      · exact apart other inRest

theorem toNat_pageOf {start : Word} {n i : Nat} (ends : start.toNat + n * PAGE_SIZE ≤ 2 ^ 64) (inside : i < n) :
    (pageOf start i).toNat = start.toNat + i * PAGE_SIZE := by
  have below : (i + 1) * PAGE_SIZE ≤ n * PAGE_SIZE := Nat.mul_le_mul_right PAGE_SIZE inside
  have size : PAGE_SIZE = 4096 := rfl
  rw [Nat.add_mul,Nat.one_mul] at below
  rw [pageOf,toNat_advance_of_lt (by omega)]

theorem pageOf_aligned {start : Word} (aligned : start.toNat % PAGE_SIZE = 0) (i : Nat) :
    (pageOf start i).toNat % PAGE_SIZE = 0 := by
  rw [pageOf,BitVec.toNat_add,BitVec.toNat_ofNat]
  change start.toNat % 4096 = 0 at aligned
  change (start.toNat + i * 4096 % 2 ^ 64) % 2 ^ 64 % 4096 = 0
  omega

/-- The pages of a region at the beginning of a page. -/
theorem mem_regionPages_iff {start : Word} (aligned : start.toNat % PAGE_SIZE = 0) {n : Nat} (p : Word) :
    p ∈ ((List.range n).map (pageOf start)).map pageVaddr ↔ ∃ i < n, p = pageOf start i := by
  have own (i : Nat) : pageVaddr (pageOf start i) = pageOf start i := (pageVaddr_eq_iff _).mpr (pageOf_aligned aligned i)
  simp only [List.map_map,List.mem_map,List.mem_range,Function.comp_apply,own,eq_comm (a := p)]

/-- An address of a region is in one of its pages. -/
theorem page_of_mem_region {start length : Word} (aligned : start.toNat % PAGE_SIZE = 0)
    (ends : start.toNat + pageCount length * PAGE_SIZE ≤ 2 ^ 64) {a : Nat} (inside : a ∈ region start length) :
    ∃ i < pageCount length, (pageOf start i).toNat = a / PAGE_SIZE * PAGE_SIZE := by
  obtain ⟨above,below⟩ := inside
  generalize isCount : pageCount length = n at ends below ⊢
  change start.toNat % 4096 = 0 at aligned
  change a < start.toNat + n * 4096 at below
  have count : (a - start.toNat) / PAGE_SIZE < n := by
    change (a - start.toNat) / 4096 < n
    omega
  refine ⟨(a - start.toNat) / PAGE_SIZE,count,?_⟩
  rw [toNat_pageOf ends count]
  change start.toNat + (a - start.toNat) / 4096 * 4096 = a / 4096 * 4096
  omega

/-! ## mmap and munmap -/

/-- The address that `sys_mmap` finds for a region. -/
def mmapStart (task : Sel4Task) (length : Word) : Word :=
  task.mem.findFreeArea task.taskVmEnd 0x100000 (BitVec.ofNat 64 (pageCount length * PAGE_SIZE))

theorem sysMmap_eq (task : Sel4Task) {length : Word} (rounded : length.toNat + (PAGE_SIZE - 1) < 2 ^ 64) (prot : Word) :
    sysMmap task 0 length prot =
      (.ok (mmapStart task length),task.mapBlank ((List.range (pageCount length)).map (pageOf (mmapStart task length)))) := by
  have count : ((length + BitVec.ofNat 64 (PAGE_SIZE - 1)) / BitVec.ofNat 64 PAGE_SIZE).toNat = pageCount length := by
    rw [BitVec.toNat_udiv,toNat_advance_of_lt rounded]
    rfl
  have size : (length + BitVec.ofNat 64 (PAGE_SIZE - 1)) / BitVec.ofNat 64 PAGE_SIZE * BitVec.ofNat 64 PAGE_SIZE =
      BitVec.ofNat 64 (pageCount length * PAGE_SIZE) := by
    rw [← count,BitVec.ofNat_mul,BitVec.ofNat_toNat,BitVec.setWidth_eq]
  rw [sysMmap,if_pos rfl,count,size]
  rfl

/-- A place for a region: at a page, within the address space, on pages that are not there. -/
structure Placed (task : Sel4Task) (length r : Word) : Prop where
  aligned : r.toNat % PAGE_SIZE = 0
  ends : r.toNat + pageCount length * PAGE_SIZE ≤ 2 ^ 64
  fresh : ∀ i < pageCount length, task.mem.slotAt (pageOf r i) = none ∧ task.mem.pageAt (pageOf r i) = none

theorem mmap_placed {task : Sel4Task} {length : Word} (consistent : task.mem.Consistent)
    (vmEndAligned : task.taskVmEnd.toNat % PAGE_SIZE = 0) (fits : MmapFits task length) :
    Placed task length (mmapStart task length) := by
  obtain ⟨rounded,search⟩ := fits
  have size : (BitVec.ofNat 64 (pageCount length * PAGE_SIZE)).toNat = pageCount length * PAGE_SIZE := by
    rw [BitVec.toNat_ofNat,Nat.mod_eq_of_lt]
    exact Nat.lt_of_le_of_lt (Nat.div_mul_le_self _ PAGE_SIZE) rounded
  have found : Apart _ (floor task.taskVmEnd 0x100000) (mmapStart task length) task.mem.pages :=
    freeAreaFrom_apart (pages_sorted task.mem) search
  obtain ⟨origin,ends,apart⟩ := found
  rw [size] at ends apart
  have aligned : (mmapStart task length).toNat % PAGE_SIZE = 0 := by
    rcases origin with atFloor | ⟨p,isPage,behind⟩
    · rw [atFloor,floor]
      split
      · exact vmEndAligned
      · rfl
    · have pageAligned := consistent.aligned p (mem_pages_iff.mp isPage)
      rw [behind,Nat.add_mod_right,pageAligned]
  refine ⟨aligned,ends,fun i inside => ?_⟩
  have here := toNat_pageOf ends inside
  have below : (i + 1) * PAGE_SIZE ≤ pageCount length * PAGE_SIZE := Nat.mul_le_mul_right PAGE_SIZE inside
  rw [Nat.add_mul,Nat.one_mul] at below
  have absent : pageOf (mmapStart task length) i ∉ task.mem.pages := by
    intro isPage
    have size : PAGE_SIZE = 4096 := rfl
    rcases apart _ isPage with before | after
    · omega
    · omega
  rw [mem_pages_iff,mem_mappedPage_iff,Bool.not_eq_true,Option.isSome_eq_false_iff,Option.isNone_iff_eq_none] at absent
  refine ⟨absent,?_⟩
  have same := (consistent_iff.mp consistent (pageOf (mmapStart task length) i)).1
  rw [absent] at same
  exact Option.isNone_iff_eq_none.mp (Option.isSome_eq_false_iff.mp same.symm)

/-- The maps with a region in its place. -/
theorem maps_placed {task : Sel4Task} {length r : Word} (placed : Placed task length r) (p : Word) :
    ((∃ i < pageCount length, p = pageOf r i) →
      (task.mapBlank ((List.range (pageCount length)).map (pageOf r))).mem.slotAt p = some 0 ∧
        (task.mapBlank ((List.range (pageCount length)).map (pageOf r))).mem.pageAt p = some Page.zero) ∧
      ((¬ ∃ i < pageCount length, p = pageOf r i) →
        (task.mapBlank ((List.range (pageCount length)).map (pageOf r))).mem.slotAt p = task.mem.slotAt p ∧
          (task.mapBlank ((List.range (pageCount length)).map (pageOf r))).mem.pageAt p = task.mem.pageAt p) := by
  rw [Sel4Task.mapBlank]
  dsimp only
  rw [slotAt_mapBlankPages,pageAt_mapBlankPages]
  constructor
  · intro here
    have member := (mem_regionPages_iff placed.aligned p).mpr here
    obtain ⟨i,inside,rfl⟩ := here
    obtain ⟨noSlot,noPage⟩ := placed.fresh i inside
    rw [if_pos member,if_pos member,noSlot,noPage]
    exact ⟨rfl,rfl⟩
  · intro other
    have member : p ∉ ((List.range (pageCount length)).map (pageOf r)).map pageVaddr := fun inside =>
      other ((mem_regionPages_iff placed.aligned p).mp inside)
    rw [if_neg member,if_neg member]
    exact ⟨rfl,rfl⟩

/-- Every call without an address, where nothing wraps around, returns the beginning of pages that were not there and
    are zeros now; nothing else changes, and a second such call returns a region apart from the first. -/
theorem mmap_fresh_zero (task : Sel4Task) (consistent : task.mem.Consistent)
    (vmEndAligned : task.taskVmEnd.toNat % PAGE_SIZE = 0) (length prot : Word) (fits : MmapFits task length) :
    ∃ r task', sysMmap task 0 length prot = (.ok r,task') ∧ r.toNat % PAGE_SIZE = 0 ∧
      (∀ i < pageCount length, task.mem.slotAt (pageOf r i) = none ∧ task.mem.pageAt (pageOf r i) = none ∧
        task'.mem.slotAt (pageOf r i) = some 0 ∧ task'.mem.pageAt (pageOf r i) = some Page.zero) ∧
      (∀ p page, task.mem.pageAt p = some page → task'.mem.pageAt p = some page) ∧
      task'.heap = task.heap ∧ task'.taskVmEnd = task.taskVmEnd ∧ task'.entry = task.entry ∧
      ∀ length' prot' r' task'', MmapFits task' length' →
        sysMmap task' 0 length' prot' = (.ok r',task'') → ∀ a ∈ region r length, a ∉ region r' length' := by
  have placed := mmap_placed consistent vmEndAligned fits
  have kept := consistent_mapBlankPages consistent ((List.range (pageCount length)).map (pageOf (mmapStart task length)))
  have maps := maps_placed placed
  refine ⟨mmapStart task length,_,sysMmap_eq task fits.rounded prot,placed.aligned,?_,?_,rfl,rfl,rfl,?_⟩
  · intro i inside
    obtain ⟨noSlot,noPage⟩ := placed.fresh i inside
    obtain ⟨slot,page⟩ := (maps (pageOf (mmapStart task length) i)).1 ⟨i,inside,rfl⟩
    exact ⟨noSlot,noPage,slot,page⟩
  · intro p page there
    have other : ¬ ∃ i < pageCount length, p = pageOf (mmapStart task length) i := by
      rintro ⟨i,inside,rfl⟩
      rw [(placed.fresh i inside).2] at there
      cases there
    exact ((maps p).2 other).2.trans there
  · intro length' prot' r' task'' fits' call a inFirst inSecond
    have placed' : Placed _ length' (mmapStart (task.mapBlank _) length') := mmap_placed kept vmEndAligned fits'
    rw [sysMmap_eq _ fits'.rounded prot'] at call
    cases call
    obtain ⟨i,inside,isPage⟩ := page_of_mem_region placed.aligned placed.ends inFirst
    obtain ⟨j,inside',isPage'⟩ := page_of_mem_region placed'.aligned placed'.ends inSecond
    have same := BitVec.eq_of_toNat_eq (isPage.trans isPage'.symm)
    have mapped := ((maps _).1 ⟨i,inside,rfl⟩).1
    rw [same,(placed'.fresh j inside').1] at mapped
    cases mapped

/-- A task with one page at 0x400000, the end of its program behind it. -/
def onePage : Sel4Task := { (Sel4Task.new 1 1).mapBlank [0x400000] with taskVmEnd := 0x401000 }

private theorem onePage_consistent : onePage.mem.Consistent := consistent_mapBlankPages consistent_default [0x400000]

private theorem onePage_fits : MmapFits onePage 0x1234 := by
  refine ⟨by decide,?_⟩
  rw [show onePage.mem.pages = [0x400000] by decide +kernel]
  exact ⟨by decide,.inr ⟨by decide,Nat.le_of_lt (by decide)⟩⟩

/-- Two pages for 0x1234 bytes, behind the page that is there. -/
theorem mmap_fresh_zero_two_pages : onePage.mem.Consistent ∧ onePage.taskVmEnd.toNat % PAGE_SIZE = 0 ∧ MmapFits onePage 0x1234 ∧
    ∃ task', sysMmap onePage 0 0x1234 3 = (.ok 0x401000,task') ∧ task'.mem.pageAt 0x402000 = some Page.zero ∧
      task'.heap = onePage.heap := by
  obtain ⟨r,task',call,_,pages,_,heap,_⟩ :=
    mmap_fresh_zero onePage onePage_consistent (by decide) 0x1234 3 onePage_fits
  have start : (sysMmap onePage 0 0x1234 3).1 = .ok 0x401000 := by decide +kernel
  rw [call] at start
  cases start
  exact ⟨onePage_consistent,by decide,onePage_fits,task',call,(pages 1 (by decide)).2.2.2,heap⟩

theorem mem_pageRange_iff {start stop : Word} (p : Word) :
    p ∈ pageRange start stop ↔ ∃ i, i * PAGE_SIZE < stop.toNat - start.toNat ∧ p = pageOf start i := mem_pageRange_index

/-- A region that mmap has returned is removed without a trace, where nothing wraps around. -/
theorem munmap_undoes_mmap (task : Sel4Task) (consistent : task.mem.Consistent)
    (vmEndAligned : task.taskVmEnd.toNat % PAGE_SIZE = 0) (length prot : Word) (fits : MmapFits task length)
    {r : Word} {task' : Sel4Task} (returned : sysMmap task 0 length prot = (.ok r,task'))
    (unmapFits : r.toNat + length.toNat + (PAGE_SIZE - 1) < 2 ^ 64) :
    (sysMunmap task' r length).2.mem = task.mem := by
  have placed := mmap_placed consistent vmEndAligned fits
  rw [sysMmap_eq task fits.rounded prot] at returned
  cases returned
  have maps := maps_placed placed
  have first : pageVaddr (mmapStart task length) = mmapStart task length := (pageVaddr_eq_iff _).mpr placed.aligned
  have aligned : (mmapStart task length).toNat % 4096 = 0 := placed.aligned
  have stop : (pageVaddr (mmapStart task length + length + BitVec.ofNat 64 (PAGE_SIZE - 1))).toNat =
      (mmapStart task length).toNat + pageCount length * PAGE_SIZE := by
    have sum : (mmapStart task length + length).toNat = (mmapStart task length).toNat + length.toNat := by
      rw [BitVec.toNat_add_of_lt (by omega)]
    rw [toNat_pageVaddr,toNat_advance (by decide),sum,Nat.mod_eq_of_lt unmapFits]
    change (mmapStart task length).toNat + length.toNat + 4095 - ((mmapStart task length).toNat + length.toNat + 4095) % 4096 =
      (mmapStart task length).toNat + (length.toNat + 4095) / 4096 * 4096
    omega
  have removed (p : Word) : p ∈ pageRange (pageVaddr (mmapStart task length))
      (pageVaddr (mmapStart task length + length + BitVec.ofNat 64 (PAGE_SIZE - 1))) ↔
        ∃ i < pageCount length, p = pageOf (mmapStart task length) i := by
    rw [first,mem_pageRange_iff,stop]
    refine exists_congr fun i => and_congr_left fun _ => ?_
    change i * 4096 < (mmapStart task length).toNat + pageCount length * 4096 - (mmapStart task length).toNat ↔ _
    omega
  rw [sysMunmap]
  refine memory_ext (fun p => ?_) (fun p => ?_)
  · rw [slotAt_removePages]
    by_cases here : ∃ i < pageCount length, p = pageOf (mmapStart task length) i
    · rw [if_pos ((removed p).mpr here)]
      obtain ⟨i,inside,rfl⟩ := here
      exact (placed.fresh i inside).1.symm
    · rw [if_neg fun inside => here ((removed p).mp inside)]
      exact ((maps p).2 here).1
  · rw [pageAt_removePages]
    by_cases here : ∃ i < pageCount length, p = pageOf (mmapStart task length) i
    · rw [if_pos ((removed p).mpr here)]
      obtain ⟨i,inside,rfl⟩ := here
      exact (placed.fresh i inside).2.symm
    · rw [if_neg fun inside => here ((removed p).mp inside)]
      exact ((maps p).2 here).2

theorem munmap_undoes_mmap_two_pages : onePage.mem.Consistent ∧ onePage.taskVmEnd.toNat % PAGE_SIZE = 0 ∧
    MmapFits onePage 0x1234 ∧ (sysMmap onePage 0 0x1234 3).1 = .ok 0x401000 ∧
    (0x401000#64).toNat + (0x1234#64).toNat + (PAGE_SIZE - 1) < 2 ^ 64 ∧
    (sysMunmap (sysMmap onePage 0 0x1234 3).2 0x401000 0x1234).2.mem = onePage.mem := by
  have start : (sysMmap onePage 0 0x1234 3).1 = .ok 0x401000 := by decide +kernel
  exact ⟨onePage_consistent,by decide,onePage_fits,start,by decide,
    munmap_undoes_mmap onePage onePage_consistent (by decide) 0x1234 3 onePage_fits (Prod.ext start rfl) (by decide)⟩

end Sel4Linux.FreeArea
