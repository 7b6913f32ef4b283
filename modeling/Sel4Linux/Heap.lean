import Sel4Linux.FreeArea
import Sel4Linux.MemoryCalls

/-!
The heap and the regions of mmap (`sys_brk` and `sys_mmap` in `lcl/src/syscall/mm.rs`).
`sys_mmap` looks for pages that are not there, and so stays off the heap; `sys_brk`
takes any address for the end of the heap and maps what is missing. They stay apart
in every run where no new end lies below the heap or comes to a region (`heap_apart`).
-/
namespace Sel4Linux.Heap
open Sel4Linux.Bytes Sel4Linux.Ipc Sel4Linux.TaskMem Sel4Linux.MemImage Sel4Linux.Client Sel4Linux.Task Sel4Linux.PageMaps
open Sel4Linux.Runs Sel4Linux.Loader Sel4Linux.FreeArea Sel4Linux.MemoryCalls
open Sel4Linux.Overlay (toNat_advance_of_lt)
set_option linter.unusedSimpArgs false

inductive HeapCall where
  | sysBrk (newBrk : Word)
  | sysMmap (length prot : Word)

def heapStep (task : Sel4Task) : HeapCall → Except Fault (SysResult × Sel4Task)
  | .sysBrk newBrk => .ok (sysBrk task newBrk)
  | .sysMmap length prot => .ok (sysMmap task 0 length prot)

/-- A region that mmap has returned. -/
structure Region where
  start : Word
  length : Word

def noteRegion (_ : Sel4Task) (call : HeapCall) (result : SysResult) (_ : Sel4Task) (regions : List Region) : List Region :=
  match call, result with
  | .sysMmap length _, .ok start => { start := start, length := length } :: regions
  | _, _ => regions

/-- A call, with the regions returned so far. -/
def heapRound : Sel4Task × List Region → HeapCall → Except Fault (SysResult × (Sel4Task × List Region)) :=
  recorded heapStep noteRegion

/-- The addresses of the heap. -/
def heapRange (task : Sel4Task) : Set Nat := Set.Ico DEF_HEAP_ADDR.toNat task.heap.toNat

/-- The heap has not shrunk below its beginning, and has no address of a page of a region. -/
structure HeapApart (s : Sel4Task × List Region) : Prop where
  above : DEF_HEAP_ADDR.toNat ≤ s.1.heap.toNat
  apart : ∀ r ∈ s.2, ∀ a ∈ heapRange s.1, a ∉ region r.start r.length

/-- A new end of the heap is not below its beginning and can be rounded up, and the heap does not grow over an address
    of a region; in a call of mmap nothing wraps around. -/
def StaysClear (s : Sel4Task × List Region) : HeapCall → Prop
  | .sysBrk newBrk => newBrk = 0 ∨ (DEF_HEAP_ADDR.toNat ≤ newBrk.toNat ∧ newBrk.toNat + (PAGE_SIZE - 1) < 2 ^ 64 ∧
      ∀ r ∈ s.2, ∀ a ∈ region r.start r.length, a < s.1.heap.toNat ∨ newBrk.toNat ≤ a)
  | .sysMmap length _ => MmapFits s.1 length

/-! ## Pages of the heap -/

/-- Every page of the heap is there, and so can be told from a free one. -/
structure HeapMapped (task : Sel4Task) : Prop where
  consistent : task.mem.Consistent
  vmEndAligned : task.taskVmEnd.toNat % PAGE_SIZE = 0
  room : task.heap.toNat + (PAGE_SIZE - 1) < 2 ^ 64
  mapped : ∀ a : Word, a.toNat ∈ heapRange task → (task.mem.slotAt (pageVaddr a)).isSome = true

/-- The page of every address from `start` to before `stop` is in the range that `stop` is rounded up for. -/
theorem pageVaddr_mem_pageRange {start stop a : Word} (room : stop.toNat + (PAGE_SIZE - 1) < 2 ^ 64)
    (above : start.toNat ≤ a.toNat) (below : a.toNat < stop.toNat) :
    pageVaddr a ∈ (pageRange (pageVaddr start) (pageVaddr (stop + BitVec.ofNat 64 (PAGE_SIZE - 1)))).map pageVaddr := by
  have size : PAGE_SIZE = 4096 := rfl
  have last : (pageVaddr (stop + BitVec.ofNat 64 (PAGE_SIZE - 1))).toNat = stop.toNat + 4095 - (stop.toNat + 4095) % 4096 := by
    rw [toNat_pageVaddr,toNat_advance_of_lt room]
    rfl
  have first : (pageVaddr start).toNat = start.toNat - start.toNat % 4096 := toNat_pageVaddr start
  have own : (pageVaddr a).toNat = a.toNat - a.toNat % 4096 := toNat_pageVaddr a
  have bound := a.isLt
  refine List.mem_map.mpr ⟨pageVaddr a,?_,pageVaddr_pageVaddr a⟩
  rw [mem_pageRange_iff]
  refine ⟨a.toNat / 4096 - start.toNat / 4096,?_,?_⟩
  · rw [last,first,size]
    omega
  · apply BitVec.eq_of_toNat_eq
    rw [pageOf,size,toNat_advance_of_lt (by omega),own,first]
    omega

theorem isSome_mapBlank {task : Sel4Task} (pages : List Word) {p : Word}
    (there : (task.mem.slotAt p).isSome = true ∨ p ∈ pages.map pageVaddr) :
    ((task.mapBlank pages).mem.slotAt p).isSome = true := by
  rw [Sel4Task.mapBlank]
  dsimp only
  rw [slotAt_mapBlankPages]
  by_cases added : p ∈ pages.map pageVaddr
  · rw [if_pos added]
    rfl
  · rw [if_neg added]
    exact there.resolve_right added

theorem sysBrk_sets {task : Sel4Task} {newBrk : Word} (set : newBrk ≠ 0) :
    (sysBrk task newBrk).2.heap = newBrk ∧ (sysBrk task newBrk).2.taskVmEnd = task.taskVmEnd := by
  rw [sysBrk,if_neg set]
  dsimp only
  split
  · exact ⟨rfl,rfl⟩
  · exact ⟨rfl,rfl⟩

theorem heapMapped_sysBrk {task : Sel4Task} (kept : HeapMapped task) {newBrk : Word} (set : newBrk ≠ 0)
    (room : newBrk.toNat + (PAGE_SIZE - 1) < 2 ^ 64) : HeapMapped (sysBrk task newBrk).2 := by
  obtain ⟨isHeap,isVmEnd⟩ := sysBrk_sets set
  refine ⟨consistent_sysBrk kept.consistent newBrk,by rw [isVmEnd]; exact kept.vmEndAligned,by rw [isHeap]; exact room,?_⟩
  rintro a ⟨above,below⟩
  rw [isHeap] at below
  rw [sysBrk,if_neg set]
  dsimp only
  by_cases grows : task.heap < newBrk
  · rw [if_pos grows]
    refine isSome_mapBlank _ ?_
    rcases Nat.lt_or_ge a.toNat task.heap.toNat with old | new
    · exact .inl (kept.mapped a ⟨above,old⟩)
    · exact .inr (pageVaddr_mem_pageRange room new below)
  · rw [if_neg grows]
    have notLess : newBrk.toNat ≤ task.heap.toNat := Nat.le_of_not_lt fun less => grows (BitVec.lt_def.mpr less)
    exact kept.mapped a ⟨above,Nat.lt_of_lt_of_le below notLess⟩

theorem heapMapped_sysMmap {task : Sel4Task} (kept : HeapMapped task) (length prot : Word) :
    HeapMapped (sysMmap task 0 length prot).2 :=
  ⟨consistent_sysMmap kept.consistent 0 length prot,kept.vmEndAligned,kept.room,
    fun a inHeap => isSome_mapBlank _ (.inl (kept.mapped a inHeap))⟩

/-- A region that mmap finds has no address of the heap. -/
theorem mmap_off_heap {task : Sel4Task} (kept : HeapMapped task) {length : Word} (fits : MmapFits task length) {a : Nat}
    (inHeap : a ∈ heapRange task) : a ∉ region (mmapStart task length) length := by
  intro inRegion
  have placed := mmap_placed kept.consistent kept.vmEndAligned fits
  obtain ⟨i,inside,isPage⟩ := page_of_mem_region placed.aligned placed.ends inRegion
  have short : a < 2 ^ 64 := Nat.lt_trans inHeap.2 task.heap.isLt
  have isAddr : (BitVec.ofNat 64 a).toNat = a := (BitVec.toNat_ofNat a 64).trans (Nat.mod_eq_of_lt short)
  have same : pageVaddr (BitVec.ofNat 64 a) = pageOf (mmapStart task length) i := by
    apply BitVec.eq_of_toNat_eq
    rw [isPage,toNat_pageVaddr,isAddr]
    change a - a % 4096 = a / 4096 * 4096
    omega
  have mapped := kept.mapped (BitVec.ofNat 64 a) (by rw [isAddr]; exact inHeap)
  rw [same,(placed.fresh i inside).1] at mapped
  cases mapped

/-! ## Whole runs -/

theorem brk_step {task : Sel4Task} {regions : List Region} {newBrk : Word} (kept : HeapMapped task)
    (apart : HeapApart (task,regions)) (clear : StaysClear (task,regions) (.sysBrk newBrk)) :
    HeapMapped (sysBrk task newBrk).2 ∧ HeapApart ((sysBrk task newBrk).2,regions) := by
  by_cases set : newBrk = 0
  · rw [sysBrk,if_pos set]
    exact ⟨kept,apart⟩
  · obtain ⟨notBelow,room,grown⟩ := clear.resolve_left set
    have isHeap : (sysBrk task newBrk).2.heap = newBrk := (sysBrk_sets set).1
    refine ⟨heapMapped_sysBrk kept set room,by rw [isHeap]; exact notBelow,?_⟩
    rintro r member a ⟨fromBase,below⟩ inRegion
    rw [isHeap] at below
    rcases grown r member a inRegion with old | beyond
    · exact apart.apart r member a ⟨fromBase,old⟩ inRegion
    · omega

theorem mmap_step {task : Sel4Task} {regions : List Region} {length : Word} (kept : HeapMapped task)
    (apart : HeapApart (task,regions)) (fits : MmapFits task length) (prot : Word) :
    HeapMapped (sysMmap task 0 length prot).2 ∧
      HeapApart ((sysMmap task 0 length prot).2,{ start := mmapStart task length, length := length } :: regions) := by
  refine ⟨heapMapped_sysMmap kept length prot,apart.above,fun r member a inHeap => ?_⟩
  rcases List.mem_cons.mp member with rfl | earlier
  · exact mmap_off_heap kept fits inHeap
  · exact apart.apart r earlier a inHeap

theorem heap_step {s s' : Sel4Task × List Region} {call : HeapCall} {result : SysResult}
    (kept : HeapMapped s.1 ∧ HeapApart s) (clear : StaysClear s call) (step : heapRound s call = .ok (result,s')) :
    HeapMapped s'.1 ∧ HeapApart s' := by
  obtain ⟨task,regions⟩ := s
  obtain ⟨task',regions'⟩ := s'
  obtain ⟨called,rfl⟩ := recorded_ok_iff.mp step
  cases call with
  | sysBrk newBrk =>
    have isTask : (sysBrk task newBrk).2 = task' := congrArg Prod.snd (Except.ok.inj called)
    subst isTask
    exact brk_step kept.1 kept.2 clear
  | sysMmap length prot =>
    have both : sysMmap task 0 length prot = (result,task') := Except.ok.inj called
    have isTask : (sysMmap task 0 length prot).2 = task' := congrArg Prod.snd both
    have fits : MmapFits task length := clear
    rw [sysMmap_eq task fits.rounded prot] at both
    have isStart : result = .ok (mmapStart task length) := (congrArg Prod.fst both).symm
    subst isStart
    subst isTask
    exact mmap_step kept.1 kept.2 fits prot

/-- What `load_elf` leaves: no heap yet, and the end of the program at the end of a page. -/
theorem heapMapped_loadElf {tid tcb : Word} {data : List Byte} {entry : Word} {task : Sel4Task}
    (loaded : loadElf release (Sel4Task.new tid tcb) data = .ok (some entry,task)) :
    HeapMapped task ∧ task.heap = DEF_HEAP_ADDR := by
  have fresh : (Sel4Task.new tid tcb).mem.Consistent := consistent_default
  have consistent := consistent_loadElf fresh loaded
  rw [loadElf] at loaded
  split at loaded
  · cases loaded
  · obtain ⟨h,_,loaded⟩ := bind_ok_iff.mp loaded
    obtain ⟨loads,_,loaded⟩ := bind_ok_iff.mp loaded
    obtain ⟨past,_,loaded⟩ := bind_ok_iff.mp loaded
    cases loaded
    refine ⟨⟨consistent,pageVaddr_aligned (past - 1),by change DEF_HEAP_ADDR.toNat + _ < _; decide,?_⟩,rfl⟩
    rintro a ⟨above,below⟩
    exact absurd above (Nat.not_le_of_lt below)

/-- For every program and every sequence of the two calls on its task: if each call stays clear of the regions returned
    before it, and wraps nothing around, the heap stays above its beginning and apart from every region returned. -/
theorem heap_apart {tid tcb : Word} {data : List Byte} {entry : Word} {task : Sel4Task}
    (loaded : loadElf release (Sel4Task.new tid tcb) data = .ok (some entry,task)) (calls : List HeapCall)
    (clear : Always heapRound (fun s call _ _ => StaysClear s call) (task,[]) calls) :
    HeapApart (task,[]) ∧ Always heapRound (fun _ _ _ s' => HeapApart s') (task,[]) calls := by
  obtain ⟨kept,isHeap⟩ := heapMapped_loadElf loaded
  have start : HeapApart (task,[]) := by
    refine ⟨?_,fun r member => by cases member⟩
    rw [isHeap]
  refine ⟨start,always_of_always (I := fun s => HeapMapped s.1 ∧ HeapApart s) ?_ ⟨kept,start⟩ clear⟩
  intro s call result s' inv clear step
  have next := heap_step inv clear step
  exact ⟨next.2,next⟩

/-- A program with a page at 0x6FFFF000, right below the heap. -/
def belowHeap : List Byte :=
  [0x7F,0x45,0x4C,0x46,2,1,1,0] ++ List.replicate 16 0 ++ leBytes 0x6FFFF000 ++ leBytes 64 ++ List.replicate 14 0 ++
    [56,0,1,0] ++ List.replicate 6 0 ++ [1,0,0,0,5,0,0,0] ++ leBytes 120 ++ leBytes 0x6FFFF000 ++ leBytes 0x6FFFF000 ++
    leBytes 0 ++ leBytes 0x1000 ++ leBytes 0x1000

/-- A heap of one page, and a region of two pages behind it. -/
theorem heap_apart_behind : ∃ task, loadElf release (Sel4Task.new 1 1) belowHeap = .ok (some 0x6FFFF000,task) ∧
    Always heapRound (fun s call _ _ => StaysClear s call) (task,[]) [.sysBrk 0x70001000,.sysMmap 0x1234 3] ∧
    Always heapRound (fun _ _ _ s' => HeapApart s') (task,[]) [.sysBrk 0x70001000,.sysMmap 0x1234 3] := by
  obtain ⟨task,loaded⟩ := exists_loaded (Sel4Task.new 1 1) belowHeap 0x6FFFF000 (by decide +kernel)
  have layout : (loadElf release (Sel4Task.new 1 1) belowHeap).toOption.map (fun r =>
      (r.2.taskVmEnd,(sysBrk r.2 0x70001000).2.mem.pages)) = some (0x70000000,[0x6FFFF000,0x70000000]) := by decide +kernel
  rw [loaded] at layout
  obtain ⟨isVmEnd,isPages⟩ := Prod.mk.inj (Option.some.inj layout)
  have kept : (sysBrk task 0x70001000).2.taskVmEnd = task.taskVmEnd := (sysBrk_sets (by decide)).2
  have clear : Always heapRound (fun s call _ _ => StaysClear s call) (task,[]) [.sysBrk 0x70001000,.sysMmap 0x1234 3] := by
    rintro _ ⟨grown,regions⟩ first
    obtain ⟨called,rfl⟩ := recorded_ok_iff.mp first
    obtain rfl : (sysBrk task 0x70001000).2 = grown := congrArg Prod.snd (Except.ok.inj called)
    refine ⟨.inr ⟨by decide,by decide,fun r member => by cases member⟩,fun _ _ _ => ⟨⟨by decide,?_⟩,trivial⟩⟩
    dsimp only
    rw [kept,isVmEnd,isPages]
    exact ⟨by decide,.inr ⟨by decide,by decide,.inr ⟨by decide,Nat.le_of_lt (by decide)⟩⟩⟩
  exact ⟨task,loaded,clear,(heap_apart loaded _ clear).2⟩

/-- The page that mmap finds for this program is the first one of the heap, which grows over it afterwards. -/
theorem heap_over_region : ¬ ∀ (tid tcb : Word) (data : List Byte) (entry : Word) (task : Sel4Task),
    loadElf release (Sel4Task.new tid tcb) data = .ok (some entry,task) → ∀ calls : List HeapCall,
      HeapApart (task,[]) ∧ Always heapRound (fun _ _ _ s' => HeapApart s') (task,[]) calls := by
  intro all
  obtain ⟨task,loaded⟩ := exists_loaded (Sel4Task.new 1 1) belowHeap 0x6FFFF000 (by decide +kernel)
  have found : (loadElf release (Sel4Task.new 1 1) belowHeap).toOption.map (fun r => (sysMmap r.2 0 0x1000 3).1) =
      some (.ok 0x70000000) := by decide +kernel
  rw [loaded] at found
  have isRegion : (sysMmap task 0 0x1000 3).1 = .ok 0x70000000 := Option.some.inj found
  obtain ⟨mapped,isMapped⟩ : ∃ mapped, sysMmap task 0 0x1000 3 = (.ok 0x70000000,mapped) := ⟨_,Prod.ext isRegion rfl⟩
  have isHeap : (sysBrk mapped 0x70001000).2.heap = 0x70001000 := (sysBrk_sets (by decide)).1
  have always := (all 1 1 belowHeap 0x6FFFF000 task loaded [.sysMmap 0x1000 3,.sysBrk 0x70001000]).2
  obtain ⟨_,always⟩ := always (.ok 0x70000000) (mapped,[⟨0x70000000,0x1000⟩])
    (recorded_ok_iff.mpr ⟨congrArg Except.ok isMapped,rfl⟩)
  obtain ⟨apart,_⟩ := always (sysBrk mapped 0x70001000).1 ((sysBrk mapped 0x70001000).2,[⟨0x70000000,0x1000⟩])
    (recorded_ok_iff.mpr ⟨rfl,rfl⟩)
  refine apart.apart ⟨0x70000000,0x1000⟩ List.mem_cons_self 0x70000000 ⟨by decide,?_⟩ ⟨by decide,by decide⟩
  rw [isHeap]
  decide

end Sel4Linux.Heap
