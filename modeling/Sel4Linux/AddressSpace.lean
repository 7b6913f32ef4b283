import Sel4Linux.FlatSpace
import Sel4Linux.FreeArea
import Sel4Linux.HeapBytes
import Sel4Linux.MemoryCalls
import Sel4Linux.Refinement

/-!
The memory of the tasks as flat memories. Whatever calls the tasks make and in
whichever order, each task has a memory of its own in which a byte is at an
address or is not. Pages are added blank, a write puts its bytes in place, and
only a write over a byte or an `munmap` of its page, by the task itself, changes
it (`memory_refined`).
-/
namespace Sel4Linux.AddressSpace
open Sel4Linux.Bytes Sel4Linux.TaskMem Sel4Linux.Task Sel4Linux.Syscalls Sel4Linux.Exception Sel4Linux.Runs
open Sel4Linux.MemImage Sel4Linux.PageMaps Sel4Linux.FreeArea Sel4Linux.MemoryCalls Sel4Linux.FlatSpace Sel4Linux.Refinement
open Sel4Linux.Overlay (toNat_advance_of_lt)
open Sel4Linux.HeapBytes (byteOf_mapBlank)
set_option linter.unusedSimpArgs false

/-! ## The flat memory of a task -/

structure TaskSpace where
  bytes : Space Byte
  heap : Nat

def TaskSpace.back (s : TaskSpace) (lo hi : Nat) : TaskSpace := { s with bytes := FlatSpace.back PAGE_SIZE 0 s.bytes lo hi }

/-- The bytes of the pages of `length` bytes. -/
def paged (length : Word) : Nat := pageCount length * PAGE_SIZE

/-- What a call may do. A region without an address is anywhere where nothing is. -/
inductive Allowed : TaskSpace → MemCall → MemResult → TaskSpace → Prop
  | mapBlankPageSimple (s vaddr) : Allowed s (.mapBlankPageSimple vaddr) (.value (some 0)) (s.back vaddr.toNat (vaddr.toNat + 1))
  | writeBytes (s addr data) :
    Allowed s (.writeBytes addr data) (.written true) { s with bytes := put PAGE_SIZE 0 s.bytes addr.toNat data }
  | heapEnd (s end') (here : end'.toNat = s.heap) : Allowed s (.sysBrk 0) (.syscall (.ok end')) s
  | sysBrk (s newBrk) (some' : newBrk ≠ 0) : Allowed s (.sysBrk newBrk) (.syscall (.ok newBrk))
      { (if s.heap < newBrk.toNat then s.back s.heap newBrk.toNat else s) with heap := newBrk.toNat }
  | sysMmap (s length prot) (r : Word) (aligned : r.toNat % PAGE_SIZE = 0) (ends : r.toNat + paged length ≤ 2 ^ 64)
      (free : ∀ a, r.toNat ≤ a → a < r.toNat + paged length → s.bytes a = none) :
    Allowed s (.sysMmap 0 length prot) (.syscall (.ok r)) (s.back r.toNat (r.toNat + paged length))
  | sysMmapAt (s addr length prot) (some' : addr ≠ 0) : Allowed s (.sysMmap addr length prot) (.syscall (.ok (pageVaddr addr)))
      (s.back (pageVaddr addr).toNat ((pageVaddr addr).toNat + paged length))
  | sysMunmap (s addr length) : Allowed s (.sysMunmap addr length) (.syscall (.ok 0))
      { s with bytes := drop PAGE_SIZE s.bytes addr.toNat (addr.toNat + length.toNat) }
  | handleVmfault (s addr h) : Allowed s (.handleVmfault addr) (.handled h) (s.back addr.toNat (addr.toNat + 1))

/-- The memories of all tasks. -/
abbrev Spaces := Word → Option TaskSpace

/-- A call changes the memory of its own task, if there is one. -/
inductive SystemAllowed : Spaces → Word × MemCall → MemResult → Spaces → Prop
  | absent {S tid call result} (none' : S tid = none) : SystemAllowed S (tid,call) result S
  | made {S tid call result s s'} (here : S tid = some s) (allowed : Allowed s call result s') :
    SystemAllowed S (tid,call) result fun other => if other = tid then some s' else S other

/-- The calls that change a byte which is there. -/
def Changes : MemCall → Nat → Prop
  | .writeBytes addr data, a => addr.toNat ≤ a ∧ a < addr.toNat + data.length
  | .sysMunmap addr length, a => Covers PAGE_SIZE addr.toNat (addr.toNat + length.toNat) a
  | _, _ => False

theorem TaskSpace.back_kept {s : TaskSpace} {lo hi a : Nat} {b : Byte} (there : s.bytes a = some b) :
    (s.back lo hi).bytes a = some b := FlatSpace.back_kept there

theorem Allowed.keeps {s s' : TaskSpace} {call : MemCall} {result : MemResult} (allowed : Allowed s call result s') {a : Nat}
    {b : Byte} (there : s.bytes a = some b) (unchanged : ¬ Changes call a) : s'.bytes a = some b := by
  cases allowed with
  | mapBlankPageSimple vaddr => exact TaskSpace.back_kept there
  | writeBytes addr data => exact put_kept there unchanged
  | heapEnd end' here => exact there
  | sysBrk newBrk some' =>
    dsimp only
    split
    · exact TaskSpace.back_kept there
    · exact there
  | sysMmap length prot r aligned ends free => exact TaskSpace.back_kept there
  | sysMmapAt addr length prot some' => exact TaskSpace.back_kept there
  | sysMunmap addr length => exact (drop_kept unchanged).trans there
  | handleVmfault addr h => exact TaskSpace.back_kept there

/-! ## Pages -/

/-- The pages of a range, by number. -/
theorem covers_iff {start : Word} (aligned : start.toNat % PAGE_SIZE = 0) {n : Nat} (ends : start.toNat + n * PAGE_SIZE ≤ 2 ^ 64)
    (a : Word) :
    pageVaddr a ∈ (List.range n).map (pageOf start) ↔ Covers PAGE_SIZE start.toNat (start.toNat + n * PAGE_SIZE) a.toNat := by
  have page := toNat_pageVaddr a
  have size : PAGE_SIZE = 4096 := rfl
  unfold Covers
  rw [size] at aligned ends page ⊢
  constructor
  · intro member
    obtain ⟨i,inside,isPage⟩ := List.mem_map.mp member
    have low := List.mem_range.mp inside
    have place := congrArg BitVec.toNat isPage
    rw [toNat_pageOf ends low,size] at place
    omega
  · rintro ⟨above,below⟩
    refine List.mem_map.mpr ⟨a.toNat / 4096 - start.toNat / 4096,List.mem_range.mpr (by omega),?_⟩
    apply BitVec.eq_of_toNat_eq
    rw [toNat_pageOf ends (by omega),size]
    omega

/-- A range of pages from the one of `lo` to the end of the one before `hi`. -/
theorem covers_range_iff {lo hi stop : Word} (isStop : stop.toNat = (hi.toNat + 4095) / 4096 * 4096) (a : Word) :
    pageVaddr a ∈ pageRange (pageVaddr lo) stop ↔ Covers PAGE_SIZE lo.toNat hi.toNat a.toNat := by
  have start := toNat_pageVaddr lo
  have bound := stop.isLt
  have size : PAGE_SIZE = 4096 := rfl
  have aligned : (pageVaddr lo).toNat % PAGE_SIZE = 0 := pageVaddr_aligned lo
  rw [size] at start aligned
  by_cases forward : (pageVaddr lo).toNat ≤ stop.toNat
  · have covered := @covers_iff (pageVaddr lo) aligned ((stop.toNat - (pageVaddr lo).toNat + 4095) / 4096) (by rw [size]; omega) a
    refine covered.trans ?_
    unfold Covers
    rw [size]
    omega
  · have empty : pageRange (pageVaddr lo) stop = [] := by
      have none' : (stop.toNat - (pageVaddr lo).toNat + (PAGE_SIZE - 1)) / PAGE_SIZE = 0 := by
        rw [size]
        omega
      rw [pageRange,none']
      rfl
    rw [empty]
    refine iff_of_false List.not_mem_nil ?_
    unfold Covers
    rw [size]
    omega

theorem toNat_roundUp {hi : Word} (room : hi.toNat + 4095 < 2 ^ 64) :
    (pageVaddr (hi + BitVec.ofNat 64 (PAGE_SIZE - 1))).toNat = (hi.toNat + 4095) / 4096 * 4096 := by
  have sum : (hi + BitVec.ofNat 64 (PAGE_SIZE - 1)).toNat = hi.toNat + 4095 := toNat_advance_of_lt room
  rw [toNat_pageVaddr,sum]
  change hi.toNat + 4095 - (hi.toNat + 4095) % 4096 = _
  omega

/-! ## Tasks and their memories -/

/-- A task has the bytes of a flat memory, in pages that are in order. -/
structure Shows (task : Sel4Task) (s : TaskSpace) : Prop where
  bytes : ∀ a : Word, byteOf task.mem a = s.bytes a.toNat
  heap : task.heap.toNat = s.heap
  consistent : task.mem.Consistent
  vmEnd : task.taskVmEnd.toNat % PAGE_SIZE = 0

/-- Nothing wraps around in a call. -/
def Fits (task : Sel4Task) : MemCall → Prop
  | .writeBytes addr data => addr.toNat + data.length ≤ 2 ^ 64
  | .sysBrk newBrk => newBrk.toNat + (PAGE_SIZE - 1) < 2 ^ 64
  | .sysMmap addr length _ =>
    if addr = 0 then MmapFits task length
    else length.toNat + (PAGE_SIZE - 1) < 2 ^ 64 ∧ (pageVaddr addr).toNat + paged length ≤ 2 ^ 64
  | .sysMunmap addr length => addr.toNat + length.toNat + (PAGE_SIZE - 1) < 2 ^ 64
  | .loadElf _ => False
  | _ => True

variable {task : Sel4Task} {s : TaskSpace}

theorem shows_mapBlank (shows' : Shows task s) {pages : List Word} {lo hi : Nat}
    (covered : ∀ a : Word, pageVaddr a ∈ pages.map pageVaddr ↔ Covers PAGE_SIZE lo hi a.toNat) :
    Shows (task.mapBlank pages) (s.back lo hi) := by
  refine ⟨fun a => ?_,shows'.heap,consistent_mapBlankPages shows'.consistent pages,shows'.vmEnd⟩
  rw [byteOf_mapBlank,shows'.bytes a]
  exact if_congr (covered a) rfl rfl

/-- One page. -/
theorem covers_one (vaddr a : Word) :
    pageVaddr a ∈ [vaddr].map pageVaddr ↔ Covers PAGE_SIZE vaddr.toNat (vaddr.toNat + 1) a.toNat := by
  have size : PAGE_SIZE = 4096 := rfl
  rw [List.map_singleton,List.mem_singleton,same_page_iff]
  unfold Covers
  rw [size]
  omega

theorem map_pageVaddr {start : Word} (aligned : start.toNat % PAGE_SIZE = 0) (n : Nat) :
    ((List.range n).map (pageOf start)).map pageVaddr = (List.range n).map (pageOf start) := by
  rw [List.map_map]
  exact List.map_congr_left fun i _ => (pageVaddr_eq_iff _).mpr (pageOf_aligned aligned i)

theorem shows_write (shows' : Shows task s) {addr : Word} {data : List Byte} (room : addr.toNat + data.length ≤ 2 ^ 64) :
    Shows (task.write addr data) { s with bytes := put PAGE_SIZE 0 s.bytes addr.toNat data } := by
  refine ⟨fun a => ?_,shows'.heap,consistent_writeBytes shows'.consistent addr data,shows'.vmEnd⟩
  have byte : byteOf (task.write addr data).mem a = (writeEffect addr data a).apply (byteOf task.mem a) :=
    byteOf_writeBytes addr data
  have spec : WriteSpec addr data a (writeEffect addr data a) := writeEffect_spec addr data (by omega)
  have distance := toNat_distance a addr
  have bound := a.isLt
  dsimp only
  rw [byte,shows'.bytes a]
  by_cases inside : addr.toNat ≤ a.toNat ∧ a.toNat < addr.toNat + data.length
  · rw [if_pos inside.1] at distance
    have value : data[a.toNat - addr.toNat]? = some data[a.toNat - addr.toNat] := List.getElem?_eq_getElem (by omega)
    rw [put_inside inside.1 inside.2,spec.inside _ (by rw [distance]; exact value),value]
    rfl
  · have past : data.length ≤ (a - addr).toNat := by
      rw [distance]
      split
      · omega
      · omega
    have touched : Touches addr data.length (pageVaddr a) ↔
        data ≠ [] ∧ Covers PAGE_SIZE addr.toNat (addr.toNat + data.length) a.toNat := by
      rw [touches_iff room,← List.length_pos_iff]
      have size : PAGE_SIZE = 4096 := rfl
      unfold Covers addresses
      simp only [same_page_iff,Set.mem_Ico,size]
      constructor
      · rintro ⟨b,_,_⟩
        omega
      · rintro ⟨some',above,below⟩
        refine ⟨BitVec.ofNat 64 (max addr.toNat (a.toNat / 4096 * 4096)),?_⟩
        rw [BitVec.toNat_ofNat,Nat.mod_eq_of_lt (by omega)]
        omega
    rw [put_outside inside]
    by_cases near : Touches addr data.length (pageVaddr a)
    · rw [spec.beside past near,if_pos (touched.mp near)]
      rfl
    · rw [spec.apart near,if_neg fun both => near (touched.mpr both)]
      rfl

theorem shows_sysBrk (shows' : Shows task s) {newBrk : Word} (some' : newBrk ≠ 0) (room : newBrk.toNat + (PAGE_SIZE - 1) < 2 ^ 64) :
    sysBrk task newBrk = (.ok newBrk,(sysBrk task newBrk).2) ∧ Shows (sysBrk task newBrk).2
      { (if s.heap < newBrk.toNat then s.back s.heap newBrk.toNat else s) with heap := newBrk.toNat } := by
  have moved : Shows { task with heap := newBrk } { s with heap := newBrk.toNat } :=
    ⟨shows'.bytes,rfl,shows'.consistent,shows'.vmEnd⟩
  rw [sysBrk,if_neg some']
  refine ⟨rfl,?_⟩
  have grows : task.heap < newBrk ↔ s.heap < newBrk.toNat := by rw [← shows'.heap,BitVec.lt_def]
  dsimp only
  by_cases more : task.heap < newBrk
  · rw [if_pos more,if_pos (grows.mp more),← shows'.heap]
    refine shows_mapBlank moved fun a => ?_
    rw [pageRange]
    change pageVaddr a ∈ ((List.range _).map (pageOf (pageVaddr task.heap))).map pageVaddr ↔ _
    rw [map_pageVaddr (pageVaddr_aligned task.heap)]
    exact covers_range_iff (toNat_roundUp room) a
  · rw [if_neg more,if_neg fun low => more (grows.mpr low)]
    exact moved

theorem covers_region {start length : Word} (aligned : start.toNat % PAGE_SIZE = 0) (ends : start.toNat + paged length ≤ 2 ^ 64)
    (a : Word) : pageVaddr a ∈ ((List.range (pageCount length)).map (pageOf start)).map pageVaddr ↔
      Covers PAGE_SIZE start.toNat (start.toNat + paged length) a.toNat := by
  rw [map_pageVaddr aligned]
  exact covers_iff aligned ends a

/-- The pages of a region that mmap has placed are nowhere in the memory. -/
theorem free_of_placed (shows' : Shows task s) {length r : Word} (placed : Placed task length r) {a : Nat} (above : r.toNat ≤ a)
    (below : a < r.toNat + paged length) : s.bytes a = none := by
  have ends := placed.ends
  have size : a < 2 ^ 64 := Nat.lt_of_lt_of_le below ends
  have isWord : (BitVec.ofNat 64 a).toNat = a := by rw [BitVec.toNat_ofNat,Nat.mod_eq_of_lt size]
  have byte := shows'.bytes (BitVec.ofNat 64 a)
  rw [isWord] at byte
  obtain ⟨i,low,isPage⟩ := page_of_mem_region placed.aligned ends ⟨above,below⟩
  have page : pageVaddr (BitVec.ofNat 64 a) = pageOf r i := by
    apply BitVec.eq_of_toNat_eq
    rw [isPage,toNat_pageVaddr,isWord]
    change a - a % 4096 = a / 4096 * 4096
    omega
  have none' : (byteOf task.mem (BitVec.ofNat 64 a)).isSome = false := by
    rw [byteOf_isSome,page,(placed.fresh i low).2]
    rfl
  rw [← byte]
  exact Option.isNone_iff_eq_none.mp (Option.isSome_eq_false_iff.mp none')

theorem shows_sysMunmap (shows' : Shows task s) {addr length : Word} (room : addr.toNat + length.toNat + (PAGE_SIZE - 1) < 2 ^ 64) :
    Shows (sysMunmap task addr length).2 { s with bytes := drop PAGE_SIZE s.bytes addr.toNat (addr.toNat + length.toNat) } := by
  refine ⟨fun a => ?_,shows'.heap,consistent_removePages shows'.consistent _,shows'.vmEnd⟩
  have sum : (addr + length).toNat = addr.toNat + length.toNat := BitVec.toNat_add_of_lt (by omega)
  have stop := @toNat_roundUp (addr + length) (by rw [sum]; exact room)
  have covered := @covers_range_iff addr (addr + length) _ stop a
  rw [sum] at covered
  change Option.map _ ((task.mem.removePages _).pageAt (pageVaddr a)) = _
  rw [pageAt_removePages]
  dsimp only
  rw [FlatSpace.drop,← shows'.bytes a]
  by_cases inside : Covers PAGE_SIZE addr.toNat (addr.toNat + length.toNat) a.toNat
  · rw [if_pos (covered.mpr inside),if_pos inside]
    rfl
  · rw [if_neg fun member => inside (covered.mp member),if_neg inside]
    rfl

/-! ## Runs -/

variable {ω : Type} {L : Layer ω} {S : Spaces}

/-- Every task has a flat memory, and only the tasks have one. -/
def Models (L : Layer ω) (S : Spaces) : Prop := ∀ tid, Option.Rel Shows (L.tasks tid) (S tid)

/-- Nothing wraps around in a call on a task. -/
def CallFits (L : Layer ω) (call : Word × MemCall) : Prop := ∀ task, L.tasks call.1 = some task → Fits task call.2

theorem Models.absent (models : Models L S) {tid : Word} (isTask : L.tasks tid = none) : S tid = none := by
  have here := models tid
  rw [isTask] at here
  cases isSpace : S tid with
  | none => rfl
  | some s =>
    rw [isSpace] at here
    cases here

theorem Models.there (models : Models L S) {tid : Word} (isTask : L.tasks tid = some task) :
    ∃ s, S tid = some s ∧ Shows task s := by
  have here := models tid
  rw [isTask] at here
  cases isSpace : S tid with
  | none =>
    rw [isSpace] at here
    cases here
  | some s =>
    rw [isSpace] at here
    cases here with
    | some shows' => exact ⟨s,rfl,shows'⟩

theorem Models.shown (models : Models L S) {tid : Word} (isSpace : S tid = some s) :
    ∃ task, L.tasks tid = some task ∧ Shows task s := by
  cases isTask : L.tasks tid with
  | none =>
    rw [models.absent isTask] at isSpace
    cases isSpace
  | some task =>
    obtain ⟨s',isSpace',shows'⟩ := models.there isTask
    rw [isSpace] at isSpace'
    cases isSpace'
    exact ⟨task,rfl,shows'⟩

theorem Models.insert (models : Models L S) {tid : Word} (shows' : Shows task s) :
    Models { L with tasks := L.tasks.insert tid task } fun other => if other = tid then some s else S other := by
  intro other
  dsimp only [TaskMap.insert]
  by_cases here : other = tid
  · rw [if_pos here,if_pos here]
    exact .some shows'
  · rw [if_neg here,if_neg here]
    exact models other

/-- A call that goes through on the task leads to a memory that it may lead to. -/
theorem onTask_refines (models : Models L S) {tid : Word} {call : MemCall} {body : Sel4Task → MemResult × Sel4Task}
    (called : ∀ task s, L.tasks tid = some task → Shows task s →
      ∃ s', Allowed s call (body task).1 s' ∧ Shows (body task).2 s') :
    ∃ o L' S', onTask L tid (fun task => .ok (body task)) = .ok (o,L') ∧ SystemAllowed S (tid,call) o S' ∧ Models L' S' := by
  unfold onTask
  cases isTask : L.tasks tid with
  | none => exact ⟨_,_,S,rfl,.absent (models.absent isTask),models⟩
  | some task =>
    obtain ⟨s,isSpace,shows'⟩ := models.there isTask
    obtain ⟨s',allowed,after⟩ := called task s isTask shows'
    exact ⟨_,_,_,rfl,.made isSpace allowed,models.insert after⟩

theorem step_refines (models : Models L S) {call : Word × MemCall} (fits : CallFits L call) :
    ∃ o L' S', memStep L call = .ok (o,L') ∧ SystemAllowed S call o S' ∧ Models L' S' := by
  obtain ⟨tid,call⟩ := call
  cases call with
  | mapBlankPageSimple vaddr =>
    exact onTask_refines models fun task s _ shows' =>
      ⟨_,.mapBlankPageSimple s vaddr,shows_mapBlank shows' (covers_one vaddr)⟩
  | writeBytes addr data =>
    refine onTask_refines models fun task s isTask shows' => ⟨_,?_,shows_write shows' (fits task isTask)⟩
    rw [writeBytes_fst]
    exact .writeBytes s addr data
  | sysBrk newBrk =>
    refine onTask_refines models fun task s isTask shows' => ?_
    by_cases ask : newBrk = 0
    · subst ask
      exact ⟨s,.heapEnd s task.heap shows'.heap,shows'⟩
    · obtain ⟨answer,after⟩ := shows_sysBrk shows' ask (fits task isTask)
      refine ⟨_,?_,after⟩
      rw [answer]
      exact .sysBrk s newBrk ask
  | sysMmap addr length prot =>
    refine onTask_refines models fun task s isTask shows' => ?_
    have fits := fits task isTask
    by_cases anywhere : addr = 0
    · subst anywhere
      have fits : MmapFits task length := fits
      have placed := mmap_placed shows'.consistent shows'.vmEnd fits
      rw [sysMmap_eq task fits.rounded prot]
      refine ⟨_,.sysMmap s length prot _ placed.aligned placed.ends fun a => free_of_placed shows' placed,?_⟩
      exact shows_mapBlank shows' (covers_region placed.aligned placed.ends)
    · have fits : length.toNat + (PAGE_SIZE - 1) < 2 ^ 64 ∧ (pageVaddr addr).toNat + paged length ≤ 2 ^ 64 := by
        simpa only [Fits,if_neg anywhere] using fits
      have count : ((length + BitVec.ofNat 64 (PAGE_SIZE - 1)) / BitVec.ofNat 64 PAGE_SIZE).toNat = pageCount length := by
        rw [BitVec.toNat_udiv,toNat_advance_of_lt fits.1]
        rfl
      have answer : sysMmap task addr length prot =
          (.ok (pageVaddr addr),task.mapBlank ((List.range (pageCount length)).map (pageOf (pageVaddr addr)))) := by
        rw [sysMmap,if_neg anywhere,count]
        rfl
      rw [answer]
      exact ⟨_,.sysMmapAt s addr length prot anywhere,shows_mapBlank shows' (covers_region (pageVaddr_aligned addr) fits.2)⟩
  | sysMunmap addr length =>
    exact onTask_refines models fun task s isTask shows' =>
      ⟨_,.sysMunmap s addr length,shows_sysMunmap shows' (fits task isTask)⟩
  | loadElf data =>
    cases isTask : L.tasks tid with
    | none =>
      refine ⟨.noTask,L,S,?_,.absent (models.absent isTask),models⟩
      simp only [memStep,onTask,isTask]
    | some task => exact (fits task isTask).elim
  | handleVmfault addr =>
    cases isTask : L.tasks tid with
    | none =>
      refine ⟨.handled (handleVmfault L tid addr).1,L,S,?_,.absent (models.absent isTask),models⟩
      simp only [memStep,handleVmfault,isTask]
    | some task =>
      obtain ⟨s,isSpace,shows'⟩ := models.there isTask
      have page (a : Word) : pageVaddr a ∈ [pageVaddr addr].map pageVaddr ↔
          Covers PAGE_SIZE addr.toNat (addr.toNat + 1) a.toNat := by
        rw [List.map_singleton,pageVaddr_pageVaddr]
        exact covers_one addr a
      have after : Shows (task.mapBlank [pageVaddr addr]) _ := shows_mapBlank shows' page
      have mapped : (handleVmfault L tid addr).2 = { L with tasks := L.tasks.insert tid (task.mapBlank [pageVaddr addr]) } := by
        simp only [handleVmfault,isTask]
        rfl
      refine ⟨.handled (handleVmfault L tid addr).1,_,_,?_,.made isSpace (.handleVmfault s addr _),models.insert after⟩
      rw [memStep,mapped]

/-- What a task reads is what its flat memory has. -/
theorem read_shown (shows' : Shows task s) (addr : Word) (buf : List Byte) :
    task.mem.readBytes addr buf = FlatSpace.read PAGE_SIZE 0 s.bytes addr.toNat buf := by
  have bound := addr.isLt
  have size : PAGE_SIZE = 4096 := rfl
  have here := shows'.bytes addr
  rw [readBytes_page,FlatSpace.read,← here,← pageOffset_eq]
  have offset := pageOffset_eq addr
  cases isPage : task.mem.pageAt (pageVaddr addr) with
  | none =>
    have none' : byteOf task.mem addr = none := by
      change (task.mem.pageAt (pageVaddr addr)).map _ = none
      rw [isPage]
      rfl
    rw [none']
    rfl
  | some page =>
    have some' : byteOf task.mem addr = some (page ⟨pageOffset addr,pageOffset_lt addr⟩) := by
      change (task.mem.pageAt (pageVaddr addr)).map _ = _
      rw [isPage]
      rfl
    rw [some',Option.map_some,Option.map_some]
    refine congrArg (fun front => some (front ++ buf.drop (min buf.length (PAGE_SIZE - pageOffset addr)))) ?_
    refine List.ext_getElem (by simp) fun i inside _ => ?_
    rw [List.length_ofFn] at inside
    have near : i < PAGE_SIZE - pageOffset addr := by omega
    have last : i < 4096 - addr.toNat % 4096 := by rw [← size,← offset]; exact near
    have place : (addr + BitVec.ofNat 64 i).toNat = addr.toNat + i := toNat_advance_of_lt (by omega)
    have byte := shows'.bytes (addr + BitVec.ofNat 64 i)
    rw [byteOf_within near,isPage,place] at byte
    simp [← byte]

/-- A byte of a task is there as long as the task itself does not write over it or take its page back. -/
theorem path_kept {S S' : Spaces} {calls : List (Word × MemCall)} {results : List MemResult}
    (path : Path SystemAllowed S calls results S')
    {tid : Word} {a : Nat} {b : Byte} (there : ∃ s, S tid = some s ∧ s.bytes a = some b)
    (unchanged : ∀ call, (tid,call) ∈ calls → ¬ Changes call a) : ∃ s, S' tid = some s ∧ s.bytes a = some b := by
  refine @Path.keeps _ _ _ _ (fun S => ∃ s, S tid = some s ∧ s.bytes a = some b) _ _ _ _ path ?_ there
  rintro S call o S' member ⟨s,isSpace,byte⟩ allowed
  cases allowed with
  | absent none' => exact ⟨s,isSpace,byte⟩
  | made here allowed =>
    next other call s₁ s₂ =>
    dsimp only
    by_cases own : tid = other
    · subst own
      rw [isSpace] at here
      cases here
      exact ⟨s₂,if_pos rfl,allowed.keeps byte (unchanged call member)⟩
    · exact ⟨s,by rw [if_neg own]; exact isSpace,byte⟩

/-- The flat memories that the tasks have. -/
def spacesOf (L : Layer ω) : Spaces := fun tid => (L.tasks tid).map fun task =>
  { bytes := fun a => if a < 2 ^ 64 then byteOf task.mem (BitVec.ofNat 64 a) else none, heap := task.heap.toNat }

/-- The pages of every task are in order. -/
def InOrder (L : Layer ω) : Prop := ∀ tid task, L.tasks tid = some task → task.mem.Consistent ∧ task.taskVmEnd.toNat % PAGE_SIZE = 0

theorem models_spacesOf (inOrder : InOrder L) : Models L (spacesOf L) := by
  intro tid
  unfold spacesOf
  cases isTask : L.tasks tid with
  | none => exact .none
  | some task =>
    obtain ⟨consistent,vmEnd⟩ := inOrder tid task isTask
    refine .some ⟨fun a => ?_,rfl,consistent,vmEnd⟩
    dsimp only
    rw [if_pos a.isLt,BitVec.ofNat_toNat,BitVec.setWidth_eq]

/--
Every sequence of calls in which nothing wraps around goes through, as a run of
the flat memories: at its end each task reads what its flat memory has. A byte
that a task has at the beginning it has at the end, unless one of its own calls
writes over it or takes its page back.
-/
theorem memory_refined (inOrder : InOrder L) (calls : List (Word × MemCall)) (fits : Meets memStep CallFits L calls) :
    ∃ results L' S', run memStep L calls = .ok (results,L') ∧ Path SystemAllowed (spacesOf L) calls results S' ∧
      (∀ tid s, S' tid = some s → ∃ task, L'.tasks tid = some task ∧ task.heap.toNat = s.heap ∧
        ∀ addr buf, task.mem.readBytes addr buf = FlatSpace.read PAGE_SIZE 0 s.bytes addr.toNat buf) ∧
      ∀ tid task, L.tasks tid = some task → ∀ a b, byteOf task.mem a = some b →
        (∀ call, (tid,call) ∈ calls → ¬ Changes call a.toNat) →
          ∃ task', L'.tasks tid = some task' ∧ byteOf task'.mem a = some b := by
  have models := models_spacesOf inOrder
  obtain ⟨results,L',S',ran,path,models'⟩ :=
    @run_refines _ _ _ _ _ SystemAllowed memStep Models CallFits (fun L S call models fits => step_refines models fits)
      L (spacesOf L) calls models fits
  refine ⟨results,L',S',ran,path,fun tid s isSpace => ?_,fun tid task isTask a b byte unchanged => ?_⟩
  · obtain ⟨task,isTask,shows'⟩ := models'.shown isSpace
    exact ⟨task,isTask,shows'.heap,read_shown shows'⟩
  · obtain ⟨s,isSpace,shows'⟩ := models.there isTask
    obtain ⟨s',isSpace',byte'⟩ := path_kept path ⟨s,isSpace,(shows'.bytes a).symm.trans byte⟩ unchanged
    obtain ⟨task',isTask',shows''⟩ := models'.shown isSpace'
    exact ⟨task',isTask',(shows''.bytes a).trans byte'⟩

/-- A task with a 5 at 0x3000. -/
def holding : Layer Unit := { paging with tasks := fun tid => if tid = 1 then some ((Sel4Task.new 1 5).write 0x3000 [5]) else none }

/-- Calls of the task around its page, and one of a task that is not there. -/
def aroundCalls : List (Word × MemCall) :=
  [(1,.writeBytes 0x2FFE [7,8]),(1,.sysBrk 0x70001000),(2,.sysMunmap 0x3000 1),(1,.sysMunmap 0x2000 1),(1,.handleVmfault 0x3123)]

theorem memory_refined_around : InOrder holding ∧ Meets memStep CallFits holding aroundCalls ∧
    ∃ results L' S' task, run memStep holding aroundCalls = .ok (results,L') ∧
      Path SystemAllowed (spacesOf holding) aroundCalls results S' ∧ L'.tasks 1 = some task ∧ byteOf task.mem 0x3000 = some 5 := by
  have inOrder : InOrder holding := by
    intro tid task isTask
    change (if tid = 1 then some ((Sel4Task.new 1 5).write 0x3000 [5]) else none) = some task at isTask
    split at isTask
    · cases isTask
      exact ⟨consistent_writeBytes consistent_default 0x3000 [5],rfl⟩
    · cases isTask
  have fits : Meets memStep CallFits holding aroundCalls := by
    have first (task : Sel4Task) : Fits task (.writeBytes 0x2FFE [7,8]) := show (0x2FFE#64).toNat + 2 ≤ 2 ^ 64 by decide
    have second (task : Sel4Task) : Fits task (.sysBrk 0x70001000) := show (0x70001000#64).toNat + 4095 < 2 ^ 64 by decide
    have third (task : Sel4Task) : Fits task (.sysMunmap 0x3000 1) :=
      show (0x3000#64).toNat + (1#64).toNat + 4095 < 2 ^ 64 by decide
    have fourth (task : Sel4Task) : Fits task (.sysMunmap 0x2000 1) :=
      show (0x2000#64).toNat + (1#64).toNat + 4095 < 2 ^ 64 by decide
    exact ⟨fun task _ => first task,fun _ _ _ => ⟨fun task _ => second task,fun _ _ _ => ⟨fun task _ => third task,fun _ _ _ =>
      ⟨fun task _ => fourth task,fun _ _ _ => ⟨fun task _ => trivial,fun _ _ _ => trivial⟩⟩⟩⟩⟩
  have unchanged : ∀ call, (1,call) ∈ aroundCalls → ¬ Changes call (0x3000#64).toNat := by
    intro call member
    simp only [aroundCalls,List.mem_cons,Prod.mk.injEq,List.not_mem_nil,or_false,true_and] at member
    rcases member with rfl | rfl | ⟨other,_⟩ | rfl | rfl
    · exact fun both => absurd both.2 (by decide)
    · exact id
    · exact absurd other (by decide)
    · exact fun both => absurd both.2 (by decide)
    · exact id
  obtain ⟨results,L',S',ran,path,_,kept⟩ := memory_refined inOrder aroundCalls fits
  have byte : byteOf ((Sel4Task.new 1 5).write 0x3000 [5]).mem 0x3000 = some 5 := by
    rw [Sel4Task.write]
    exact @byteOf_written TaskMemInfo.default 0x3000 [5] (by decide) 0 (by decide)
  obtain ⟨task,isTask,there⟩ := kept 1 _ rfl 0x3000 5 byte unchanged
  exact ⟨inOrder,fits,results,L',S',task,ran,path,isTask,there⟩

end Sel4Linux.AddressSpace
