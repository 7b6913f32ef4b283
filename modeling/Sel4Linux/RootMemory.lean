import Sel4Linux.Ipc
import Sel4Linux.Overlay
import Sel4Linux.SegmentPages

/-!
The address space of the root task, as its loaders see it: a byte where a frame
is mapped. A store to any other address stops the task. A loader that writes each
page of some segments whole and none twice leaves in each byte of a segment what
it wrote for the byte's page (`layPages_byte`).
-/
namespace Sel4Linux.RootMemory
open Sel4Linux.Bytes Sel4Linux.Ipc Sel4Linux.TaskMem Sel4Linux.Overlay Sel4Linux.SegmentPages
set_option linter.unusedSimpArgs false

abbrev RootMem := Word → Option Byte

/-- Why a loader of the root task does not come to its end. -/
inductive RootStop where
  | panic (f : Fault)
  /-- There is no frame at the address. -/
  | unmapped
  /-- A call to the kernel fails, and the loader returns `None`. -/
  | refused (err : Word)
  deriving DecidableEq

/-- `write_volatile` or `copy_nonoverlapping` of some bytes. -/
def store (m : RootMem) (addr : Word) (data : List Byte) : Except RootStop RootMem :=
  if ∀ i < data.length, (m (addr + BitVec.ofNat 64 i)).isSome then .ok (overlay addr data m) else .error .unmapped

/-- There are frames from `low` up to `high`. -/
def Mapped (m : RootMem) (low high : Nat) : Prop := ∀ a : Word, low ≤ a.toNat → a.toNat < high → (m a).isSome

variable {m : RootMem} {low high : Nat} {addr : Word} {data : List Byte}

theorem Mapped.overlay (mapped : Mapped m low high) : Mapped (overlay addr data m) low high :=
  fun a above below => isSome_overlay (mapped a above below)

theorem store_mapped (mapped : Mapped m low high) (above : low ≤ addr.toNat) (below : addr.toNat + data.length ≤ high)
    (room : high ≤ 2 ^ 64) : store m addr data = .ok (Overlay.overlay addr data m) := by
  refine if_pos fun i inside => mapped _ ?_ ?_
  all_goals
    rw [toNat_advance_of_lt (by omega)]
    omega

/-! ## Frames and pages -/

/-- The memory with a frame of some content at a page. -/
def mapFrame (m : RootMem) (vaddr : Word) (content : Page) : RootMem := fun a =>
  if pageVaddr a = vaddr then some (content ⟨pageOffset a,pageOffset_lt a⟩) else m a

theorem mapped_mapFrame {vaddr : Word} (aligned : vaddr.toNat % PAGE_SIZE = 0) (content : Page) :
    Mapped (mapFrame m vaddr content) vaddr.toNat (vaddr.toNat + PAGE_SIZE) := by
  intro a above below
  have here : pageVaddr a = vaddr := by
    have page := toNat_pageVaddr a
    change _ = _ - _ % 4096 at page
    change vaddr.toNat % 4096 = 0 at aligned
    change a.toNat < vaddr.toNat + 4096 at below
    exact BitVec.eq_of_toNat_eq (by omega)
  rw [mapFrame,if_pos here]
  rfl

/-- A page, and bytes for all of it. -/
structure WholePage (block : Word × List Byte) : Prop where
  aligned : block.1.toNat % PAGE_SIZE = 0
  whole : block.2.length = PAGE_SIZE

theorem overlay_page {block : Word × List Byte} (page : WholePage block) (a : Word) :
    overlay block.1 block.2 m a = if pageVaddr a = block.1 then block.2[pageOffset a]? else m a := by
  have split := pageVaddr_add_offset a
  have inside := pageOffset_lt a
  have whole := page.whole
  have bound := a.isLt
  have bound' := block.1.isLt
  have aligned := page.aligned
  change block.1.toNat % 4096 = 0 at aligned
  change _ = 4096 at whole
  change _ < 4096 at inside
  by_cases here : pageVaddr a = block.1
  · have distance : (a - block.1).toNat = pageOffset a := by
      rw [BitVec.toNat_sub_of_le (BitVec.le_def.mpr (by rw [← here]; omega)),← here]
      omega
    rw [if_pos here,overlay,distance,List.getElem?_eq_getElem (by omega),Option.some_or]
  · have start := toNat_pageVaddr a
    change _ = _ - _ % 4096 at start
    have apart : (pageVaddr a).toNat ≠ block.1.toNat := fun same => here (BitVec.eq_of_toNat_eq same)
    rw [if_neg here,keepsOutside_overlay (by omega) a (by omega)]

/-- Bytes for all of a page hide what was in its frame. -/
theorem overlay_mapFrame {block : Word × List Byte} (page : WholePage block) (content : Page) :
    overlay block.1 block.2 (mapFrame m block.1 content) = overlay block.1 block.2 m := by
  funext a
  rw [overlay_page page a,overlay_page page a,mapFrame]
  by_cases here : pageVaddr a = block.1
  · rw [if_pos here,if_pos here]
  · rw [if_neg here,if_neg here,if_neg here]

/-- Whole pages, one written after another. -/
def layPages (m : RootMem) (blocks : List (Word × List Byte)) : RootMem :=
  blocks.foldl (fun m block => overlay block.1 block.2 m) m

variable {blocks : List (Word × List Byte)} {a : Word}

theorem layPages_other (each : ∀ block ∈ blocks, WholePage block) (apart : ∀ block ∈ blocks, pageVaddr a ≠ block.1) :
    layPages m blocks a = m a := by
  induction blocks generalizing m with
  | nil => rfl
  | cons block rest ih =>
    have later : layPages (overlay block.1 block.2 m) rest a = overlay block.1 block.2 m a :=
      ih (fun other member => each other (List.mem_cons_of_mem block member)) fun other member =>
        apart other (List.mem_cons_of_mem block member)
    exact later.trans (by rw [overlay_page (each block List.mem_cons_self),if_neg (apart block List.mem_cons_self)])

/-- Each page has its own bytes when none is written twice. -/
theorem layPages_at (each : ∀ block ∈ blocks, WholePage block) (once : (blocks.map Prod.fst).Nodup) {block : Word × List Byte}
    (member : block ∈ blocks) (here : pageVaddr a = block.1) : layPages m blocks a = block.2[pageOffset a]? := by
  induction blocks generalizing m with
  | nil => cases member
  | cons first rest ih =>
    have each' (other) (member : other ∈ rest) : WholePage other := each other (List.mem_cons_of_mem first member)
    obtain ⟨fresh,once'⟩ := List.nodup_cons.mp once
    rcases List.mem_cons.mp member with rfl | later
    · have apart : ∀ other ∈ rest, pageVaddr a ≠ other.1 := by
        intro other inRest same
        exact fresh (List.mem_map.mpr ⟨other,inRest,by rw [← same,here]⟩)
      have done : layPages (overlay block.1 block.2 m) rest a = overlay block.1 block.2 m a := layPages_other each' apart
      exact done.trans (by rw [overlay_page (each block List.mem_cons_self),if_pos here])
    · exact ih each' once' later

section
variable {ι : Type} (range : ι → Word × Word) (bytes : ι → Word → List Byte)

/-- The pages of some segments, with bytes for each. -/
def blocksOf (items : List ι) : List (Word × List Byte) :=
  items.flatMap fun item => (segmentPages (range item).1 (range item).2).map fun page => (page,bytes item page)

theorem blocksOf_cons (item : ι) (rest : List ι) : blocksOf range bytes (item :: rest) =
    (segmentPages (range item).1 (range item).2).map (fun page => (page,bytes item page)) ++ blocksOf range bytes rest :=
  List.flatMap_cons

theorem map_fst_blocksOf (items : List ι) : (blocksOf range bytes items).map Prod.fst = allPages (items.map range) := by
  rw [blocksOf,allPages,List.map_flatMap,List.flatMap_map]
  refine congrArg (List.flatMap · items) (funext fun item => ?_)
  rw [List.map_map]
  exact List.map_id _

variable {range bytes} {items : List ι}

theorem whole_blocksOf (room : ∀ item ∈ items, WrapsNot (range item).1 (range item).2)
    (whole : ∀ item ∈ items, ∀ page ∈ segmentPages (range item).1 (range item).2, (bytes item page).length = PAGE_SIZE) :
    ∀ block ∈ blocksOf range bytes items, WholePage block := by
  intro block member
  obtain ⟨item,isItem,member⟩ := List.mem_flatMap.mp member
  obtain ⟨page,isPage,rfl⟩ := List.mem_map.mp member
  exact ⟨((mem_segmentPages_iff (room item isItem)).mp isPage).1,whole item isItem page isPage⟩

/-- What is at byte `k` of a segment when the pages of segments that are apart have been written. -/
theorem layPages_byte (room : ∀ item ∈ items, WrapsNot (range item).1 (range item).2)
    (whole : ∀ item ∈ items, ∀ page ∈ segmentPages (range item).1 (range item).2, (bytes item page).length = PAGE_SIZE)
    (apart : RangesApart (items.map range)) {item : ι} (member : item ∈ items) {k : Nat} (inside : k < (range item).2.toNat) :
    ∃ page ∈ segmentPages (range item).1 (range item).2, ∃ i < PAGE_SIZE, page.toNat + i = (range item).1.toNat + k ∧
      layPages m (blocksOf range bytes items) ((range item).1 + BitVec.ofNat 64 k) = (bytes item page)[i]? := by
  obtain ⟨inPages,split⟩ := page_of_byte (room item member) inside
  refine ⟨_,inPages,_,pageOffset_lt _,split,?_⟩
  refine layPages_at (whole_blocksOf room whole) ?_ (List.mem_flatMap.mpr ⟨item,member,List.mem_map.mpr ⟨_,inPages,rfl⟩⟩) rfl
  rw [map_fst_blocksOf]
  exact nodup_allPages apart

end

end Sel4Linux.RootMemory
