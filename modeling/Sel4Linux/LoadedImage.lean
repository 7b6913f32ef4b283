import Sel4Linux.ChildSpace
import Sel4Linux.ElfBounds
import Sel4Linux.RootMemory

/-!
The memory image of `load_elf_to_memory` (`lcl/src/task/loader.rs`). Each page of
a segment gets a frame, the bytes of the file for it and zeros behind them. What
belongs to a page is counted from the distance of the page to the segment's start,
which wraps around for the first page of a segment that starts inside one; that
page is filled with zeros. The image is right exactly when the file has nothing
but zeros for these pages (`loader_image_iff`).
-/
namespace Sel4Linux.LoadedImage
open Sel4Linux.Bytes Sel4Linux.Ipc Sel4Linux.TaskMem Sel4Linux.MemImage Sel4Linux.Execve Sel4Linux.Runs Sel4Linux.Loader
open Sel4Linux.ElfBounds Sel4Linux.Overlay Sel4Linux.RootMemory Sel4Linux.SegmentPages
open Sel4Linux.ChildSpace (LoadedPages)
set_option linter.unusedSimpArgs false

/-! ## Loading -/

/-- `page_map.insert` on the pages in order. -/
def insertFrame (vaddr slot : Word) : List (Word × Word) → List (Word × Word)
  | [] => [(vaddr,slot)]
  | (first,own) :: rest =>
    if vaddr < first then (vaddr,slot) :: (first,own) :: rest
    else if vaddr = first then (vaddr,slot) :: rest
    else (first,own) :: insertFrame vaddr slot rest

theorem mem_insertFrame {vaddr slot p : Word} {frames : List (Word × Word)}
    (member : p ∈ (insertFrame vaddr slot frames).map Prod.fst) : p = vaddr ∨ p ∈ frames.map Prod.fst := by
  induction frames with
  | nil => exact .inl (List.mem_singleton.mp member)
  | cons frame rest ih =>
    obtain ⟨first,own⟩ := frame
    rw [insertFrame] at member
    split at member
    · exact List.mem_cons.mp member
    · split at member
      · next same =>
        subst same
        exact .inr member
      · rcases List.mem_cons.mp member with here | later
        · exact .inr (here ▸ List.mem_cons_self)
        · rcases ih later with new | old
          · exact .inl new
          · exact .inr (List.mem_cons_of_mem _ old)

theorem sorted_insertFrame {vaddr slot : Word} {frames : List (Word × Word)}
    (sorted : (frames.map Prod.fst).Pairwise (· < ·)) : ((insertFrame vaddr slot frames).map Prod.fst).Pairwise (· < ·) := by
  induction frames with
  | nil => exact List.pairwise_singleton _ _
  | cons frame rest ih =>
    obtain ⟨first,own⟩ := frame
    obtain ⟨below,sorted'⟩ := List.pairwise_cons.mp sorted
    rw [insertFrame]
    split
    · next before =>
      refine List.pairwise_cons.mpr ⟨fun p member => ?_,sorted⟩
      rcases List.mem_cons.mp member with rfl | later
      · exact before
      · exact BitVec.lt_trans before (below p later)
    · next notBefore =>
      split
      · next same =>
        subst same
        exact sorted
      · next differs =>
        refine List.pairwise_cons.mpr ⟨fun p member => ?_,ih sorted'⟩
        rcases mem_insertFrame member with rfl | old
        · rcases Nat.lt_trichotomy first.toNat p.toNat with less | equal | more
          · exact less
          · exact absurd (BitVec.eq_of_toNat_eq equal.symm) differs
          · exact absurd more notBefore
        · exact below p old

def insertPage (pages : LoadedPages) (vaddr slot : Word) : LoadedPages :=
  { frames := insertFrame vaddr slot pages.frames, sorted := sorted_insertFrame pages.sorted }

/-- `total_pages`, as many frame slots as the loader allocates. -/
def totalPages (segments : List ElfSegment) : Word :=
  segments.foldl (fun total seg =>
    let startPage := pageVaddr seg.vaddr
    let endPage := pageVaddr (seg.vaddr + seg.memsz + BitVec.ofNat 64 (PAGE_SIZE - 1))
    total + (endPage - startPage) / BitVec.ofNat 64 PAGE_SIZE) 0

/-- The copy of a page's part of the file, and the zeros behind it. -/
def fillPage (data : List Byte) (seg : Segment) (m : RootMem) (pageVaddr : Word) : Except RootStop RootMem := do
  let offsetInSeg := pageVaddr - seg.vaddr
  let dataStart := if offsetInSeg < seg.filesz then seg.fileOffset + offsetInSeg else 0
  let dataEnd :=
    if offsetInSeg < seg.filesz then
      if dataStart + BitVec.ofNat 64 PAGE_SIZE ≤ seg.fileOffset + seg.filesz then dataStart + BitVec.ofNat 64 PAGE_SIZE
      else seg.fileOffset + seg.filesz
    else 0
  let m ←
    if dataStart < dataEnd ∧ dataEnd.toNat ≤ data.length then
      store m pageVaddr ((data.take dataEnd.toNat).drop dataStart.toNat)
    else .ok m
  let copyEnd := if dataStart < dataEnd then dataEnd - dataStart else 0
  if copyEnd.toNat < PAGE_SIZE then store m (pageVaddr + copyEnd) (List.replicate (PAGE_SIZE - copyEnd.toNat) 0) else .ok m

/-- The loop's variables. -/
structure Loading where
  mem : RootMem
  idx : Nat
  pageMap : LoadedPages

section
variable (frameMap : Word → Word → Word) (content : Word → Page) (frameSlots : List Word) (data : List Byte)

/-- One page: `frameMap` is the kernel's answer to the mapping of a frame, `content` what is in a frame before. -/
def loadPage (seg : Segment) (s : Loading) (pageVaddr : Word) : Except RootStop Loading :=
  match frameSlots[s.idx]? with
  | none => .error (.panic .range)
  | some frameSlot => do
    let err := frameMap frameSlot pageVaddr
    if err ≠ 0 then .error (.refused err)
    else do
      let m ← fillPage data seg (mapFrame s.mem pageVaddr (content frameSlot)) pageVaddr
      .ok { mem := m, idx := s.idx + 1, pageMap := insertPage s.pageMap pageVaddr frameSlot }

def loadPages (seg : Segment) (s : Loading) : List Word → Except RootStop Loading
  | [] => .ok s
  | page :: rest => do
    let s ← loadPage frameMap content frameSlots data seg s page
    loadPages seg s rest

/-- The loop over the segments that maps and fills their pages. -/
def populate (s : Loading) : List ElfSegment → Except RootStop Loading
  | [] => .ok s
  | seg :: rest => do
    let s ← loadPages frameMap content frameSlots data seg.toSegment s (segmentPages seg.vaddr seg.memsz)
    populate s rest

end

/-! ## One page -/

/-- The bytes of a segment are in the file, and its memory does not wrap around. -/
structure Placed (data : List Byte) (seg : Segment) : Prop where
  within : seg.filesz.toNat ≤ seg.memsz.toNat
  inFile : seg.fileOffset.toNat + seg.filesz.toNat ≤ data.length
  room : WrapsNot seg.vaddr seg.memsz

/-- The part of the file for a page. -/
def pageText (data : List Byte) (seg : Segment) (page : Word) : List Byte :=
  if page - seg.vaddr < seg.filesz then ((fileBytes data seg).drop (page - seg.vaddr).toNat).take PAGE_SIZE else []

/-- What a page is filled with. -/
def pageBytes (data : List Byte) (seg : Segment) (page : Word) : List Byte :=
  pageText data seg page ++ List.replicate (PAGE_SIZE - (pageText data seg page).length) 0

variable {data : List Byte} {seg : Segment} {page : Word}

theorem length_pageText (data : List Byte) (seg : Segment) (page : Word) : (pageText data seg page).length ≤ PAGE_SIZE := by
  rw [pageText]
  split
  · exact List.length_take_le _ _
  · exact Nat.zero_le _

theorem length_pageBytes (data : List Byte) (seg : Segment) (page : Word) : (pageBytes data seg page).length = PAGE_SIZE := by
  have bound := length_pageText data seg page
  rw [pageBytes,List.length_append,List.length_replicate]
  omega

/-- The zeros behind a page's text. -/
theorem store_zeros {m : RootMem} {text : List Byte} (mapped : Mapped m page.toNat (page.toNat + PAGE_SIZE))
    (aligned : page.toNat % PAGE_SIZE = 0) (short : text.length ≤ PAGE_SIZE) :
    (if text.length < PAGE_SIZE then
      store (overlay page text m) (page + BitVec.ofNat 64 text.length) (List.replicate (PAGE_SIZE - text.length) 0)
    else .ok (overlay page text m)) = .ok (overlay page (text ++ List.replicate (PAGE_SIZE - text.length) 0) m) := by
  have bound := page.isLt
  have size : PAGE_SIZE = 4096 := rfl
  rw [size] at mapped aligned short ⊢
  by_cases less : text.length < 4096
  · have stop : (page + BitVec.ofNat 64 text.length).toNat = page.toNat + text.length := by
      rw [toNat_advance_of_lt (by omega)]
    rw [if_pos less,store_mapped mapped.overlay (by omega) (by rw [List.length_replicate]; omega) (by omega),
      overlay_append (by rw [List.length_replicate]; omega)]
  · rw [if_neg less,Nat.sub_eq_zero_of_le (Nat.le_of_not_lt less),List.replicate_zero,List.append_nil]

theorem fillPage_mapped {m : RootMem} (placed : Placed data seg) (sized : data.length < 2 ^ 63)
    (mapped : Mapped m page.toNat (page.toNat + PAGE_SIZE)) (aligned : page.toNat % PAGE_SIZE = 0) :
    fillPage data seg m page = .ok (overlay page (pageBytes data seg page) m) := by
  have inFile := placed.inFile
  have bound := page.isLt
  have size : PAGE_SIZE = 4096 := rfl
  have aligned' : page.toNat % 4096 = 0 := aligned
  have short := length_pageText data seg page
  have zeros := store_zeros mapped aligned short
  rw [fillPage,pageBytes]
  by_cases inside : page - seg.vaddr < seg.filesz
  · have inside' : (page - seg.vaddr).toNat < seg.filesz.toNat := inside
    have isText : pageText data seg page = ((fileBytes data seg).drop (page - seg.vaddr).toNat).take PAGE_SIZE := if_pos inside
    simp only [if_pos inside]
    generalize page - seg.vaddr = offset at inside' isText ⊢
    have start : (seg.fileOffset + offset).toNat = seg.fileOffset.toNat + offset.toNat := by
      rw [BitVec.toNat_add_of_lt (by omega)]
    have fileEnd : (seg.fileOffset + seg.filesz).toNat = seg.fileOffset.toNat + seg.filesz.toNat := by
      rw [BitVec.toNat_add_of_lt (by omega)]
    have past : (seg.fileOffset + offset + BitVec.ofNat 64 PAGE_SIZE).toNat = seg.fileOffset.toNat + offset.toNat + 4096 := by
      rw [toNat_advance (by decide),start,size,Nat.mod_eq_of_lt (by omega)]
    obtain ⟨stop,isStop,stopAt⟩ : ∃ stop, (if seg.fileOffset + offset + BitVec.ofNat 64 PAGE_SIZE ≤ seg.fileOffset + seg.filesz
        then seg.fileOffset + offset + BitVec.ofNat 64 PAGE_SIZE else seg.fileOffset + seg.filesz) = stop ∧
          stop.toNat = min (seg.fileOffset.toNat + offset.toNat + 4096) (seg.fileOffset.toNat + seg.filesz.toNat) := by
      refine ⟨_,rfl,?_⟩
      split
      · next before =>
        rw [BitVec.le_def,past,fileEnd] at before
        omega
      · next after =>
        rw [BitVec.le_def,past,fileEnd] at after
        omega
    have slice : (data.take stop.toNat).drop (seg.fileOffset + offset).toNat = pageText data seg page := by
      rw [isText,fileBytes,List.drop_drop,start,List.take_drop,List.take_take,stopAt,size]
    have count : (stop - (seg.fileOffset + offset)).toNat = (pageText data seg page).length := by
      have length := congrArg List.length slice
      rw [List.length_drop,List.length_take,start] at length
      rw [BitVec.toNat_sub_of_le (BitVec.le_def.mpr (by omega)),start]
      omega
    have some' : seg.fileOffset + offset < stop ∧ stop.toNat ≤ data.length := ⟨BitVec.lt_def.mpr (by omega),by omega⟩
    have own : stop - (seg.fileOffset + offset) = BitVec.ofNat 64 (pageText data seg page).length := by
      rw [← count,BitVec.ofNat_toNat,BitVec.setWidth_eq]
    rw [isStop,if_pos some',if_pos some'.1,slice,count,own,store_mapped mapped (Nat.le_refl _) (by omega) (by omega),ok_bind]
    exact zeros
  · have none : pageText data seg page = [] := if_neg inside
    rw [none,overlay_nil,List.length_nil] at zeros
    have still : ¬ (0 : Word) < 0 := BitVec.lt_irrefl 0
    have zero : (0 : Word).toNat = 0 := rfl
    rw [none,List.length_nil]
    simp only [if_neg inside]
    rw [if_neg fun both => still both.1,ok_bind,if_neg still,zero]
    exact zeros

/-- Byte `i` of a page: the distance to the start of the segment counts only when the page is not before it. -/
theorem pageBytes_at (placed : Placed data seg) (sized : data.length < 2 ^ 63) (near : seg.vaddr.toNat < page.toNat + PAGE_SIZE)
    {i : Nat} (inPage : i < PAGE_SIZE) :
    (pageBytes data seg page)[i]? =
      if seg.vaddr.toNat ≤ page.toNat ∧ page.toNat - seg.vaddr.toNat + i < seg.filesz.toNat then
        data[seg.fileOffset.toNat + (page.toNat - seg.vaddr.toNat + i)]?
      else some 0 := by
  have inFile := placed.inFile
  have distance := toNat_distance page seg.vaddr
  have bound := seg.vaddr.isLt
  have bound' := page.isLt
  have long := length_fileBytes placed.inFile
  have zeros (text : List Byte) (behind : text.length ≤ i) :
      (text ++ List.replicate (PAGE_SIZE - text.length) (0 : Byte))[i]? = some 0 := by
    rw [List.getElem?_append_right behind,List.getElem?_replicate_of_lt (by omega)]
  rw [pageBytes,pageText]
  by_cases before : seg.vaddr.toNat ≤ page.toNat
  · rw [if_pos before] at distance
    by_cases inside : page - seg.vaddr < seg.filesz
    · have inside' : (page - seg.vaddr).toNat < seg.filesz.toNat := inside
      rw [if_pos inside]
      by_cases isText : page.toNat - seg.vaddr.toNat + i < seg.filesz.toNat
      · rw [if_pos ⟨before,isText⟩,List.getElem?_append_left (by rw [List.length_take,List.length_drop,long]; omega),
          List.getElem?_take_of_lt inPage,List.getElem?_drop,fileBytes,List.getElem?_drop,List.getElem?_take_of_lt (by omega),
          distance]
      · rw [if_neg fun both => isText both.2]
        exact zeros _ (by rw [List.length_take,List.length_drop,long]; omega)
    · rw [BitVec.lt_def,distance] at inside
      rw [if_neg (by rw [BitVec.lt_def,distance]; exact inside),if_neg fun both => inside (by omega)]
      exact zeros [] (Nat.zero_le i)
  · rw [if_neg before] at distance
    change _ < _ + 4096 at near
    rw [if_neg (by rw [BitVec.lt_def,distance]; omega),if_neg fun both => before both.1]
    exact zeros [] (Nat.zero_le i)

/-! ## The loops -/

/-- The address range of a segment. -/
def rangeOf (seg : ElfSegment) : Word × Word := (seg.vaddr,seg.memsz)

/-- All pages that are filled. -/
def allBlocks (data : List Byte) (segments : List ElfSegment) : List (Word × List Byte) :=
  blocksOf rangeOf (fun seg page => pageBytes data seg.toSegment page) segments

section
variable {frameMap : Word → Word → Word} {content : Word → Page} {frameSlots : List Word}
  (answers : ∀ slot page, frameMap slot page = 0) (sized : data.length < 2 ^ 63)
include answers sized

theorem loadPages_ok (placed : Placed data seg) {pages : List Word} (aligned : ∀ page ∈ pages, page.toNat % PAGE_SIZE = 0)
    {s : Loading} (slots : s.idx + pages.length ≤ frameSlots.length) :
    ∃ s', loadPages frameMap content frameSlots data seg s pages = .ok s' ∧
      s'.mem = layPages s.mem (pages.map fun page => (page,pageBytes data seg page)) ∧ s'.idx = s.idx + pages.length := by
  induction pages generalizing s with
  | nil => exact ⟨s,rfl,rfl,rfl⟩
  | cons page rest ih =>
    rw [List.length_cons] at slots
    obtain ⟨slot,isSlot⟩ : ∃ slot, frameSlots[s.idx]? = some slot := ⟨_,List.getElem?_eq_getElem (by omega)⟩
    have own := aligned page List.mem_cons_self
    have whole : WholePage (page,pageBytes data seg page) := ⟨own,length_pageBytes data seg page⟩
    have covers : overlay page (pageBytes data seg page) (mapFrame s.mem page (content slot)) =
        overlay page (pageBytes data seg page) s.mem := overlay_mapFrame whole (content slot)
    have filled := fillPage_mapped placed sized (mapped_mapFrame (m := s.mem) own (content slot)) own
    rw [covers] at filled
    obtain ⟨s',ran,isMem,isIdx⟩ := ih (fun other member => aligned other (List.mem_cons_of_mem page member))
      (s := { mem := overlay page (pageBytes data seg page) s.mem, idx := s.idx + 1, pageMap := insertPage s.pageMap page slot })
      (by change s.idx + 1 + rest.length ≤ _; omega)
    refine ⟨s',?_,isMem,?_⟩
    · rw [loadPages,loadPage,isSlot]
      dsimp only
      rw [answers,if_neg (by simp),filled]
      exact ran
    · rw [isIdx,List.length_cons]
      change s.idx + 1 + rest.length = _
      omega

theorem populate_ok {segments : List ElfSegment} (placed : ∀ seg ∈ segments, Placed data seg.toSegment) {s : Loading}
    (slots : s.idx + (allPages (segments.map rangeOf)).length ≤ frameSlots.length) :
    ∃ s', populate frameMap content frameSlots data s segments = .ok s' ∧ s'.mem = layPages s.mem (allBlocks data segments) := by
  induction segments generalizing s with
  | nil => exact ⟨s,rfl,rfl⟩
  | cons seg rest ih =>
    have own := placed seg List.mem_cons_self
    rw [List.map_cons,allPages_cons,List.length_append] at slots
    change s.idx + ((segmentPages seg.vaddr seg.memsz).length + _) ≤ _ at slots
    have aligned : ∀ page ∈ segmentPages seg.vaddr seg.memsz, page.toNat % PAGE_SIZE = 0 :=
      fun page member => ((mem_segmentPages_iff own.room).mp member).1
    obtain ⟨t,ran,isMem,isIdx⟩ : ∃ t,
        loadPages frameMap content frameSlots data seg.toSegment s (segmentPages seg.vaddr seg.memsz) = .ok t ∧
        t.mem = layPages s.mem ((segmentPages seg.vaddr seg.memsz).map fun page => (page,pageBytes data seg.toSegment page)) ∧
        t.idx = s.idx + (segmentPages seg.vaddr seg.memsz).length := loadPages_ok answers sized own aligned (by omega)
    obtain ⟨s',ran',isMem'⟩ := ih (fun other member => placed other (List.mem_cons_of_mem seg member)) (s := t) (by omega)
    refine ⟨s',?_,?_⟩
    · rw [populate,ran]
      exact ran'
    · have split : allBlocks data (seg :: rest) =
          (segmentPages seg.vaddr seg.memsz).map (fun page => (page,pageBytes data seg.toSegment page)) ++ allBlocks data rest :=
        blocksOf_cons rangeOf _ seg rest
      rw [isMem',isMem,split]
      exact List.foldl_append.symm

end

/-! ## The image -/

/-- The memory has a segment: its bytes of the file, and zeros behind them. -/
structure ImageAt (m : Word → Option Byte) (data : List Byte) (vaddr : Word) (seg : Segment) : Prop where
  file : ∀ k < seg.filesz.toNat, m (vaddr + BitVec.ofNat 64 k) = data[seg.fileOffset.toNat + k]?
  zeros : ∀ k, seg.filesz.toNat ≤ k → k < seg.memsz.toNat → m (vaddr + BitVec.ofNat 64 k) = some 0

/-- The segment starts with a page, or the file has nothing but zeros for the page that it starts in. -/
def BlankStart (data : List Byte) (seg : Segment) : Prop :=
  seg.vaddr.toNat % PAGE_SIZE = 0 ∨ ∀ k < seg.filesz.toNat, k < PAGE_SIZE - seg.vaddr.toNat % PAGE_SIZE →
    data[seg.fileOffset.toNat + k]? = some 0

/-- The loader counts every page once. -/
theorem toNat_totalPages {segments : List ElfSegment} (room : ∀ seg ∈ segments, WrapsNot seg.vaddr seg.memsz)
    (apart : RangesApart (segments.map rangeOf)) :
    (totalPages segments).toNat = (allPages (segments.map rangeOf)).length := by
  have few := few_allPages (List.forall_mem_map.mpr room) apart
  have sums (total : Word) (segments : List ElfSegment) (room : ∀ seg ∈ segments, WrapsNot seg.vaddr seg.memsz) :
      (segments.foldl (fun total seg =>
        total + (pageVaddr (seg.vaddr + seg.memsz + BitVec.ofNat 64 (PAGE_SIZE - 1)) - pageVaddr seg.vaddr) /
          BitVec.ofNat 64 PAGE_SIZE) total).toNat = (total.toNat + (allPages (segments.map rangeOf)).length) % 2 ^ 64 := by
    induction segments generalizing total with
    | nil => exact (Nat.mod_eq_of_lt total.isLt).symm
    | cons seg rest ih =>
      rw [List.foldl_cons,ih _ fun other member => room other (List.mem_cons_of_mem seg member),BitVec.toNat_add,
        ← length_segmentPages (room seg List.mem_cons_self),Nat.mod_add_mod,List.map_cons,allPages_cons,List.length_append,
        Nat.add_assoc]
      rfl
  rw [totalPages]
  refine (sums 0 segments room).trans ?_
  change (0 + _) % _ = _
  rw [Nat.zero_add,Nat.mod_eq_of_lt (Nat.lt_of_le_of_lt few (by decide))]

/-- Byte `k` of a segment, when all pages are filled. -/
theorem byte_loaded {segments : List ElfSegment} (m : RootMem) (sized : data.length < 2 ^ 63)
    (placed : ∀ seg ∈ segments, Placed data seg.toSegment) (apart : RangesApart (segments.map rangeOf)) {seg : ElfSegment}
    (member : seg ∈ segments) {k : Nat} (inside : k < seg.memsz.toNat) :
    layPages m (allBlocks data segments) (seg.vaddr + BitVec.ofNat 64 k) =
      if (seg.vaddr.toNat % PAGE_SIZE = 0 ∨ PAGE_SIZE - seg.vaddr.toNat % PAGE_SIZE ≤ k) ∧ k < seg.filesz.toNat then
        data[seg.fileOffset.toNat + k]?
      else some 0 := by
  have own := placed seg member
  have room : ∀ other ∈ segments, WrapsNot (rangeOf other).1 (rangeOf other).2 :=
    fun other isSegment => (placed other isSegment).room
  have whole : ∀ other ∈ segments, ∀ page ∈ segmentPages (rangeOf other).1 (rangeOf other).2,
      (pageBytes data other.toSegment page).length = PAGE_SIZE := fun other _ page _ => length_pageBytes data other.toSegment page
  obtain ⟨page,inPages,i,low,split,isByte⟩ := @layPages_byte m ElfSegment rangeOf
    (fun seg page => pageBytes data seg.toSegment page) segments room whole apart seg member k inside
  obtain ⟨aligned,near,_⟩ := (mem_segmentPages_iff own.room).mp inPages
  change page.toNat + i = seg.vaddr.toNat + k at split
  change layPages m (allBlocks data segments) (seg.vaddr + BitVec.ofNat 64 k) = _ at isByte
  rw [isByte,pageBytes_at own sized near low]
  change page.toNat % 4096 = 0 at aligned
  change seg.vaddr.toNat < page.toNat + 4096 at near
  change i < 4096 at low
  by_cases before : seg.vaddr.toNat ≤ page.toNat
  · have index : page.toNat - seg.vaddr.toNat + i = k := by omega
    rw [index]
    have behind : seg.vaddr.toNat % 4096 = 0 ∨ 4096 - seg.vaddr.toNat % 4096 ≤ k := by omega
    exact if_congr (and_congr_left fun _ => iff_of_true before behind) rfl rfl
  · have ahead : ¬ (seg.vaddr.toNat % 4096 = 0 ∨ 4096 - seg.vaddr.toNat % 4096 ≤ k) := by omega
    rw [if_neg fun both => before both.1,if_neg fun both => ahead both.1]

/-- With all kernel calls answered by success, the loader leaves the image of the file exactly when every segment starts
    with a page or with zeros up to the next one. -/
theorem loader_image_iff {frameMap : Word → Word → Word} {content : Word → Page} {frameSlots : List Word} {elf : LoadedElf}
    (m : RootMem) (sized : data.length < 2 ^ 63) (placed : ∀ seg ∈ elf.segments, Placed data seg.toSegment)
    (apart : RangesApart (elf.segments.map rangeOf)) (answers : ∀ slot page, frameMap slot page = 0)
    (slots : frameSlots.length = (totalPages elf.segments).toNat) :
    ∃ s, populate frameMap content frameSlots data { mem := m, idx := 0, pageMap := { frames := [], sorted := .nil } }
        elf.segments = .ok s ∧
      ((∀ seg ∈ elf.segments, ImageAt s.mem data seg.vaddr seg.toSegment) ↔
        ∀ seg ∈ elf.segments, BlankStart data seg.toSegment) := by
  have enough : 0 + (allPages (elf.segments.map rangeOf)).length ≤ frameSlots.length := by
    rw [slots,toNat_totalPages (fun seg member => (placed seg member).room) apart,Nat.zero_add]
  obtain ⟨s,ran,isMem⟩ := @populate_ok data frameMap content frameSlots answers sized elf.segments placed
    { mem := m, idx := 0, pageMap := { frames := [], sorted := .nil } } enough
  refine ⟨s,ran,forall_congr' fun seg => imp_congr_right fun member => ?_⟩
  have byte {k : Nat} (inside : k < seg.memsz.toNat) := byte_loaded m sized placed apart member inside
  have shorter := (placed seg member).within
  have inFile := (placed seg member).inFile
  rw [isMem]
  constructor
  · intro image
    refine or_iff_not_imp_left.mpr ?_
    intro unaligned k inFilePart early
    have loaded := image.file k inFilePart
    rw [byte (by omega),if_neg fun both => both.1.elim unaligned (Nat.not_le.mpr early)] at loaded
    exact loaded.symm
  · intro blank
    refine ⟨fun k inFilePart => ?_,fun k behind inside => ?_⟩
    · rw [byte (by omega)]
      by_cases own : seg.vaddr.toNat % PAGE_SIZE = 0 ∨ PAGE_SIZE - seg.vaddr.toNat % PAGE_SIZE ≤ k
      · exact if_pos ⟨own,inFilePart⟩
      · obtain ⟨unaligned,early⟩ := not_or.mp own
        rw [if_neg fun both => own both.1,blank.resolve_left unaligned k inFilePart (Nat.lt_of_not_le early)]
    · rw [byte inside,if_neg fun both => absurd both.2 (Nat.not_lt.mpr behind)]

/-- Two segments of two pages. The first one starts inside a page, with zeros there; both end with zeros that the file
    does not have. -/
def twoSegments : List ElfSegment :=
  [{ fileOffset := 0, vaddr := 0x400FFC, filesz := 8, memsz := 0x1004, flags := 5 },
    { fileOffset := 8, vaddr := 0x402000, filesz := 3, memsz := 0x1001, flags := 6 }]

/-- The frames hold sevens before. -/
theorem loader_image_iff_two : ∃ s, populate (fun _ _ => 0) (fun _ _ => 7) [5,6,7,8] [0,0,0,0,1,2,3,4,5,6,7]
      { mem := fun _ => none, idx := 0, pageMap := { frames := [], sorted := .nil } } twoSegments = .ok s ∧
    ∀ seg ∈ twoSegments, ImageAt s.mem [0,0,0,0,1,2,3,4,5,6,7] seg.vaddr seg.toSegment := by
  have apart : RangesApart (twoSegments.map rangeOf) := by
    refine List.pairwise_pair.mpr fun page both => ?_
    have first : page ∈ [(0x400000 : Word),0x401000] := both.1
    have second : page ∈ [(0x402000 : Word),0x403000] := both.2
    rcases List.mem_pair.mp first with rfl | rfl <;> revert second <;> decide
  have placed : ∀ seg ∈ twoSegments, Placed [0,0,0,0,1,2,3,4,5,6,7] seg.toSegment := by
    intro seg member
    rcases List.mem_pair.mp member with rfl | rfl <;> exact ⟨by decide,by decide,by unfold WrapsNot; decide⟩
  obtain ⟨s,ran,image⟩ := @loader_image_iff [0,0,0,0,1,2,3,4,5,6,7] (fun _ _ => 0) (fun _ _ => 7) [5,6,7,8] ⟨0x400FFC,twoSegments⟩
    (fun _ => none) (by decide) placed apart (fun _ _ => rfl) (by decide)
  refine ⟨s,ran,image.mpr fun seg member => ?_⟩
  rcases List.mem_pair.mp member with rfl | rfl
  · exact .inr (by decide)
  · exact .inl rfl

/-- A program of one byte at an address. -/
def oneByte (vaddr : Word) : LoadedElf :=
  { entry := vaddr, segments := [{ fileOffset := 0, vaddr := vaddr, filesz := 1, memsz := 1, flags := 5 }] }

private theorem oneByte_placed {vaddr : Word} (room : WrapsNot vaddr 1) :
    ∀ seg ∈ (oneByte vaddr).segments, Placed [7] seg.toSegment := by
  rintro seg member
  obtain rfl := List.mem_singleton.mp member
  exact ⟨Nat.le_refl 1,Nat.le_refl 1,room⟩

/-- Inside a page the byte is not loaded. -/
theorem first_page_blank : ¬ ∀ (frameMap : Word → Word → Word) (content : Word → Page) (frameSlots : List Word)
    (data : List Byte) (elf : LoadedElf) (m : RootMem) (s : Loading), data.length < 2 ^ 63 →
      (∀ seg ∈ elf.segments, Placed data seg.toSegment) → RangesApart (elf.segments.map rangeOf) →
        (∀ slot page, frameMap slot page = 0) →
        frameSlots.length = (totalPages elf.segments).toNat →
          populate frameMap content frameSlots data { mem := m, idx := 0, pageMap := { frames := [], sorted := .nil } }
            elf.segments = .ok s → ∀ seg ∈ elf.segments, ImageAt s.mem data seg.vaddr seg.toSegment := by
  intro all
  have placed : ∀ seg ∈ (oneByte 0x400010).segments, Placed [7] seg.toSegment := oneByte_placed (by unfold WrapsNot; decide)
  have apart : RangesApart ((oneByte 0x400010).segments.map rangeOf) := List.pairwise_singleton _ _
  obtain ⟨s,ran,isMem⟩ := @populate_ok [7] (fun _ _ => 0) (fun _ => Page.zero) [5] (fun _ _ => rfl) (by decide)
    (oneByte 0x400010).segments placed { mem := fun _ => none, idx := 0, pageMap := { frames := [], sorted := .nil } } (by decide)
  have image := all _ _ _ _ _ _ s (by decide) placed apart (fun _ _ => rfl) (by decide) ran _ List.mem_cons_self
  have loaded := image.file 0 (by decide)
  rw [isMem,byte_loaded _ (by decide) placed apart List.mem_cons_self (by decide)] at loaded
  revert loaded
  decide

end Sel4Linux.LoadedImage
