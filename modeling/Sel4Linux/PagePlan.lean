import Sel4Linux.LoadedImage
import Sel4Linux.SyscallSites

/-!
The page plan of the runner (`create_user_task` in `lcl/src/task/runner.rs`). The
segments are moved so that the lowest starts at LOAD_BASE. A page table is recorded
for each region of 2 MiB, a page for each page of a segment, and with the page the
slice of the file for it; then every page is cleared and its slice copied. For
segments at any place in a page this makes the image of the file (`runner_image`).
-/
namespace Sel4Linux.PagePlan
open Sel4Linux.Bytes Sel4Linux.Ipc Sel4Linux.TaskMem Sel4Linux.MemImage Sel4Linux.Execve Sel4Linux.Runs Sel4Linux.Loader
open Sel4Linux.ElfBounds Sel4Linux.Overlay Sel4Linux.RootMemory Sel4Linux.SegmentPages Sel4Linux.LoadedImage
open Sel4Linux.SyscallSites (oneSegment codeSegment)
set_option linter.unusedSimpArgs false

/-! ## The segments -/

/-- The fields of a header that is loadable. -/
def loadable (data : List Byte) (phOff : Word) : Except Fault (Option Segment) := do
  let pType ← release.field data phOff 0 4
  if pType ≠ PT_LOAD then .ok none
  else do
    let seg ← release.segment data phOff
    .ok (some seg)

/-- `reloc_offset`, and the headers that each of the loops looks at; nothing when there is none to load. -/
def relocation (data : List Byte) : Except Fault (Option (Word × List Segment)) :=
  if rejected data then .ok none
  else do
    let h ← readHeader data
    let lowest ← lowestVaddr data h h.phnum.toNat 0 (BitVec.allOnes 64)
    if lowest = BitVec.allOnes 64 then .ok none
    else do
      let segments ← release.forHeaders data h (loadable data) h.phnum.toNat 0
      .ok (some (LOAD_BASE - lowest,segments))

/-! ## Page tables -/

/-- What a page table covers. -/
def REGION_SIZE : Nat := 0x200000

/-- `addr & !0x1FFFFF`. -/
def regionOf (addr : Word) : Word := addr &&& ~~~(BitVec.ofNat 64 (REGION_SIZE - 1))

/-- `(start..end).step_by(0x200000)`. -/
def regionRange (start stop : Word) : List Word :=
  (List.range ((stop.toNat - start.toNat + (REGION_SIZE - 1)) / REGION_SIZE)).map fun i =>
    start + BitVec.ofNat 64 (i * REGION_SIZE)

section
variable (newTable : Word → Except RootStop Unit)

/-- The regions of a segment: a table for each that has none. Whether the kernel maps it does not matter. -/
def recordRegions (mappedPts : List Word) : List Word → Except RootStop (List Word)
  | [] => .ok mappedPts
  | region :: rest =>
    if mappedPts.contains region then recordRegions mappedPts rest
    else do
      newTable region
      recordRegions (mappedPts ++ [region]) rest

def recordTables (relocOffset : Word) (mappedPts : List Word) : List Segment → Except RootStop (List Word)
  | [] => .ok mappedPts
  | seg :: rest => do
    let relocatedStart := seg.vaddr + relocOffset
    let relocatedEnd := relocatedStart + seg.memsz
    let regions := regionRange (regionOf relocatedStart) (regionOf (relocatedEnd + BitVec.ofNat 64 (REGION_SIZE - 1)))
    let mappedPts ← recordRegions newTable mappedPts regions
    recordTables relocOffset mappedPts rest

end

/-! ## Pages -/

/-- `(page_vaddr, file_off, copy_off_in_page, copy_len)`. -/
structure PageInfo where
  pageVaddr : Word
  fileOff : Word
  copyOffInPage : Word
  copyLen : Word
  deriving DecidableEq

/-- The part of the file for a page. -/
def planPage (seg : Segment) (segStart pageVaddr : Word) : PageInfo :=
  let segFileEnd := segStart + seg.filesz
  let pageEnd := pageVaddr + BitVec.ofNat 64 PAGE_SIZE
  let copyVstart := if segStart ≤ pageVaddr then pageVaddr else segStart
  let copyVend := if segFileEnd ≤ pageEnd then segFileEnd else pageEnd
  if copyVstart < copyVend then
    { pageVaddr := pageVaddr, fileOff := seg.fileOffset + (copyVstart - segStart), copyOffInPage := copyVstart - pageVaddr,
      copyLen := copyVend - copyVstart }
  else { pageVaddr := pageVaddr, fileOff := 0, copyOffInPage := 0, copyLen := 0 }

/-- The pages of a segment that are not listed yet. -/
def planPages (seg : Segment) (segStart : Word) (pageInfo : List PageInfo) : List Word → List PageInfo
  | [] => pageInfo
  | page :: rest =>
    if pageInfo.any fun info => info.pageVaddr = page then planPages seg segStart pageInfo rest
    else planPages seg segStart (pageInfo ++ [planPage seg segStart page]) rest

def pagePlan (relocOffset : Word) (pageInfo : List PageInfo) : List Segment → List PageInfo
  | [] => pageInfo
  | seg :: rest =>
    let segStart := seg.vaddr + relocOffset
    pagePlan relocOffset (planPages seg segStart pageInfo (segmentPages segStart seg.memsz)) rest

/-- A page is cleared, then its slice of the file is copied. -/
def fillInfo (data : List Byte) (m : RootMem) (info : PageInfo) : Except RootStop RootMem := do
  let m ← store m info.pageVaddr (List.replicate PAGE_SIZE 0)
  let stop := info.fileOff + info.copyLen
  if 0 < info.copyLen ∧ stop.toNat ≤ data.length then
    match slice data info.fileOff stop with
    | .ok part => store m (info.pageVaddr + info.copyOffInPage) part
    | .error f => .error (.panic f)
  else .ok m

section
variable (frameMap : Word → Word → Word) (content : Word → Page) (frameSlots : List Word) (data : List Byte)

/-- The loop over the listed pages: a frame for each, and its bytes. -/
def populatePlan (m : RootMem) (idx : Nat) : List PageInfo → Except RootStop RootMem
  | [] => .ok m
  | info :: rest =>
    match frameSlots[idx]? with
    | none => .error (.panic .range)
    | some frameSlot => do
      let err := frameMap frameSlot info.pageVaddr
      if err ≠ 0 then .error (.refused err)
      else do
        let m ← fillInfo data (mapFrame m info.pageVaddr (content frameSlot)) info
        populatePlan m (idx + 1) rest

end

/-! ## What the header loops give -/

/-- The lowest address of some segments, or of `lowest`. -/
def lowestOf (lowest : Word) (segments : List ElfSegment) : Word :=
  segments.foldl (fun lowest seg => if seg.vaddr < lowest then seg.vaddr else lowest) lowest

/-- It is below all of them, and one of them. -/
theorem lowestOf_bounds (acc : Word) (segments : List ElfSegment) : lowestOf acc segments ≤ acc ∧
    (∀ seg ∈ segments, lowestOf acc segments ≤ seg.vaddr) ∧
      (lowestOf acc segments = acc ∨ ∃ seg ∈ segments, seg.vaddr = lowestOf acc segments) := by
  induction segments generalizing acc with
  | nil =>
    refine ⟨BitVec.le_refl acc,?_,.inl rfl⟩
    rintro seg member
    cases member
  | cons first rest ih =>
    have step : lowestOf acc (first :: rest) = lowestOf (if first.vaddr < acc then first.vaddr else acc) rest := rfl
    have next : (if first.vaddr < acc then first.vaddr else acc) ≤ acc ∧
        (if first.vaddr < acc then first.vaddr else acc) ≤ first.vaddr := by
      split
      · next less => exact ⟨Nat.le_of_lt less,BitVec.le_refl _⟩
      · next notLess => exact ⟨BitVec.le_refl _,Nat.le_of_not_lt notLess⟩
    obtain ⟨atMost,each,own⟩ := ih (if first.vaddr < acc then first.vaddr else acc)
    rw [step]
    refine ⟨BitVec.le_trans atMost next.1,fun seg member => ?_,?_⟩
    · rcases List.mem_cons.mp member with rfl | later
      · exact BitVec.le_trans atMost next.2
      · exact each seg later
    · rcases own with same | ⟨seg,member,same⟩
      · rw [same]
        split
        · exact .inr ⟨first,List.mem_cons_self,rfl⟩
        · exact .inl rfl
      · exact .inr ⟨seg,List.mem_cons_of_mem first member,same⟩

theorem lowestOf_eq {segments : List ElfSegment} {acc lowest : Word} (there : ∃ seg ∈ segments, seg.vaddr = lowest)
    (least : ∀ seg ∈ segments, lowest ≤ seg.vaddr) (below : lowest ≤ acc) : lowestOf acc segments = lowest := by
  obtain ⟨_,each,own⟩ := lowestOf_bounds acc segments
  obtain ⟨seg,member,rfl⟩ := there
  refine BitVec.le_antisymm (each seg member) ?_
  rcases own with same | ⟨other,member',same⟩
  · rw [same]
    exact below
  · rw [← same]
    exact least other member'

theorem lowestVaddr_parsed {data : List Byte} {h : ElfHeader} {n i : Nat} {acc : Word} {segments : List ElfSegment}
    (read : release.forHeaders data h (release.parseSegment data) n i = .ok segments) :
    lowestVaddr data h n i acc = .ok (lowestOf acc segments) := by
  induction n generalizing i acc segments with
  | zero =>
    cases read
    rfl
  | succ n ih =>
    rw [Arith.forHeaders] at read
    change (if data.length < (h.offset i + 56).toNat then Except.ok [] else _) = _ at read
    rw [lowestVaddr]
    by_cases past : data.length < (h.offset i + 56).toNat
    · rw [if_pos past] at read ⊢
      cases read
      rfl
    · rw [if_neg past] at read ⊢
      obtain ⟨here,visited,read⟩ := bind_ok_iff.mp read
      obtain ⟨rest,later,read⟩ := bind_ok_iff.mp read
      cases read
      obtain ⟨pType,isType,visited⟩ := bind_ok_iff.mp visited
      rw [release_field] at isType
      have isType' : field data (h.offset i) 4 = .ok pType := by
        rw [← isType]
        exact congrArg (field data · 4) (BitVec.add_zero _).symm
      rw [isType',ok_bind]
      by_cases load : pType = PT_LOAD
      · rw [if_pos load]
        rw [if_neg (not_not.mpr load)] at visited
        obtain ⟨seg,isSegment,visited⟩ := bind_ok_iff.mp visited
        obtain ⟨flags,_,visited⟩ := bind_ok_iff.mp visited
        cases visited
        obtain ⟨pOffset,_,isSegment⟩ := bind_ok_iff.mp isSegment
        obtain ⟨pVaddr,isVaddr,isSegment⟩ := bind_ok_iff.mp isSegment
        obtain ⟨pFilesz,_,isSegment⟩ := bind_ok_iff.mp isSegment
        obtain ⟨pMemsz,_,isSegment⟩ := bind_ok_iff.mp isSegment
        cases isSegment
        rw [release_field] at isVaddr
        have isVaddr' : field data (h.offset i + 16) 8 = .ok pVaddr := isVaddr
        rw [isVaddr',ok_bind,ih later]
        rfl
      · rw [if_neg load]
        rw [if_pos load] at visited
        cases visited
        exact ih later

theorem loadable_parsed {data : List Byte} {h : ElfHeader} {n i : Nat} {segments : List ElfSegment}
    (read : release.forHeaders data h (release.parseSegment data) n i = .ok segments) :
    release.forHeaders data h (loadable data) n i = .ok (segments.map ElfSegment.toSegment) := by
  have visits : ∀ phOff x, release.parseSegment data phOff = .ok x →
      ∃ y, loadable data phOff = .ok y ∧ Option.Rel (fun (seg : ElfSegment) own => seg.toSegment = own) x y := by
    intro phOff x visited
    obtain ⟨pType,isType,visited⟩ := bind_ok_iff.mp visited
    by_cases load : pType ≠ PT_LOAD
    · rw [if_pos load] at visited
      cases visited
      exact ⟨none,by rw [loadable,isType,ok_bind,if_pos load],.none⟩
    · rw [if_neg load] at visited
      obtain ⟨seg,isSegment,visited⟩ := bind_ok_iff.mp visited
      obtain ⟨flags,_,visited⟩ := bind_ok_iff.mp visited
      cases visited
      exact ⟨some seg,by rw [loadable,isType,ok_bind,if_neg load,isSegment,ok_bind],.some rfl⟩
  obtain ⟨own,ran,same⟩ := forHeaders_simulates (Arith.Below.refl release) visits read
  rw [ran,← List.forall₂_eq_eq_eq.le _ _ (List.forall₂_map_left_iff.mpr same)]

/-- The loops of the runner look at the headers that `parse_elf` returns. -/
theorem relocation_parsed {data : List Byte} {elf : LoadedElf} {lowest : Word}
    (read : parseElf release data = .ok (some elf)) (there : ∃ seg ∈ elf.segments, seg.vaddr = lowest)
    (least : ∀ seg ∈ elf.segments, lowest ≤ seg.vaddr) (found : lowest ≠ BitVec.allOnes 64) :
    relocation data = .ok (some (LOAD_BASE - lowest,elf.segments.map ElfSegment.toSegment)) := by
  rw [parseElf] at read
  rw [relocation]
  cases isRejected : rejected data with
  | true =>
    rw [isRejected,if_pos rfl] at read
    cases read
  | false =>
    rw [isRejected,if_neg Bool.false_ne_true] at read
    rw [if_neg Bool.false_ne_true]
    obtain ⟨h,isHeader,read⟩ := bind_ok_iff.mp read
    obtain ⟨segments,ran,read⟩ := bind_ok_iff.mp read
    cases read
    rw [release_lift] at isHeader
    have most : lowest ≤ BitVec.allOnes 64 := by
      have bound := lowest.isLt
      rw [BitVec.le_def,BitVec.toNat_allOnes]
      omega
    have isLowest := lowestOf_eq there least most
    rw [isHeader,ok_bind,lowestVaddr_parsed ran,ok_bind,isLowest,if_neg found,loadable_parsed ran,ok_bind]

/-! ## A table for each region -/

/-- The regions that a segment is looked up in. -/
def segmentRegions (vaddr memsz : Word) : List Word :=
  regionRange (regionOf vaddr) (regionOf (vaddr + memsz + BitVec.ofNat 64 (REGION_SIZE - 1)))

theorem toNat_regionOf (addr : Word) : (regionOf addr).toNat = addr.toNat - addr.toNat % 0x200000 :=
  toNat_and_not_low addr (k := 21) rfl

theorem mem_regionRange {start stop region : Word} (first : start.toNat % 0x200000 = 0) (own : region.toNat % 0x200000 = 0)
    (above : start.toNat ≤ region.toNat) (below : region.toNat < stop.toNat) : region ∈ regionRange start stop := by
  have bound := region.isLt
  refine List.mem_map.mpr ⟨(region.toNat - start.toNat) / 0x200000,List.mem_range.mpr ?_,?_⟩
  · change _ < (_ + 0x1FFFFF) / 0x200000
    omega
  · have back : (region.toNat - start.toNat) / 0x200000 * REGION_SIZE = region.toNat - start.toNat := by
      change _ * 0x200000 = _
      omega
    rw [back]
    apply BitVec.eq_of_toNat_eq
    rw [toNat_advance_of_lt (by omega)]
    omega

/-- The region of a page is one of those of its segment. -/
theorem regionOf_page {vaddr memsz page : Word} (room : vaddr.toNat + memsz.toNat + (REGION_SIZE - 1) < 2 ^ 64)
    (member : page ∈ segmentPages vaddr memsz) : regionOf page ∈ segmentRegions vaddr memsz := by
  change vaddr.toNat + memsz.toNat + 0x1FFFFF < 2 ^ 64 at room
  have few : WrapsNot vaddr memsz := by
    change vaddr.toNat + memsz.toNat + 4095 < 2 ^ 64
    omega
  obtain ⟨aligned,near,inside⟩ := (mem_segmentPages_iff few).mp member
  change page.toNat % 4096 = 0 at aligned
  change vaddr.toNat < page.toNat + 4096 at near
  have stop : (vaddr + memsz + BitVec.ofNat 64 0x1FFFFF).toNat = vaddr.toNat + memsz.toNat + 0x1FFFFF := by
    rw [BitVec.toNat_add,BitVec.toNat_add,Nat.mod_eq_of_lt (by omega : vaddr.toNat + memsz.toNat < 2 ^ 64)]
    exact Nat.mod_eq_of_lt room
  have last := toNat_regionOf (vaddr + memsz + BitVec.ofNat 64 0x1FFFFF)
  have first := toNat_regionOf vaddr
  have own := toNat_regionOf page
  rw [stop] at last
  refine mem_regionRange ?_ ?_ ?_ ?_
  · omega
  · omega
  · omega
  · change _ < (regionOf (vaddr + memsz + BitVec.ofNat 64 0x1FFFFF)).toNat
    omega

section
variable {newTable : Word → Except RootStop Unit} (answers : ∀ region, newTable region = .ok ())
include answers

theorem recordRegions_ok {mappedPts : List Word} (once : mappedPts.Nodup) (regions : List Word) :
    ∃ pts, recordRegions newTable mappedPts regions = .ok pts ∧ pts.Nodup ∧ ∀ r, r ∈ pts ↔ r ∈ mappedPts ∨ r ∈ regions := by
  induction regions generalizing mappedPts with
  | nil => exact ⟨mappedPts,rfl,once,fun r => by simp⟩
  | cons region rest ih =>
    rw [recordRegions]
    by_cases known : region ∈ mappedPts
    · obtain ⟨pts,ran,once',mem⟩ := ih once
      refine ⟨pts,?_,once',fun r => ?_⟩
      · rw [if_pos (List.contains_iff_mem.mpr known)]
        exact ran
      · rw [mem,List.mem_cons]
        constructor
        · rintro (old | new)
          · exact .inl old
          · exact .inr (.inr new)
        · rintro (old | rfl | new)
          · exact .inl old
          · exact .inl known
          · exact .inr new
    · have once' : (mappedPts ++ [region]).Nodup := by
        refine List.nodup_append.mpr ⟨once,List.nodup_singleton region,?_⟩
        rintro r old other new rfl
        exact known (List.mem_singleton.mp new ▸ old)
      obtain ⟨pts,ran,once'',mem⟩ := ih once'
      refine ⟨pts,?_,once'',fun r => ?_⟩
      · rw [if_neg (mt List.contains_iff_mem.mp known),answers,ok_bind]
        exact ran
      · rw [mem,List.mem_append,List.mem_singleton,List.mem_cons,or_assoc]

theorem recordTables_ok (relocOffset : Word) {mappedPts : List Word} (once : mappedPts.Nodup) (segments : List Segment) :
    ∃ pts, recordTables newTable relocOffset mappedPts segments = .ok pts ∧ pts.Nodup ∧
      ∀ seg ∈ segments, ∀ r ∈ segmentRegions (seg.vaddr + relocOffset) seg.memsz, r ∈ pts := by
  have spec : ∃ pts, recordTables newTable relocOffset mappedPts segments = .ok pts ∧ pts.Nodup ∧
      ∀ r, (r ∈ mappedPts ∨ ∃ seg ∈ segments, r ∈ segmentRegions (seg.vaddr + relocOffset) seg.memsz) → r ∈ pts := by
    induction segments generalizing mappedPts with
    | nil =>
      refine ⟨mappedPts,rfl,once,?_⟩
      rintro r (old | ⟨seg,member,_⟩)
      · exact old
      · cases member
    | cons seg rest ih =>
      obtain ⟨own,ran,once',mem⟩ := recordRegions_ok answers once (segmentRegions (seg.vaddr + relocOffset) seg.memsz)
      obtain ⟨pts,ran',once'',mem'⟩ := ih once'
      refine ⟨pts,?_,once'',?_⟩
      · rw [recordTables]
        change (recordRegions newTable mappedPts (segmentRegions (seg.vaddr + relocOffset) seg.memsz) >>= fun mappedPts =>
          recordTables newTable relocOffset mappedPts rest) = _
        rw [ran,ok_bind,ran']
      · rintro r (old | ⟨other,member,new⟩)
        · exact mem' r (.inl ((mem r).mpr (.inl old)))
        · rcases List.mem_cons.mp member with rfl | later
          · exact mem' r (.inl ((mem r).mpr (.inr new)))
          · exact mem' r (.inr ⟨other,later,new⟩)
  obtain ⟨pts,ran,once',mem⟩ := spec
  exact ⟨pts,ran,once',fun seg member r new => mem r (.inr ⟨seg,member,new⟩)⟩

end

/-! ## The listed pages -/

/-- The address range of a segment when it is moved. -/
def relocated (relocOffset : Word) (seg : Segment) : Word × Word := (seg.vaddr + relocOffset,seg.memsz)

@[simp] theorem planPage_pageVaddr (seg : Segment) (segStart page : Word) : (planPage seg segStart page).pageVaddr = page := by
  rw [planPage]
  exact (apply_ite PageInfo.pageVaddr _ _ _).trans (ite_self page)

/-- Pages that are new are all listed. -/
theorem planPages_new {seg : Segment} {segStart : Word} {pageInfo : List PageInfo} {pages : List Word} (once : pages.Nodup)
    (new : ∀ page ∈ pages, page ∉ pageInfo.map PageInfo.pageVaddr) :
    planPages seg segStart pageInfo pages = pageInfo ++ pages.map (planPage seg segStart) := by
  induction pages generalizing pageInfo with
  | nil => exact (List.append_nil pageInfo).symm
  | cons page rest ih =>
    obtain ⟨fresh,once'⟩ := List.nodup_cons.mp once
    have unlisted : (pageInfo.any fun info => info.pageVaddr = page) ≠ true := by
      intro listed
      obtain ⟨info,member,same⟩ := List.any_eq_true.mp listed
      exact new page List.mem_cons_self (List.mem_map.mpr ⟨info,member,of_decide_eq_true same⟩)
    rw [planPages,if_neg unlisted,ih once',List.append_assoc]
    · rfl
    · intro other member
      rw [List.map_append,List.mem_append,List.map_singleton,planPage_pageVaddr,List.mem_singleton]
      rintro (old | rfl)
      · exact new other (List.mem_cons_of_mem page member) old
      · exact fresh member

/-- The pages of all segments with their parts of the file. -/
def planned (relocOffset : Word) (segments : List Segment) : List PageInfo :=
  segments.flatMap fun seg => (segmentPages (seg.vaddr + relocOffset) seg.memsz).map (planPage seg (seg.vaddr + relocOffset))

theorem planned_pages (relocOffset : Word) (segments : List Segment) :
    (planned relocOffset segments).map PageInfo.pageVaddr = allPages (segments.map (relocated relocOffset)) := by
  rw [planned,allPages,List.map_flatMap,List.flatMap_map]
  refine congrArg (List.flatMap · segments) (funext fun seg => ?_)
  rw [List.map_map]
  exact (List.map_congr_left fun page _ => planPage_pageVaddr seg _ page).trans (List.map_id _)

theorem pagePlan_apart {relocOffset : Word} {segments : List Segment} (apart : RangesApart (segments.map (relocated relocOffset))) :
    pagePlan relocOffset [] segments = planned relocOffset segments := by
  have appends : ∀ pageInfo : List PageInfo,
      (∀ page ∈ allPages (segments.map (relocated relocOffset)), page ∉ pageInfo.map PageInfo.pageVaddr) →
        pagePlan relocOffset pageInfo segments = pageInfo ++ planned relocOffset segments := by
    induction segments with
    | nil => exact fun pageInfo _ => (List.append_nil pageInfo).symm
    | cons seg rest ih =>
      intro pageInfo new
      rw [List.map_cons,RangesApart,List.pairwise_cons] at apart
      rw [List.map_cons,allPages_cons] at new
      have own : planPages seg (seg.vaddr + relocOffset) pageInfo (segmentPages (seg.vaddr + relocOffset) seg.memsz) =
          pageInfo ++ (segmentPages (seg.vaddr + relocOffset) seg.memsz).map (planPage seg (seg.vaddr + relocOffset)) :=
        planPages_new (nodup_segmentPages _ _) fun page member => new page (List.mem_append_left _ member)
      rw [pagePlan,own,ih apart.2,List.append_assoc]
      · rfl
      · intro page member
        rw [List.map_append,List.mem_append,List.map_map]
        rintro (old | listed)
        · exact new page (List.mem_append_right _ member) old
        · obtain ⟨same,inOwn,rfl⟩ := List.mem_map.mp listed
          obtain ⟨other,isOther,inOther⟩ := List.mem_flatMap.mp member
          rw [Function.comp_apply,planPage_pageVaddr] at inOther
          exact apart.1 other isOther same ⟨inOwn,inOther⟩
  exact appends [] fun page _ listed => by cases listed

/-! ## One page -/

/-- A segment's bytes are in the file, and no address of it or of its page tables wraps around. -/
structure Fits (data : List Byte) (vaddr : Word) (seg : Segment) : Prop where
  within : seg.filesz.toNat ≤ seg.memsz.toNat
  inFile : seg.fileOffset.toNat + seg.filesz.toNat ≤ data.length
  room : vaddr.toNat + seg.memsz.toNat + (REGION_SIZE - 1) < 2 ^ 64

theorem Fits.wrapsNot {data : List Byte} {vaddr : Word} {seg : Segment} (fits : Fits data vaddr seg) :
    WrapsNot vaddr seg.memsz := by
  have room := fits.room
  change vaddr.toNat + seg.memsz.toNat + 0x1FFFFF < 2 ^ 64 at room
  change vaddr.toNat + seg.memsz.toNat + 4095 < 2 ^ 64
  omega

/-- A listed part of a page is in the page and in the file. -/
structure InfoFits (data : List Byte) (info : PageInfo) : Prop where
  aligned : info.pageVaddr.toNat % PAGE_SIZE = 0
  inPage : info.copyOffInPage.toNat + info.copyLen.toNat ≤ PAGE_SIZE
  inFile : info.fileOff.toNat + info.copyLen.toNat ≤ data.length

/-- A page that is cleared and has its part of the file. -/
def infoBytes (data : List Byte) (info : PageInfo) : List Byte :=
  List.replicate info.copyOffInPage.toNat 0 ++ (((data.drop info.fileOff.toNat).take info.copyLen.toNat) ++
    List.replicate (PAGE_SIZE - (info.copyOffInPage.toNat + info.copyLen.toNat)) 0)

variable {data : List Byte} {info : PageInfo} {m : RootMem}

theorem length_infoBytes (fits : InfoFits data info) : (infoBytes data info).length = PAGE_SIZE := by
  have inPage := fits.inPage
  have inFile := fits.inFile
  rw [infoBytes,List.length_append,List.length_append,List.length_replicate,List.length_replicate,List.length_take,List.length_drop]
  omega

/-- What is copied for a page of a segment: the addresses that the page and the segment's file bytes share. -/
theorem planPage_shares {seg : Segment} {segStart page : Word} (fits : Fits data segStart seg) (sized : data.length < 2 ^ 63)
    (member : page ∈ segmentPages segStart seg.memsz) :
    (planPage seg segStart page = { pageVaddr := page, fileOff := 0, copyOffInPage := 0, copyLen := 0 } ∧
        (segStart.toNat + seg.filesz.toNat ≤ page.toNat ∨ seg.filesz.toNat = 0)) ∨
      ∃ first last, first = max segStart.toNat page.toNat ∧ last = min (segStart.toNat + seg.filesz.toNat) (page.toNat + 4096) ∧
        first < last ∧ (planPage seg segStart page).fileOff.toNat = seg.fileOffset.toNat + (first - segStart.toNat) ∧
          (planPage seg segStart page).copyOffInPage.toNat = first - page.toNat ∧
            (planPage seg segStart page).copyLen.toNat = last - first := by
  have within := fits.within
  have inFile := fits.inFile
  have room := fits.room
  change segStart.toNat + seg.memsz.toNat + 0x1FFFFF < 2 ^ 64 at room
  obtain ⟨_,near,inside⟩ := (mem_segmentPages_iff fits.wrapsNot).mp member
  change segStart.toNat < page.toNat + 4096 at near
  have fileEnd : (segStart + seg.filesz).toNat = segStart.toNat + seg.filesz.toNat := by
    rw [BitVec.toNat_add_of_lt (by omega)]
  have pageEnd : (page + BitVec.ofNat 64 PAGE_SIZE).toNat = page.toNat + 4096 := by
    rw [toNat_advance (by decide)]
    change (_ + 4096) % _ = _
    rw [Nat.mod_eq_of_lt (by omega)]
  obtain ⟨first,isFirst,firstAt⟩ : ∃ first, (if segStart ≤ page then page else segStart) = first ∧
      first.toNat = max segStart.toNat page.toNat := by
    refine ⟨_,rfl,?_⟩
    split
    · next before => exact (Nat.max_eq_right before).symm
    · next after => exact (Nat.max_eq_left (Nat.le_of_not_le after)).symm
  obtain ⟨last,isLast,lastAt⟩ : ∃ last, (if segStart + seg.filesz ≤ page + BitVec.ofNat 64 PAGE_SIZE then segStart + seg.filesz
      else page + BitVec.ofNat 64 PAGE_SIZE) = last ∧
        last.toNat = min (segStart.toNat + seg.filesz.toNat) (page.toNat + 4096) := by
    refine ⟨_,rfl,?_⟩
    rw [← fileEnd,← pageEnd]
    split
    · next before => exact (Nat.min_eq_left before).symm
    · next after => exact (Nat.min_eq_right (Nat.le_of_not_le after)).symm
  rw [planPage,isFirst,isLast]
  by_cases shares : first < last
  · have less : first.toNat < last.toNat := shares
    rw [if_pos shares]
    refine .inr ⟨first.toNat,last.toNat,firstAt,lastAt,less,?_,?_,?_⟩
    · rw [BitVec.toNat_add,BitVec.toNat_sub_of_le (BitVec.le_def.mpr (by omega)),Nat.mod_eq_of_lt (by omega)]
    · exact BitVec.toNat_sub_of_le (BitVec.le_def.mpr (by omega))
    · exact BitVec.toNat_sub_of_le (BitVec.le_def.mpr (by omega))
  · have notLess : ¬ first.toNat < last.toNat := shares
    rw [if_neg shares]
    exact .inl ⟨rfl,by omega⟩

theorem planPage_fits {seg : Segment} {segStart page : Word} (fits : Fits data segStart seg) (sized : data.length < 2 ^ 63)
    (member : page ∈ segmentPages segStart seg.memsz) : InfoFits data (planPage seg segStart page) := by
  have inFile := fits.inFile
  have aligned := ((mem_segmentPages_iff fits.wrapsNot).mp member).1
  rcases planPage_shares fits sized member with ⟨blank,_⟩ | ⟨first,last,firstAt,lastAt,less,fileOff,offset,len⟩
  · rw [blank]
    exact ⟨aligned,Nat.zero_le _,Nat.zero_le _⟩
  · refine ⟨by rw [planPage_pageVaddr]; exact aligned,?_,?_⟩
    · rw [offset,len]
      change _ ≤ 4096
      omega
    · rw [fileOff,len]
      omega

/-- The bytes of a part that is in the file. -/
theorem infoBytes_get (fits : InfoFits data info) {i : Nat} (low : i < PAGE_SIZE) : (infoBytes data info)[i]? =
    if info.copyOffInPage.toNat ≤ i ∧ i < info.copyOffInPage.toNat + info.copyLen.toNat then
      data[info.fileOff.toNat + (i - info.copyOffInPage.toNat)]?
    else some 0 := by
  have inPage := fits.inPage
  have inFile := fits.inFile
  have long : ((data.drop info.fileOff.toNat).take info.copyLen.toNat).length = info.copyLen.toNat := by
    rw [List.length_take,List.length_drop]
    omega
  rw [infoBytes]
  rcases Nat.lt_or_ge i info.copyOffInPage.toNat with early | behind
  · rw [List.getElem?_append_left (by rw [List.length_replicate]; exact early),List.getElem?_replicate_of_lt early,
      if_neg (by omega)]
  rw [List.getElem?_append_right (by rw [List.length_replicate]; exact behind),List.length_replicate]
  rcases Nat.lt_or_ge i (info.copyOffInPage.toNat + info.copyLen.toNat) with own | past
  · rw [List.getElem?_append_left (by omega),List.getElem?_take_of_lt (by omega),List.getElem?_drop,if_pos ⟨behind,own⟩]
  · rw [List.getElem?_append_right (by omega),long,if_neg (by omega),List.getElem?_replicate_of_lt (by omega)]

/-- Byte `i` of a page of a segment. -/
theorem infoBytes_at {seg : Segment} {segStart page : Word} (fits : Fits data segStart seg) (sized : data.length < 2 ^ 63)
    (member : page ∈ segmentPages segStart seg.memsz) {i : Nat} (inPage : i < PAGE_SIZE) :
    (infoBytes data (planPage seg segStart page))[i]? =
      if segStart.toNat ≤ page.toNat + i ∧ page.toNat + i < segStart.toNat + seg.filesz.toNat then
        data[seg.fileOffset.toNat + (page.toNat + i - segStart.toNat)]?
      else some 0 := by
  rw [infoBytes_get (planPage_fits fits sized member) inPage]
  change i < 4096 at inPage
  rcases planPage_shares fits sized member with ⟨blank,none⟩ | ⟨first,last,firstAt,lastAt,less,fileOff,offset,len⟩
  · rw [blank,if_neg (by simp),if_neg (by omega)]
  · rw [fileOff,offset,len]
    by_cases own : first - page.toNat ≤ i ∧ i < first - page.toNat + (last - first)
    · rw [if_pos own,if_pos (by omega)]
      congr 1
      omega
    · rw [if_neg own,if_neg (by omega)]

theorem fillInfo_mapped (sized : data.length < 2 ^ 63) (fits : InfoFits data info)
    (mapped : Mapped m info.pageVaddr.toNat (info.pageVaddr.toNat + PAGE_SIZE)) :
    fillInfo data m info = .ok (overlay info.pageVaddr (infoBytes data info) m) := by
  have aligned := fits.aligned
  have inPage := fits.inPage
  have inFile := fits.inFile
  have bound := info.pageVaddr.isLt
  have size : PAGE_SIZE = 4096 := rfl
  rw [size] at mapped aligned inPage
  have length : (List.replicate 4096 (0 : Byte)).length = 4096 := List.length_replicate
  have cleared : store m info.pageVaddr (List.replicate 4096 0) = .ok (overlay info.pageVaddr (List.replicate 4096 0) m) :=
    store_mapped mapped (Nat.le_refl _) (by rw [length]) (by omega)
  have stop : (info.fileOff + info.copyLen).toNat = info.fileOff.toNat + info.copyLen.toNat := by
    rw [BitVec.toNat_add_of_lt (by omega)]
  have part : slice data info.fileOff (info.fileOff + info.copyLen) =
    .ok ((data.drop info.fileOff.toNat).take info.copyLen.toNat) :=
    (slice_ok_iff _ _ _ _).mpr ⟨by omega,by omega,by rw [stop,List.take_drop]⟩
  have isBytes : infoBytes data info = List.replicate info.copyOffInPage.toNat 0 ++
      ((data.drop info.fileOff.toNat).take info.copyLen.toNat ++
        List.replicate (4096 - (info.copyOffInPage.toNat + info.copyLen.toNat)) 0) := rfl
  have count : ((data.drop info.fileOff.toNat).take info.copyLen.toNat).length = info.copyLen.toNat := by
    rw [List.length_take,List.length_drop]
    omega
  rw [fillInfo,size,cleared,ok_bind]
  simp only [part]
  rw [isBytes]
  generalize (data.drop info.fileOff.toNat).take info.copyLen.toNat = text at count ⊢
  have inside : overlay (info.pageVaddr + BitVec.ofNat 64 info.copyOffInPage.toNat) text
        (overlay info.pageVaddr (List.replicate 4096 0) m) =
      overlay info.pageVaddr (List.replicate info.copyOffInPage.toNat 0 ++
        (text ++ List.replicate (4096 - (info.copyOffInPage.toNat + info.copyLen.toNat)) 0)) m := by
    rw [overlay_inside (by rw [count,length]; exact inPage) (by rw [length]; decide),List.take_replicate,List.drop_replicate,count,
      Nat.min_eq_left (by omega)]
  rw [← inside,BitVec.ofNat_toNat,BitVec.setWidth_eq]
  by_cases some' : 0 < info.copyLen
  · have behind : (info.pageVaddr + info.copyOffInPage).toNat = info.pageVaddr.toNat + info.copyOffInPage.toNat := by
      have positive : 0 < info.copyLen.toNat := some'
      rw [BitVec.toNat_add_of_lt (by omega)]
    rw [if_pos ⟨some',by omega⟩,store_mapped mapped.overlay (by omega) (by omega) (by omega)]
  · have empty : text = [] := by
      have positive : ¬ 0 < info.copyLen.toNat := some'
      exact List.eq_nil_of_length_eq_zero (by omega)
    rw [if_neg fun both => some' both.1,empty,overlay_nil]

/-! ## The image -/

section
variable {frameMap : Word → Word → Word} {content : Word → Page} {frameSlots : List Word}
  (answers : ∀ slot page, frameMap slot page = 0)
include answers

/-- The loop over the listed pages leaves their bytes. -/
theorem populatePlan_ok {pageInfo : List PageInfo} (sized : data.length < 2 ^ 63) (fits : ∀ info ∈ pageInfo, InfoFits data info)
    {idx : Nat} (slots : idx + pageInfo.length ≤ frameSlots.length) :
    populatePlan frameMap content frameSlots data m idx pageInfo =
      .ok (layPages m (pageInfo.map fun info => (info.pageVaddr,infoBytes data info))) := by
  induction pageInfo generalizing m idx with
  | nil => rfl
  | cons info rest ih =>
    rw [List.length_cons] at slots
    obtain ⟨slot,isSlot⟩ : ∃ slot, frameSlots[idx]? = some slot := ⟨_,List.getElem?_eq_getElem (by omega)⟩
    have own := fits info List.mem_cons_self
    have whole : WholePage (info.pageVaddr,infoBytes data info) := ⟨own.aligned,length_infoBytes own⟩
    have covers : overlay info.pageVaddr (infoBytes data info) (mapFrame m info.pageVaddr (content slot)) =
        overlay info.pageVaddr (infoBytes data info) m := overlay_mapFrame whole (content slot)
    rw [populatePlan,isSlot]
    dsimp only
    rw [answers,if_neg (by simp),fillInfo_mapped sized own (mapped_mapFrame own.aligned (content slot)),ok_bind,covers,
      ih (fun other member => fits other (List.mem_cons_of_mem info member)) (by omega)]
    rfl

end

/-- The bytes of a segment's page. -/
def planBytes (data : List Byte) (relocOffset : Word) (seg : Segment) (page : Word) : List Byte :=
  infoBytes data (planPage seg (seg.vaddr + relocOffset) page)

/-- The pages of the segments with their bytes. -/
theorem planned_blocks (relocOffset : Word) (segments : List Segment) :
    (planned relocOffset segments).map (fun info => (info.pageVaddr,infoBytes data info)) =
      blocksOf (relocated relocOffset) (planBytes data relocOffset) segments := by
  rw [planned,blocksOf,List.map_flatMap]
  refine congrArg (List.flatMap · segments) (funext fun seg => ?_)
  rw [List.map_map]
  refine List.map_congr_left ?_
  intro page _
  rw [Function.comp_apply,planPage_pageVaddr,planBytes]

/-- The file's segments, moved so that the lowest is at LOAD_BASE, are in memory when every listed page has its bytes. -/
theorem image_planned {relocOffset : Word} {segments : List Segment} (sized : data.length < 2 ^ 63)
    (fits : ∀ seg ∈ segments, Fits data (seg.vaddr + relocOffset) seg)
    (apart : RangesApart (segments.map (relocated relocOffset))) {seg : Segment} (member : seg ∈ segments) :
    ImageAt (layPages m ((planned relocOffset segments).map fun info => (info.pageVaddr,infoBytes data info))) data
      (seg.vaddr + relocOffset) seg := by
  have byte {k : Nat} (inside : k < seg.memsz.toNat) :
      layPages m ((planned relocOffset segments).map fun info => (info.pageVaddr,infoBytes data info))
        (seg.vaddr + relocOffset + BitVec.ofNat 64 k) =
          if k < seg.filesz.toNat then data[seg.fileOffset.toNat + k]? else some 0 := by
    have whole : ∀ other ∈ segments, ∀ page ∈ segmentPages (other.vaddr + relocOffset) other.memsz,
        (planBytes data relocOffset other page).length = PAGE_SIZE := fun other isSegment page isPage =>
      length_infoBytes (planPage_fits (fits other isSegment) sized isPage)
    have room : ∀ other ∈ segments, WrapsNot (relocated relocOffset other).1 (relocated relocOffset other).2 :=
      fun other isSegment => (fits other isSegment).wrapsNot
    obtain ⟨page,inPages,i,low,split,isByte⟩ :=
      @layPages_byte m Segment (relocated relocOffset) (planBytes data relocOffset) segments room whole apart seg member k inside
    change page.toNat + i = (seg.vaddr + relocOffset).toNat + k at split
    change layPages m (blocksOf (relocated relocOffset) (planBytes data relocOffset) segments)
      (seg.vaddr + relocOffset + BitVec.ofNat 64 k) = (planBytes data relocOffset seg page)[i]? at isByte
    rw [planned_blocks,isByte,planBytes,infoBytes_at (fits seg member) sized inPages low,split,Nat.add_sub_cancel_left]
    exact if_congr (by omega) rfl rfl
  have within := (fits seg member).within
  refine ⟨fun k inFile => ?_,fun k behind inside => ?_⟩
  · rw [byte (by omega),if_pos inFile]
  · rw [byte inside,if_neg (by omega)]

/-- What the page plan is for: its pages, the page tables recorded for them, and the memory that it leaves. -/
structure PlanCorrect (data : List Byte) (relocOffset : Word) (segments : List Segment) (mappedPts : List Word)
    (pageInfo : List PageInfo) (m : RootMem) : Prop where
  once : (pageInfo.map PageInfo.pageVaddr).Nodup
  pages : ∀ page, page ∈ pageInfo.map PageInfo.pageVaddr ↔
    ∃ seg ∈ segments, page ∈ segmentPages (seg.vaddr + relocOffset) seg.memsz
  tables : ∀ info ∈ pageInfo, mappedPts.count (regionOf info.pageVaddr) = 1
  image : ∀ seg ∈ segments, ImageAt m data (seg.vaddr + relocOffset) seg

theorem plan_correct {newTable : Word → Except RootStop Unit} {frameMap : Word → Word → Word} {content : Word → Page}
    {frameSlots : List Word} {relocOffset : Word} {segments : List Segment} (m : RootMem) (sized : data.length < 2 ^ 63)
    (fits : ∀ seg ∈ segments, Fits data (seg.vaddr + relocOffset) seg)
    (apart : RangesApart (segments.map (relocated relocOffset))) (tables : ∀ region, newTable region = .ok ())
    (answers : ∀ slot page, frameMap slot page = 0) (slots : frameSlots.length = (pagePlan relocOffset [] segments).length) :
    ∃ mappedPts m', recordTables newTable relocOffset [regionOf LOAD_BASE] segments = .ok mappedPts ∧
      populatePlan frameMap content frameSlots data m 0 (pagePlan relocOffset [] segments) = .ok m' ∧
      PlanCorrect data relocOffset segments mappedPts (pagePlan relocOffset [] segments) m' := by
  obtain ⟨mappedPts,recorded,once,covers⟩ := recordTables_ok tables relocOffset (List.nodup_singleton (regionOf LOAD_BASE)) segments
  rw [pagePlan_apart apart] at slots ⊢
  have inFile : ∀ info ∈ planned relocOffset segments, InfoFits data info := by
    intro info member
    obtain ⟨seg,isSegment,isPage⟩ := List.mem_flatMap.mp member
    obtain ⟨page,inPages,rfl⟩ := List.mem_map.mp isPage
    exact planPage_fits (fits seg isSegment) sized inPages
  have mem_pages (page : Word) : page ∈ (planned relocOffset segments).map PageInfo.pageVaddr ↔
      ∃ seg ∈ segments, page ∈ segmentPages (seg.vaddr + relocOffset) seg.memsz := by
    rw [planned_pages,allPages,List.flatMap_map]
    exact List.mem_flatMap
  refine ⟨mappedPts,_,recorded,populatePlan_ok answers sized inFile (by omega),?_,mem_pages,?_,
    fun seg member => image_planned sized fits apart member⟩
  · rw [planned_pages]
    exact nodup_allPages apart
  · intro info member
    obtain ⟨seg,isSegment,inPages⟩ := (mem_pages info.pageVaddr).mp (List.mem_map_of_mem member)
    exact List.count_eq_one_of_mem once (covers seg isSegment _ (regionOf_page (fits seg isSegment).room inPages))

/-- For every file with a loadable segment, all of them in the file, not wrapping around when the lowest is moved to
    LOAD_BASE, and apart: the runner looks at just these segments, and with all kernel calls answered by success its
    plan makes their image. -/
theorem runner_image {newTable : Word → Except RootStop Unit} {frameMap : Word → Word → Word} {content : Word → Page}
    {frameSlots : List Word} {elf : LoadedElf} {lowest relocOffset : Word} {segments : List Segment} (m : RootMem)
    (sized : data.length < 2 ^ 63) (parsed : parseElf release data = .ok (some elf))
    (isSegments : segments = elf.segments.map ElfSegment.toSegment) (there : ∃ seg ∈ elf.segments, seg.vaddr = lowest)
    (least : ∀ seg ∈ elf.segments, lowest ≤ seg.vaddr) (found : lowest ≠ BitVec.allOnes 64)
    (moves : relocOffset = LOAD_BASE - lowest) (fits : ∀ seg ∈ segments, Fits data (seg.vaddr + relocOffset) seg)
    (apart : RangesApart (segments.map (relocated relocOffset))) (tables : ∀ region, newTable region = .ok ())
    (answers : ∀ slot page, frameMap slot page = 0) (slots : frameSlots.length = (pagePlan relocOffset [] segments).length) :
    relocation data = .ok (some (relocOffset,segments)) ∧
      ∃ mappedPts m', recordTables newTable relocOffset [regionOf LOAD_BASE] segments = .ok mappedPts ∧
        populatePlan frameMap content frameSlots data m 0 (pagePlan relocOffset [] segments) = .ok m' ∧
        PlanCorrect data relocOffset segments mappedPts (pagePlan relocOffset [] segments) m' := by
  refine ⟨?_,plan_correct m sized fits apart tables answers slots⟩
  rw [isSegments,moves]
  exact relocation_parsed parsed there least found

/-- A program of two bytes and zeros behind them. -/
theorem runner_image_code : ∃ m', populatePlan (fun _ _ => 0) (fun _ => Page.zero) [5] (oneSegment [7,8]) (fun _ => none) 0
      (pagePlan 0 [] [(codeSegment [7,8]).toSegment]) = .ok m' ∧
    ImageAt m' (oneSegment [7,8]) 0x400000 (codeSegment [7,8]).toSegment := by
  have parsed : parseElf release (oneSegment [7,8]) = .ok (some ⟨0x400000,[codeSegment [7,8]]⟩) := by decide +kernel
  obtain ⟨_,_,m',_,ran,correct⟩ := @runner_image (oneSegment [7,8]) (fun _ => .ok ()) (fun _ _ => 0) (fun _ => Page.zero) [5]
    ⟨0x400000,[codeSegment [7,8]]⟩ 0x400000 0 [(codeSegment [7,8]).toSegment] (fun _ => none) (by decide +kernel) parsed rfl
    ⟨_,List.mem_cons_self,rfl⟩ (by decide) (by decide) (by decide)
    (List.forall_mem_singleton.mpr ⟨by decide,by decide +kernel,by decide⟩) (List.pairwise_singleton _ _) (fun _ => rfl)
    (fun _ _ => rfl) (by decide +kernel)
  exact ⟨m',ran,correct.image _ List.mem_cons_self⟩

end Sel4Linux.PagePlan
