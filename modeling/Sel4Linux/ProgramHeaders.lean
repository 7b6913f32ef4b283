import Sel4Linux.FirstStack
import Sel4Linux.PagePlan

/-!
Where a program finds its program headers (`create_user_task` in
`lcl/src/task/runner.rs`). The auxiliary vector gives LOAD_BASE + e_phoff, as if
the file lay in memory from LOAD_BASE on. Whatever a file is like that the runner
loads, every byte of the pages of its segments is known (`loaded_byte`); the table
is at the given address when its segment is as far from LOAD_BASE as it is from
the start of the file, and else only by coincidence (`phdr_found_iff`).
-/
namespace Sel4Linux.ProgramHeaders
open Sel4Linux.Bytes Sel4Linux.Ipc Sel4Linux.TaskMem Sel4Linux.Execve Sel4Linux.Runs Sel4Linux.Loader Sel4Linux.ElfBounds
open Sel4Linux.Overlay Sel4Linux.RootMemory Sel4Linux.SegmentPages Sel4Linux.FirstStack Sel4Linux.PagePlan
set_option linter.unusedSimpArgs false

/-! ## Loading -/

section
variable (frameMap : Word → Word → Word) (content : Word → Page) (frameSlots : List Word) (data : List Byte) (m : RootMem)

/-- The segments of a file in memory, and what the auxiliary vector will say of it; nothing for a file that is refused. -/
def loadImage : Except RootStop (Option (Image × RootMem)) :=
  match relocation data, readHeader data with
  | .ok (some (relocOffset,segments)), .ok h => do
    let m ← populatePlan frameMap content frameSlots data m 0 (pagePlan relocOffset [] segments)
    .ok (some ({ relocatedEntry := h.entry + relocOffset, phoff := h.phoff, phentsize := h.phentsize, phnum := h.phnum },m))
  | .ok none, _ => .ok none
  | .error f, _ => .error (.panic f)
  | _, .error f => .error (.panic f)

end

/-! ## One page -/

/-- What the page of a listed part is after it: the part may be missing in the file. -/
def filledBytes (data : List Byte) (info : PageInfo) : List Byte :=
  if 0 < info.copyLen ∧ (info.fileOff + info.copyLen).toNat ≤ data.length then infoBytes data info
  else List.replicate PAGE_SIZE 0

/-- If a listed part is copied, it is there. -/
def CopyFits (data : List Byte) (info : PageInfo) : Prop :=
  0 < info.copyLen → (info.fileOff + info.copyLen).toNat ≤ data.length → InfoFits data info

/-- A listed part is in its page. -/
structure InPage (info : PageInfo) : Prop where
  aligned : info.pageVaddr.toNat % PAGE_SIZE = 0
  inside : info.copyOffInPage.toNat + info.copyLen.toNat ≤ PAGE_SIZE

variable {data : List Byte} {info : PageInfo} {m m' : RootMem}

theorem length_filledBytes (fits : CopyFits data info) :
    (filledBytes data info).length = PAGE_SIZE := by
  rw [filledBytes]
  split
  · next copies => exact length_infoBytes (fits copies.1 copies.2)
  · exact List.length_replicate

/-- A page that is filled without a panic. -/
theorem fillInfo_ran (sized : data.length < 2 ^ 63) (inPage : InPage info)
    (mapped : Mapped m info.pageVaddr.toNat (info.pageVaddr.toNat + PAGE_SIZE)) (ran : fillInfo data m info = .ok m') :
    m' = overlay info.pageVaddr (filledBytes data info) m ∧ CopyFits data info := by
  have aligned := inPage.aligned
  have bound := info.pageVaddr.isLt
  have size : PAGE_SIZE = 4096 := rfl
  by_cases copies : 0 < info.copyLen ∧ (info.fileOff + info.copyLen).toNat ≤ data.length
  · have fits : InfoFits data info := by
      refine ⟨inPage.aligned,inPage.inside,?_⟩
      obtain ⟨cleared,_,ran⟩ := bind_ok_iff.mp ran
      rw [if_pos copies] at ran
      cases isPart : slice data info.fileOff (info.fileOff + info.copyLen) with
      | error f =>
        rw [isPart] at ran
        cases ran
      | ok part =>
        obtain ⟨order,inFile,_⟩ := (slice_ok_iff _ _ _ _).mp isPart
        have less := info.fileOff.isLt
        have less' := info.copyLen.isLt
        rw [BitVec.toNat_add] at order inFile
        omega
    rw [fillInfo_mapped sized fits mapped] at ran
    cases ran
    exact ⟨by rw [filledBytes,if_pos copies],fun _ _ => fits⟩
  · have cleared : store m info.pageVaddr (List.replicate PAGE_SIZE 0) =
        .ok (overlay info.pageVaddr (List.replicate PAGE_SIZE 0) m) := by
      rw [size] at mapped aligned ⊢
      exact store_mapped mapped (Nat.le_refl _) (by rw [List.length_replicate]) (by omega)
    rw [fillInfo,cleared,ok_bind,if_neg copies] at ran
    cases ran
    exact ⟨by rw [filledBytes,if_neg copies],fun some' inFile => absurd ⟨some',inFile⟩ copies⟩

/-- The start of the part of the file for the page of `a`. -/
def partStart (start a : Word) : Word := if start ≤ pageVaddr a then pageVaddr a else start

/-- The end of the part of the file for the page of `a`. -/
def partEnd (start : Word) (seg : Segment) (a : Word) : Word :=
  let pageEnd := pageVaddr a + BitVec.ofNat 64 PAGE_SIZE
  if start + seg.filesz ≤ pageEnd then start + seg.filesz else pageEnd

/-- The byte at `a` in a page of a segment that starts at `start`: one of the file from the start up to the end of the page's
    part of the file, if the file has all of this part, and zero otherwise. -/
def segmentByte (data : List Byte) (start : Word) (seg : Segment) (a : Word) : Option Byte :=
  if start ≤ a ∧ a < partEnd start seg a ∧ (seg.fileOffset + (partEnd start seg a - start)).toNat ≤ data.length then
    data[(seg.fileOffset + (a - start)).toNat]?
  else some 0

theorem toNat_partStart (start a : Word) : (partStart start a).toNat = max start.toNat (pageVaddr a).toNat := by
  rw [partStart]
  split
  · next before => exact (Nat.max_eq_right before).symm
  · next after => exact (Nat.max_eq_left (Nat.le_of_not_le after)).symm

theorem partEnd_le (start : Word) (seg : Segment) (a : Word) :
    (partEnd start seg a).toNat ≤ (pageVaddr a).toNat + PAGE_SIZE := by
  have pageEnd : (pageVaddr a + BitVec.ofNat 64 PAGE_SIZE).toNat = ((pageVaddr a).toNat + PAGE_SIZE) % 2 ^ 64 :=
    MemImage.toNat_advance (by decide)
  have least : (partEnd start seg a).toNat ≤ (pageVaddr a + BitVec.ofNat 64 PAGE_SIZE).toNat := by
    rw [partEnd]
    split
    · next before => exact before
    · exact Nat.le_refl _
  rw [pageEnd] at least
  exact Nat.le_trans least (Nat.mod_le _ _)

theorem toNat_partOffset (start a : Word) :
    (partStart start a - pageVaddr a).toNat = (partStart start a).toNat - (pageVaddr a).toNat := by
  have first := toNat_partStart start a
  exact BitVec.toNat_sub_of_le (BitVec.le_def.mpr (by omega))

theorem toNat_partLen {seg : Segment} {start a : Word} (some' : partStart start a < partEnd start seg a) :
    (partEnd start seg a - partStart start a).toNat = (partEnd start seg a).toNat - (partStart start a).toNat :=
  BitVec.toNat_sub_of_le (BitVec.le_of_lt some')

/-- A page with a part of the file. -/
theorem planPage_part {seg : Segment} {start a : Word} (some' : partStart start a < partEnd start seg a) :
    planPage seg start (pageVaddr a) =
      { pageVaddr := pageVaddr a, fileOff := seg.fileOffset + (partStart start a - start),
        copyOffInPage := partStart start a - pageVaddr a, copyLen := partEnd start seg a - partStart start a } :=
  if_pos some'

theorem planPage_blank {seg : Segment} {start a : Word} (none' : ¬ partStart start a < partEnd start seg a) :
    planPage seg start (pageVaddr a) = { pageVaddr := pageVaddr a, fileOff := 0, copyOffInPage := 0, copyLen := 0 } :=
  if_neg none'

theorem planPage_inPage (seg : Segment) (start a : Word) : InPage (planPage seg start (pageVaddr a)) := by
  have page := toNat_pageVaddr a
  have first := toNat_partStart start a
  have last := partEnd_le start seg a
  have size : PAGE_SIZE = 4096 := rfl
  rw [size] at page last
  refine ⟨by rw [planPage_pageVaddr,size]; omega,?_⟩
  rw [size]
  by_cases some' : partStart start a < partEnd start seg a
  · have less : (partStart start a).toNat < (partEnd start seg a).toNat := some'
    rw [planPage_part some']
    change (partStart start a - pageVaddr a).toNat + (partEnd start seg a - partStart start a).toNat ≤ 4096
    rw [toNat_partOffset,toNat_partLen some']
    omega
  · rw [planPage_blank some']
    exact Nat.zero_le _

/-- The index in the file of a byte behind the start of its part. -/
theorem toNat_fileIndex {offset start part a : Word} (behind : part.toNat ≤ a.toNat)
    (room : (offset + (part - start)).toNat + (a.toNat - part.toNat) < 2 ^ 64) :
    (offset + (a - start)).toNat = (offset + (part - start)).toNat + (a.toNat - part.toNat) := by
  have distance : (a - part).toNat = a.toNat - part.toNat := BitVec.toNat_sub_of_le (BitVec.le_def.mpr behind)
  have parts : offset + (a - start) = offset + (part - start) + (a - part) := by bv_omega
  rw [parts,BitVec.toNat_add_of_lt (by rw [distance]; omega),distance]

/-- The page of `a` has the byte of its segment there. -/
theorem filledBytes_at {seg : Segment} {start a : Word} (sized : data.length < 2 ^ 63)
    (fits : CopyFits data (planPage seg start (pageVaddr a))) :
    (filledBytes data (planPage seg start (pageVaddr a)))[pageOffset a]? = segmentByte data start seg a := by
  have split := pageVaddr_add_offset a
  have low := pageOffset_lt a
  have size : PAGE_SIZE = 4096 := rfl
  have first := toNat_partStart start a
  have last := partEnd_le start seg a
  by_cases some' : partStart start a < partEnd start seg a
  · have less : (partStart start a).toNat < (partEnd start seg a).toNat := some'
    have offset := toNat_partOffset start a
    have len := toNat_partLen some'
    have positive : 0 < partEnd start seg a - partStart start a := by
      rw [BitVec.lt_def,len]
      exact Nat.sub_pos_of_lt less
    have stop : seg.fileOffset + (partStart start a - start) + (partEnd start seg a - partStart start a) =
        seg.fileOffset + (partEnd start seg a - start) := by
      bv_omega
    rw [planPage_part some'] at fits ⊢
    dsimp only [CopyFits] at fits
    rw [stop] at fits
    rw [filledBytes,segmentByte]
    dsimp only
    rw [stop]
    by_cases inFile : (seg.fileOffset + (partEnd start seg a - start)).toNat ≤ data.length
    · have fits' := fits positive inFile
      have within := fits'.inFile
      dsimp only at within
      rw [len] at within
      rw [if_pos ⟨positive,inFile⟩,infoBytes_get fits' low]
      dsimp only
      rw [offset,len]
      by_cases own : start ≤ a ∧ a < partEnd start seg a
      · have above : start.toNat ≤ a.toNat := own.1
        have below : a.toNat < (partEnd start seg a).toNat := own.2
        have index : (seg.fileOffset + (a - start)).toNat =
            (seg.fileOffset + (partStart start a - start)).toNat + (a.toNat - (partStart start a).toNat) :=
          toNat_fileIndex (by omega) (by omega)
        rw [if_pos (by omega),if_pos ⟨own.1,own.2,inFile⟩,index]
        congr 1
        omega
      · have outside : ¬ (start.toNat ≤ a.toNat ∧ a.toNat < (partEnd start seg a).toNat) := own
        rw [if_neg (by omega),if_neg (fun all => own ⟨all.1,all.2.1⟩)]
    · rw [if_neg (fun both => inFile both.2),if_neg (fun all => inFile all.2.2),List.getElem?_replicate_of_lt low]
  · have none : ¬ (partStart start a).toNat < (partEnd start seg a).toNat := some'
    rw [planPage_blank some',filledBytes,if_neg (by simp),List.getElem?_replicate_of_lt low,segmentByte,if_neg]
    rintro ⟨above,below,_⟩
    have above' : start.toNat ≤ a.toNat := above
    have below' : a.toNat < (partEnd start seg a).toNat := below
    omega

/-! ## The memory -/

theorem populatePlan_ran {frameMap : Word → Word → Word} {content : Word → Page} {frameSlots : List Word}
    {pageInfo : List PageInfo} {idx : Nat} (sized : data.length < 2 ^ 63) (inPage : ∀ info ∈ pageInfo, InPage info)
    (ran : populatePlan frameMap content frameSlots data m idx pageInfo = .ok m') :
    m' = layPages m (pageInfo.map fun info => (info.pageVaddr,filledBytes data info)) ∧
      ∀ info ∈ pageInfo, CopyFits data info := by
  induction pageInfo generalizing m idx with
  | nil =>
    cases ran
    exact ⟨rfl,by simp⟩
  | cons info rest ih =>
    obtain ⟨own,others⟩ := List.forall_mem_cons.mp inPage
    rw [populatePlan] at ran
    cases isSlot : frameSlots[idx]? with
    | none =>
      rw [isSlot] at ran
      cases ran
    | some slot =>
      rw [isSlot] at ran
      simp only at ran
      split at ran
      · cases ran
      · obtain ⟨filled,isFilled,ran⟩ := bind_ok_iff.mp ran
        obtain ⟨rfl,fits⟩ := fillInfo_ran sized own (mapped_mapFrame own.aligned (content slot)) isFilled
        have whole : WholePage (info.pageVaddr,filledBytes data info) := ⟨own.aligned,length_filledBytes fits⟩
        have covers : overlay info.pageVaddr (filledBytes data info) (mapFrame m info.pageVaddr (content slot)) =
            overlay info.pageVaddr (filledBytes data info) m := overlay_mapFrame whole (content slot)
        rw [covers] at ran
        obtain ⟨later,fits'⟩ := ih others ran
        exact ⟨later,List.forall_mem_cons.mpr ⟨fits,fits'⟩⟩

theorem page_of_segmentPages {vaddr memsz page : Word} (member : page ∈ segmentPages vaddr memsz) : pageVaddr page = page := by
  have aligned (addr : Word) : (pageVaddr addr).toNat % PAGE_SIZE = 0 := by
    have here := toNat_pageVaddr addr
    have size : PAGE_SIZE = 4096 := rfl
    rw [size] at here ⊢
    omega
  exact (pageVaddr_eq_iff page).mpr ((mem_pageRange (aligned _) (aligned _)).mp member).1

/-- The segment that has the page of an address. -/
def segmentOf (relocOffset : Word) (segments : List Segment) (a : Word) : Option Segment :=
  segments.find? fun seg => (segmentPages (seg.vaddr + relocOffset) seg.memsz).contains (pageVaddr a)

/-- The byte at an address of the image of some segments, over a memory. -/
def imageByte (data : List Byte) (relocOffset : Word) (segments : List Segment) (m : RootMem) (a : Word) : Option Byte :=
  match segmentOf relocOffset segments a with
  | some seg => segmentByte data (seg.vaddr + relocOffset) seg a
  | none => m a

theorem loaded_byte {frameMap : Word → Word → Word} {content : Word → Page} {frameSlots : List Word} {relocOffset : Word}
    {segments : List Segment} (sized : data.length < 2 ^ 63) (apart : RangesApart (segments.map (relocated relocOffset)))
    (ran : populatePlan frameMap content frameSlots data m 0 (pagePlan relocOffset [] segments) = .ok m') (a : Word) :
    m' a = imageByte data relocOffset segments m a := by
  rw [pagePlan_apart apart] at ran
  have listed : ∀ info ∈ planned relocOffset segments,
      ∃ seg ∈ segments, ∃ page ∈ segmentPages (seg.vaddr + relocOffset) seg.memsz,
      info = planPage seg (seg.vaddr + relocOffset) (pageVaddr page) := by
    intro info member
    obtain ⟨seg,isSegment,isPage⟩ := List.mem_flatMap.mp member
    obtain ⟨page,inPages,rfl⟩ := List.mem_map.mp isPage
    exact ⟨seg,isSegment,page,inPages,by rw [page_of_segmentPages inPages]⟩
  have inPage : ∀ info ∈ planned relocOffset segments, InPage info := by
    intro info member
    obtain ⟨seg,_,page,_,rfl⟩ := listed info member
    exact planPage_inPage seg _ page
  obtain ⟨rfl,fits⟩ := populatePlan_ran sized inPage ran
  have whole : ∀ block ∈ (planned relocOffset segments).map (fun info => (info.pageVaddr,filledBytes data info)),
      WholePage block := by
    intro block member
    obtain ⟨info,isInfo,rfl⟩ := List.mem_map.mp member
    exact ⟨(inPage info isInfo).aligned,length_filledBytes (fits info isInfo)⟩
  rw [imageByte]
  cases isSegment : segmentOf relocOffset segments a with
  | some seg =>
    have member := List.mem_of_find?_eq_some isSegment
    have inPages : pageVaddr a ∈ segmentPages (seg.vaddr + relocOffset) seg.memsz := by
      have found := List.find?_some isSegment
      simpa using found
    have isInfo : planPage seg (seg.vaddr + relocOffset) (pageVaddr a) ∈ planned relocOffset segments :=
      List.mem_flatMap.mpr ⟨seg,member,List.mem_map_of_mem inPages⟩
    have once : (((planned relocOffset segments).map fun info => (info.pageVaddr,filledBytes data info)).map Prod.fst).Nodup := by
      rw [List.map_map]
      exact (planned_pages relocOffset segments).symm ▸ nodup_allPages apart
    have byte := layPages_at (m := m) (a := a) whole once (List.mem_map_of_mem isInfo) (planPage_pageVaddr _ _ _).symm
    exact byte.trans (filledBytes_at sized (fits _ isInfo))
  | none =>
    refine layPages_other whole fun block member same => ?_
    obtain ⟨info,isInfo,rfl⟩ := List.mem_map.mp member
    obtain ⟨seg,isSegment',page,inPages,rfl⟩ := listed info isInfo
    rw [planPage_pageVaddr,page_of_segmentPages inPages] at same
    have missing := List.find?_eq_none.mp isSegment seg isSegment'
    rw [same] at missing
    exact missing (by simpa using inPages)

/-! ## The table -/

/-- The table of program headers is in the part of a segment that comes from the file. -/
structure Covers (h : ElfHeader) (seg : Segment) : Prop where
  above : seg.fileOffset.toNat ≤ h.phoff.toNat
  below : h.phoff.toNat + h.phnum.toNat * h.phentsize.toNat ≤ seg.fileOffset.toNat + seg.filesz.toNat

/-- A segment whose bytes are in the file and that does not wrap around, as far from LOAD_BASE as from the start of the file. -/
structure InPlace (data : List Byte) (relocOffset : Word) (seg : Segment) : Prop where
  within : seg.filesz.toNat ≤ seg.memsz.toNat
  inFile : seg.fileOffset.toNat + seg.filesz.toNat ≤ data.length
  room : WrapsNot (seg.vaddr + relocOffset) seg.memsz
  own : seg.vaddr + relocOffset = LOAD_BASE + seg.fileOffset

/-- The image of the segments has, from LOAD_BASE + e_phoff on, bytes like those of the table. -/
def Coincides (data : List Byte) (h : ElfHeader) (relocOffset : Word) (segments : List Segment) (m : RootMem) : Prop :=
  ∀ j < h.phnum.toNat * h.phentsize.toNat,
    imageByte data relocOffset segments m (LOAD_BASE + h.phoff + BitVec.ofNat 64 j) = data[h.phoff.toNat + j]?

/-- By AT_PHDR, AT_PHENT and AT_PHNUM a program finds the table of its file. -/
def Found (data : List Byte) (h : ElfHeader) (aux : List (Word × Word)) (m : RootMem) : Prop :=
  ∃ phdr phent phnum, aux.lookup 3 = some phdr ∧ aux.lookup 4 = some phent ∧ aux.lookup 5 = some phnum ∧
    ∀ j < phnum.toNat * phent.toNat, m (phdr + BitVec.ofNat 64 j) = data[h.phoff.toNat + j]?

/-- A byte from the file. -/
theorem segmentByte_file {seg : Segment} {start : Word} {k : Nat} (sized : data.length < 2 ^ 63)
    (within : seg.filesz.toNat ≤ seg.memsz.toNat) (inFile : seg.fileOffset.toNat + seg.filesz.toNat ≤ data.length)
    (room : WrapsNot start seg.memsz) (low : k < seg.filesz.toNat) :
    segmentByte data start seg (start + BitVec.ofNat 64 k) = data[seg.fileOffset.toNat + k]? := by
  have size : PAGE_SIZE = 4096 := rfl
  rw [WrapsNot,size] at room
  obtain ⟨a,isA⟩ : ∃ a, a = start + BitVec.ofNat 64 k := ⟨_,rfl⟩
  have place : a.toNat = start.toNat + k := isA ▸ toNat_advance_of_lt (by omega)
  have split := pageVaddr_add_offset a
  have low' := pageOffset_lt a
  rw [size] at low'
  have fileEnd : (start + seg.filesz).toNat = start.toNat + seg.filesz.toNat := BitVec.toNat_add_of_lt (by omega)
  have pageEnd : (pageVaddr a + BitVec.ofNat 64 PAGE_SIZE).toNat = (pageVaddr a).toNat + 4096 := toNat_advance_of_lt (by omega)
  have last : (partEnd start seg a).toNat = min (start.toNat + seg.filesz.toNat) ((pageVaddr a).toNat + 4096) := by
    rw [partEnd,← fileEnd,← pageEnd]
    split
    · next before => exact (Nat.min_eq_left before).symm
    · next after => exact (Nat.min_eq_right (Nat.le_of_not_le after)).symm
  have len : (partEnd start seg a - start).toNat = (partEnd start seg a).toNat - start.toNat :=
    BitVec.toNat_sub_of_le (BitVec.le_def.mpr (by omega))
  have distance : (a - start).toNat = k := by
    rw [BitVec.toNat_sub_of_le (BitVec.le_def.mpr (by omega))]
    omega
  have stop : (seg.fileOffset + (partEnd start seg a - start)).toNat ≤ data.length := by
    rw [BitVec.toNat_add_of_lt (by omega),len]
    omega
  rw [← isA,segmentByte,if_pos ⟨BitVec.le_def.mpr (by omega),BitVec.lt_def.mpr (by omega),stop⟩,
    BitVec.toNat_add_of_lt (by omega),distance]

/-- A segment that has an address has its page alone. -/
theorem segmentOf_eq {relocOffset : Word} {segments : List Segment} {seg : Segment} {a : Word}
    (apart : RangesApart (segments.map (relocated relocOffset))) (member : seg ∈ segments)
    (inPages : pageVaddr a ∈ segmentPages (seg.vaddr + relocOffset) seg.memsz) :
    segmentOf relocOffset segments a = some seg := by
  cases isSegment : segmentOf relocOffset segments a with
  | none => exact absurd (by simpa using inPages) (List.find?_eq_none.mp isSegment seg member)
  | some other =>
    have inPages' : pageVaddr a ∈ segmentPages (other.vaddr + relocOffset) other.memsz := by
      have found := List.find?_some isSegment
      simpa using found
    obtain ⟨m,first⟩ := List.mem_iff_getElem?.mp member
    obtain ⟨n,second⟩ := List.mem_iff_getElem?.mp (List.mem_of_find?_eq_some isSegment)
    have first' : (segments.map (relocated relocOffset))[m]? = some (relocated relocOffset seg) := by
      rw [List.getElem?_map,first]
      rfl
    have second' : (segments.map (relocated relocOffset))[n]? = some (relocated relocOffset other) := by
      rw [List.getElem?_map,second]
      rfl
    have same := apart.unique first' second' inPages inPages'
    rw [same,second] at first
    exact first

/-- In place, the table is where the auxiliary vector says. -/
theorem coincides_of_inPlace {h : ElfHeader} {relocOffset : Word} {segments : List Segment} {seg : Segment}
    (sized : data.length < 2 ^ 63)
    (apart : RangesApart (segments.map (relocated relocOffset))) (member : seg ∈ segments) (covers : Covers h seg)
    (inPlace : InPlace data relocOffset seg) : Coincides data h relocOffset segments m := by
  intro j low
  have above := covers.above
  have below := covers.below
  have within := inPlace.within
  obtain ⟨k,isK⟩ : ∃ k, k = h.phoff.toNat - seg.fileOffset.toNat + j := ⟨_,rfl⟩
  have place : LOAD_BASE + h.phoff + BitVec.ofNat 64 j = seg.vaddr + relocOffset + BitVec.ofNat 64 k := by
    have parts : h.phoff = seg.fileOffset + BitVec.ofNat 64 (h.phoff.toNat - seg.fileOffset.toNat) := by
      apply BitVec.eq_of_toNat_eq
      have bound := h.phoff.isLt
      rw [toNat_advance_of_lt (by omega)]
      omega
    rw [inPlace.own,isK,← add_ofNat_add,BitVec.add_assoc LOAD_BASE seg.fileOffset,← parts]
  have inPages := (page_of_byte inPlace.room (show k < seg.memsz.toNat by omega)).1
  rw [place,imageByte,segmentOf_eq apart member inPages]
  dsimp only
  rw [segmentByte_file sized within inPlace.inFile inPlace.room (by omega),isK]
  congr 1
  omega

/-- The auxiliary entries of the program headers. -/
theorem auxv_phdr (randomBytesAddr platformAddr : Word) (image : Image) :
    (auxv randomBytesAddr platformAddr image).lookup 3 = some (LOAD_BASE + image.phoff) ∧
    (auxv randomBytesAddr platformAddr image).lookup 4 = some image.phentsize ∧
    (auxv randomBytesAddr platformAddr image).lookup 5 = some image.phnum := ⟨rfl,rfl,rfl⟩

theorem loadImage_ran {frameMap : Word → Word → Word} {content : Word → Page} {frameSlots : List Word} {h : ElfHeader}
    {relocOffset : Word} {segments : List Segment} {image : Image} (isHeader : readHeader data = .ok h)
    (accepted : relocation data = .ok (some (relocOffset,segments)))
    (ran : loadImage frameMap content frameSlots data m = .ok (some (image,m'))) :
    populatePlan frameMap content frameSlots data m 0 (pagePlan relocOffset [] segments) = .ok m' ∧
      image = { relocatedEntry := h.entry + relocOffset, phoff := h.phoff, phentsize := h.phentsize, phnum := h.phnum } := by
  rw [loadImage,accepted,isHeader] at ran
  obtain ⟨filled,isFilled,ran⟩ := bind_ok_iff.mp ran
  cases ran
  exact ⟨isFilled,rfl⟩

/-- For every file that the runner loads, its segments' pages apart and the table in one of them: a program finds its table
    exactly when that segment is in place, or the image has the same bytes where the table is looked for. -/
theorem phdr_found_iff {frameMap : Word → Word → Word} {content : Word → Page} {frameSlots : List Word} {data : List Byte}
    {m m' : RootMem} {h : ElfHeader} {relocOffset : Word} {segments : List Segment} {seg : Segment} {image : Image}
    (randomBytesAddr platformAddr : Word) (sized : data.length < 2 ^ 63) (isHeader : readHeader data = .ok h)
    (accepted : relocation data = .ok (some (relocOffset,segments)))
    (ran : loadImage frameMap content frameSlots data m = .ok (some (image,m')))
    (apart : RangesApart (segments.map (relocated relocOffset))) (member : seg ∈ segments) (covers : Covers h seg) :
    Found data h (auxv randomBytesAddr platformAddr image) m' ↔
      InPlace data relocOffset seg ∨ Coincides data h relocOffset segments m := by
  obtain ⟨loaded,rfl⟩ := loadImage_ran isHeader accepted ran
  have byte := loaded_byte sized apart loaded
  constructor
  · rintro ⟨_,_,_,isPhdr,isPhent,isPhnum,found⟩
    cases isPhdr
    cases isPhent
    cases isPhnum
    exact .inr fun j low => (byte _).symm.trans (found j low)
  · intro here
    have same : Coincides data h relocOffset segments m :=
      here.elim (coincides_of_inPlace sized apart member covers) id
    obtain ⟨isPhdr,isPhent,isPhnum⟩ := auxv_phdr randomBytesAddr platformAddr
      { relocatedEntry := h.entry + relocOffset, phoff := h.phoff, phentsize := h.phentsize, phnum := h.phnum }
    exact ⟨_,_,_,isPhdr,isPhent,isPhnum,fun j low => (byte _).trans (same j low)⟩

/-! A file that is an ELF header and one program header, with a segment of a part of it. -/

def tableFile (offset vaddr filesz : Word) : List Byte :=
  [0x7F,0x45,0x4C,0x46,2,1,1,0] ++ List.replicate 16 0 ++ leBytes vaddr ++ leBytes 64 ++ List.replicate 14 0 ++
    [56,0,1,0] ++ List.replicate 6 0 ++ [1,0,0,0,5,0,0,0] ++ leBytes offset ++ leBytes vaddr ++ leBytes vaddr ++
    leBytes filesz ++ leBytes filesz ++ leBytes 0x1000

def tableSegment (offset vaddr filesz : Word) : Segment :=
  { fileOffset := offset, vaddr := vaddr, filesz := filesz, memsz := filesz }

/-- The runner loads a file whose segment is moved to LOAD_BASE. -/
theorem loads {data : List Byte} {h : ElfHeader} {relocOffset : Word} {seg : Segment} (sized : data.length < 2 ^ 63)
    (isHeader : readHeader data = .ok h) (accepted : relocation data = .ok (some (relocOffset,[seg])))
    (fits : Fits data (seg.vaddr + relocOffset) seg) (one : (pagePlan relocOffset [] [seg]).length = 1) :
    ∃ m', loadImage (fun _ _ => 0) (fun _ => Page.zero) [5] data (fun _ => none) = .ok (some
      ({ relocatedEntry := h.entry + relocOffset, phoff := h.phoff, phentsize := h.phentsize, phnum := h.phnum },m')) := by
  obtain ⟨_,m',_,ran,_⟩ := @plan_correct data (fun _ => .ok ()) (fun _ _ => 0) (fun _ => Page.zero) [5] relocOffset [seg]
    (fun _ => none) sized (List.forall_mem_singleton.mpr fits) (List.pairwise_singleton _ _) (fun _ => rfl)
    (fun _ _ => rfl) one.symm
  exact ⟨m',by rw [loadImage,accepted,isHeader]; simp only [ran,ok_bind]⟩

/-- The whole file at 0x400000. -/
theorem phdr_found_iff_whole : ∃ image m',
    loadImage (fun _ _ => 0) (fun _ => Page.zero) [5] (tableFile 0 0x400000 120) (fun _ => none) = .ok (some (image,m')) ∧
    Found (tableFile 0 0x400000 120) (headerOf (tableFile 0 0x400000 120)) (auxv 0 0 image) m' := by
  have sized : (tableFile 0 0x400000 120).length < 2 ^ 63 := by decide +kernel
  have isHeader : readHeader (tableFile 0 0x400000 120) = .ok (headerOf (tableFile 0 0x400000 120)) :=
    readHeader_eq (by decide +kernel)
  have accepted : relocation (tableFile 0 0x400000 120) = .ok (some (0,[tableSegment 0 0x400000 120])) := by decide +kernel
  obtain ⟨m',ran⟩ := loads sized isHeader accepted ⟨by decide,by decide +kernel,by decide⟩ (by decide +kernel)
  refine ⟨_,m',ran,(phdr_found_iff 0 0 sized isHeader accepted ran (List.pairwise_singleton _ _) List.mem_cons_self
    ⟨by decide +kernel,by decide +kernel⟩).mpr (.inl ⟨by decide,by decide +kernel,?_,by decide⟩)⟩
  simp [WrapsNot,tableSegment,PAGE_SIZE]

/-- The program header alone at 0x400040: the segment is moved to LOAD_BASE, and there are zeros where its table is looked for. -/
theorem phdr_lost : ¬ ∀ (frameMap : Word → Word → Word) (content : Word → Page) (frameSlots : List Word)
    (data : List Byte) (m m' : RootMem) (h : ElfHeader) (relocOffset : Word) (segments : List Segment) (seg : Segment)
    (image : Image) (randomBytesAddr platformAddr : Word), data.length < 2 ^ 63 → readHeader data = .ok h →
    relocation data = .ok (some (relocOffset,segments)) →
    loadImage frameMap content frameSlots data m = .ok (some (image,m')) →
    RangesApart (segments.map (relocated relocOffset)) → seg ∈ segments → Covers h seg →
    Found data h (auxv randomBytesAddr platformAddr image) m' := by
  intro all
  have sized : (tableFile 64 0x400040 56).length < 2 ^ 63 := by decide +kernel
  have isHeader : readHeader (tableFile 64 0x400040 56) = .ok (headerOf (tableFile 64 0x400040 56)) :=
    readHeader_eq (by decide +kernel)
  have accepted : relocation (tableFile 64 0x400040 56) = .ok (some (-64,[tableSegment 64 0x400040 56])) := by decide +kernel
  obtain ⟨m',ran⟩ := loads sized isHeader accepted ⟨by decide,by decide +kernel,by decide⟩ (by decide +kernel)
  obtain ⟨_,_,_,isPhdr,isPhent,isPhnum,found⟩ := all _ _ _ _ _ _ _ _ _ _ _ 0 0 sized isHeader accepted ran
    (List.pairwise_singleton _ _) List.mem_cons_self ⟨by decide +kernel,by decide +kernel⟩
  cases isPhdr
  cases isPhent
  cases isPhnum
  have apart : RangesApart ([tableSegment 64 0x400040 56].map (relocated (-64))) := List.pairwise_singleton _ _
  have first := found 0 (by decide +kernel)
  rw [loaded_byte sized apart (loadImage_ran isHeader accepted ran).1] at first
  exact absurd first (by decide +kernel)

end Sel4Linux.ProgramHeaders
