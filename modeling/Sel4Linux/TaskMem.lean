import Sel4Linux.Utf8

/-!
The memory of a task (`lcl/src/task/mem.rs`, `lcl/src/task/mod.rs`): pages by
their address, and the byte accesses that the syscalls make to them. A read
stays within the page that it starts in; a write goes on from page to page and
adds the pages that the task does not have.
-/
namespace Sel4Linux.TaskMem
open Sel4Linux.Bytes Sel4Linux.Utf8
set_option linter.unusedSimpArgs false

def PAGE_SIZE : Nat := 0x1000

/-- The content of a page. -/
abbrev Page := Fin PAGE_SIZE → Byte

/-- `TaskMemInfo`: capability slots and contents by page address. -/
structure TaskMemInfo where
  mappedPage : Std.ExtTreeMap Word Word
  pageData : Std.ExtTreeMap Word Page

def TaskMemInfo.default : TaskMemInfo := { mappedPage := ∅, pageData := ∅ }

/-- `addr & !(PAGE_SIZE - 1)`. -/
def pageVaddr (addr : Word) : Word := addr &&& ~~~(BitVec.ofNat 64 (PAGE_SIZE - 1))

/-- `addr & (PAGE_SIZE - 1)`. -/
def pageOffset (addr : Word) : Nat := (addr &&& BitVec.ofNat 64 (PAGE_SIZE - 1)).toNat

theorem pageOffset_eq (addr : Word) : pageOffset addr = addr.toNat % PAGE_SIZE := by
  rw [pageOffset,BitVec.toNat_and,BitVec.toNat_ofNat]
  exact Nat.and_two_pow_sub_one_eq_mod addr.toNat 12

theorem pageOffset_lt (addr : Word) : pageOffset addr < PAGE_SIZE := by
  rw [pageOffset_eq]
  exact Nat.mod_lt _ (by decide)

theorem pageVaddr_pageVaddr (addr : Word) : pageVaddr (pageVaddr addr) = pageVaddr addr := by
  rw [pageVaddr,pageVaddr,BitVec.and_assoc,BitVec.and_self]

/-- An address is its page with the offset in it. -/
theorem pageVaddr_add_offset (addr : Word) : (pageVaddr addr).toNat + pageOffset addr = addr.toNat :=
  toNat_and_not_add addr (BitVec.ofNat 64 (PAGE_SIZE - 1))

/-- `page[offset..offset + data.len()]` overwritten. -/
def Page.write (page : Page) (offset : Nat) (data : List Byte) : Page := fun i =>
  if offset ≤ i.val then data[i.val - offset]?.getD (page i) else page i

variable (mem : TaskMemInfo)

/-- The task has the page of an address. -/
def TaskMemInfo.hasPage (addr : Word) : Bool := mem.pageData.contains (pageVaddr addr)

/-- The byte at an address, if its page is there. -/
def byteOf (mem : TaskMemInfo) (addr : Word) : Option Byte :=
  mem.pageData[pageVaddr addr]?.map fun page => page ⟨pageOffset addr,pageOffset_lt addr⟩

/-- The page of an address is in `mapped_page`. -/
def TaskMemInfo.isMapped (addr : Word) : Bool := mem.mappedPage.contains (pageVaddr addr)

/-- `read_bytes`: the buffer afterwards, or `false`. -/
def TaskMemInfo.readBytes (addr : Word) (buf : List Byte) : Option (List Byte) :=
  match mem.pageData[pageVaddr addr]? with
  | some page =>
    let len := min buf.length (PAGE_SIZE - pageOffset addr)
    some (List.ofFn (fun i : Fin len => page ⟨pageOffset addr + i.val,by omega⟩) ++ buf.drop len)
  | none => none

/-- One page of a write: a page that is not there starts as zeros, with slot 0. -/
def TaskMemInfo.writePage (vaddr : Word) (offset : Nat) (data : List Byte) : TaskMemInfo :=
  match mem.pageData[vaddr]? with
  | some page => { mem with pageData := mem.pageData.insert vaddr (page.write offset data) }
  | none =>
    { mem with
      mappedPage := mem.mappedPage.insert vaddr 0
      pageData := mem.pageData.insert vaddr (Page.write (fun _ => 0) offset data) }

/-- `write_bytes`, with the memory afterwards. -/
def TaskMemInfo.writeBytes (mem : TaskMemInfo) (addr : Word) (remaining : List Byte) : Bool × TaskMemInfo :=
  if remaining.isEmpty then (true,mem)
  else
    let len := min remaining.length (PAGE_SIZE - pageOffset addr)
    (mem.writePage (pageVaddr addr) (pageOffset addr) (remaining.take len)).writeBytes (addr + BitVec.ofNat 64 len)
      (remaining.drop len)
termination_by remaining.length
decreasing_by
  have inside := pageOffset_lt addr
  have nonempty : 0 < remaining.length := by
    cases remaining with
    | nil => simp at *
    | cons b rest => simp
  rw [List.length_drop]
  omega

/-- `map_blank_page_simple`: a page that is there keeps its slot and its content. -/
def TaskMemInfo.mapBlankPageSimple (vaddr : Word) : TaskMemInfo :=
  { mem with
    mappedPage := mem.mappedPage.insertIfNew (pageVaddr vaddr) 0
    pageData := mem.pageData.insertIfNew (pageVaddr vaddr) (fun _ => 0) }

/-- `(start..end).step_by(PAGE_SIZE)`. -/
def pageRange (start stop : Word) : List Word :=
  (List.range ((stop.toNat - start.toNat + (PAGE_SIZE - 1)) / PAGE_SIZE)).map fun i => start + BitVec.ofNat 64 (i * PAGE_SIZE)

/-- The pages from one page boundary to another. -/
theorem mem_pageRange_index {start stop p : Word} :
    p ∈ pageRange start stop ↔ ∃ i, i * PAGE_SIZE < stop.toNat - start.toNat ∧ p = start + BitVec.ofNat 64 (i * PAGE_SIZE) := by
  rw [pageRange,List.mem_map]
  refine exists_congr fun i => and_congr ?_ eq_comm
  rw [List.mem_range]
  change i < (stop.toNat - start.toNat + 4095) / 4096 ↔ i * 4096 < stop.toNat - start.toNat
  omega

/-- `map_blank_page_simple` for each of some pages. -/
def TaskMemInfo.mapBlankPages (mem : TaskMemInfo) (pages : List Word) : TaskMemInfo :=
  pages.foldl TaskMemInfo.mapBlankPageSimple mem

/-- `mapped_page.remove` and `page_data.remove` for each of some pages. -/
def TaskMemInfo.removePages (mem : TaskMemInfo) (pages : List Word) : TaskMemInfo :=
  pages.foldl (fun mem vaddr => { mem with mappedPage := mem.mappedPage.erase vaddr, pageData := mem.pageData.erase vaddr }) mem

/-- `mapped_page.clear`. -/
def TaskMemInfo.clearPages : TaskMemInfo := { mem with mappedPage := ∅ }

/-- The loop of `find_free_area` over the mapped pages in order. -/
def freeAreaFrom (size : Word) : Word → List Word → Word
  | lastAddr, [] => lastAddr
  | lastAddr, vaddr :: rest =>
    if lastAddr + size ≤ vaddr then lastAddr else freeAreaFrom size (vaddr + BitVec.ofNat 64 PAGE_SIZE) rest

/-- `find_free_area` above the end of the program. -/
def TaskMemInfo.findFreeArea (taskVmEnd start size : Word) : Word :=
  freeAreaFrom size (if start ≤ taskVmEnd then taskVmEnd else start) mem.mappedPage.keys

def TaskMemInfo.readBytesU32 (addr : Word) : Option (BitVec 32) :=
  (mem.readBytes addr [0,0,0,0]).map fun buf => (packWord buf 0).setWidth 32

section
variable {α : Type} (map : Std.ExtTreeMap Word α) (vaddr p : Word) (value : α)

theorem getElem?_insert : (map.insert vaddr value)[p]? = if p = vaddr then some value else map[p]? := by
  simp only [Std.ExtTreeMap.getElem?_insert,Std.LawfulEqOrd.compare_eq_iff_eq]
  exact if_congr eq_comm rfl rfl

theorem getElem?_erase : (map.erase vaddr)[p]? = if p = vaddr then none else map[p]? := by
  simp only [Std.ExtTreeMap.getElem?_erase,Std.LawfulEqOrd.compare_eq_iff_eq]
  exact if_congr eq_comm rfl rfl

theorem getElem?_insertIfNew :
    (map.insertIfNew vaddr value)[p]? = if p = vaddr then some (map[p]?.getD value) else map[p]? := by
  simp only [Std.ExtTreeMap.getElem?_insertIfNew,Std.LawfulEqOrd.compare_eq_iff_eq]
  by_cases here : p = vaddr
  · subst here
    rw [if_pos rfl]
    cases there : map[p]? with
    | none =>
      have absent : p ∉ map := by
        rw [Std.ExtTreeMap.mem_iff_isSome_getElem?,there]
        exact Bool.false_ne_true
      rw [if_pos ⟨rfl,absent⟩]
      rfl
    | some old =>
      have present : p ∈ map := Std.ExtTreeMap.mem_iff_isSome_getElem?.mpr (by rw [there]; rfl)
      rw [if_neg fun both => both.2 present]
      rfl
  · rw [if_neg here,if_neg fun both => here both.1.symm]

end

theorem isMapped_mapBlankPageSimple (vaddr addr : Word) :
    (mem.mapBlankPageSimple vaddr).isMapped addr = (decide (pageVaddr vaddr = pageVaddr addr) || mem.isMapped addr) := by
  unfold TaskMemInfo.isMapped TaskMemInfo.mapBlankPageSimple
  rw [Std.ExtTreeMap.contains_insertIfNew]
  exact congrArg (· || _) (decide_eq_decide.mpr Std.LawfulEqOrd.compare_eq_iff_eq)

theorem readBytes_isSome (addr : Word) (buf : List Byte) :
    (mem.readBytes addr buf).isSome = mem.hasPage addr := by
  unfold TaskMemInfo.readBytes TaskMemInfo.hasPage
  split
  · next page there => simp [← Std.ExtTreeMap.isSome_getElem?_eq_contains,there]
  · next there => simp [← Std.ExtTreeMap.isSome_getElem?_eq_contains,there]

theorem pageVaddr_eq_iff (addr : Word) : pageVaddr addr = addr ↔ addr.toNat % PAGE_SIZE = 0 := by
  have split := pageVaddr_add_offset addr
  rw [pageOffset_eq] at split
  constructor
  · intro same
    rw [same] at split
    omega
  · intro aligned
    apply BitVec.eq_of_toNat_eq
    omega

theorem toNat_pageVaddr (addr : Word) : (pageVaddr addr).toNat = addr.toNat - addr.toNat % PAGE_SIZE := by
  have split := pageVaddr_add_offset addr
  rw [pageOffset_eq] at split
  omega

/-! ## Pages by address -/

/-- The slot of a page in `mapped_page`. -/
def TaskMemInfo.slotAt (vaddr : Word) : Option Word := mem.mappedPage[vaddr]?

/-- The content of a page in `page_data`. -/
def TaskMemInfo.pageAt (vaddr : Word) : Option Page := mem.pageData[vaddr]?

/-- `mapped_page.keys()`. -/
def TaskMemInfo.pages : List Word := mem.mappedPage.keys

/-- The content of a page that has just been added. -/
def Page.zero : Page := fun _ => 0

/-- Both maps have the same pages, at multiples of the page size. -/
structure TaskMemInfo.Consistent (mem : TaskMemInfo) : Prop where
  same : ∀ p, p ∈ mem.mappedPage ↔ p ∈ mem.pageData
  aligned : ∀ p ∈ mem.mappedPage, p.toNat % PAGE_SIZE = 0

variable {mem}

theorem mem_mappedPage_iff {p : Word} : p ∈ mem.mappedPage ↔ (mem.slotAt p).isSome = true :=
  Std.ExtTreeMap.mem_iff_isSome_getElem?

theorem mem_pageData_iff {p : Word} : p ∈ mem.pageData ↔ (mem.pageAt p).isSome = true :=
  Std.ExtTreeMap.mem_iff_isSome_getElem?

theorem mem_pages_iff {p : Word} : p ∈ mem.pages ↔ p ∈ mem.mappedPage := Std.ExtTreeMap.mem_keys

theorem pages_sorted (mem : TaskMemInfo) : mem.pages.Pairwise (· < ·) := by
  refine List.Pairwise.imp ?_ Std.ExtTreeMap.ordered_keys
  intro p q before
  exact compareOfLessAndEq_eq_lt.mp before

theorem memory_ext {m n : TaskMemInfo} (slots : ∀ p, m.slotAt p = n.slotAt p) (pages : ∀ p, m.pageAt p = n.pageAt p) :
    m = n := by
  obtain ⟨mapped,data⟩ := m
  obtain ⟨mapped',data'⟩ := n
  congr
  · exact Std.ExtTreeMap.ext_getElem? slots
  · exact Std.ExtTreeMap.ext_getElem? pages

theorem readBytes_page (addr : Word) (buf : List Byte) :
    mem.readBytes addr buf = (mem.pageAt (pageVaddr addr)).map fun page =>
      List.ofFn (fun i : Fin (min buf.length (PAGE_SIZE - pageOffset addr)) => page ⟨pageOffset addr + i.val,by omega⟩) ++
        buf.drop (min buf.length (PAGE_SIZE - pageOffset addr)) := by
  rw [TaskMemInfo.readBytes,TaskMemInfo.pageAt]
  cases mem.pageData[pageVaddr addr]? with
  | none => rfl
  | some page => rfl

theorem slotAt_default (p : Word) : TaskMemInfo.default.slotAt p = none := Std.ExtTreeMap.getElem?_empty

theorem pageAt_default (p : Word) : TaskMemInfo.default.pageAt p = none := Std.ExtTreeMap.getElem?_empty

theorem slotAt_mapBlankPageSimple (vaddr p : Word) :
    (mem.mapBlankPageSimple vaddr).slotAt p =
      if p = pageVaddr vaddr then some ((mem.slotAt p).getD 0) else mem.slotAt p := by
  rw [TaskMemInfo.slotAt,TaskMemInfo.mapBlankPageSimple,TaskMemInfo.slotAt]
  exact getElem?_insertIfNew mem.mappedPage (pageVaddr vaddr) p 0

theorem pageAt_mapBlankPageSimple (vaddr p : Word) :
    (mem.mapBlankPageSimple vaddr).pageAt p =
      if p = pageVaddr vaddr then some ((mem.pageAt p).getD Page.zero) else mem.pageAt p := by
  rw [TaskMemInfo.pageAt,TaskMemInfo.mapBlankPageSimple,TaskMemInfo.pageAt]
  exact getElem?_insertIfNew mem.pageData (pageVaddr vaddr) p Page.zero

theorem slotAt_writePage (vaddr p : Word) (offset : Nat) (data : List Byte) :
    (mem.writePage vaddr offset data).slotAt p =
      if p = vaddr ∧ mem.pageAt p = none then some 0 else mem.slotAt p := by
  rw [TaskMemInfo.writePage]
  split
  · next page there =>
    rw [if_neg]
    · rfl
    · rintro ⟨rfl,absent⟩
      rw [TaskMemInfo.pageAt,there] at absent
      cases absent
  · next there =>
    refine (getElem?_insert mem.mappedPage vaddr p 0).trans ?_
    by_cases here : p = vaddr
    · rw [if_pos here,if_pos ⟨here,by rw [here]; exact there⟩]
    · rw [if_neg here,if_neg fun both => here both.1]
      rfl

theorem pageAt_writePage (vaddr p : Word) (offset : Nat) (data : List Byte) :
    (mem.writePage vaddr offset data).pageAt p =
      if p = vaddr then some (((mem.pageAt p).getD Page.zero).write offset data) else mem.pageAt p := by
  rw [TaskMemInfo.writePage]
  by_cases here : p = vaddr
  · subst here
    rw [if_pos rfl,show mem.pageAt p = mem.pageData[p]? from rfl]
    cases mem.pageData[p]? with
    | some page => exact (getElem?_insert mem.pageData p p _).trans (if_pos rfl)
    | none => exact (getElem?_insert mem.pageData p p _).trans (if_pos rfl)
  · rw [if_neg here]
    split
    · exact (getElem?_insert mem.pageData vaddr p _).trans (if_neg here)
    · exact (getElem?_insert mem.pageData vaddr p _).trans (if_neg here)

/-- A page taken out before the rest of a list. -/
private theorem if_mem_cons {β : Type} (p vaddr : Word) (rest : List Word) (entry : Option β) :
    (if p ∈ rest then none else if p = vaddr then none else entry) = if p ∈ vaddr :: rest then none else entry := by
  by_cases here : p = vaddr
  · simp [here]
  · simp [here]

theorem slotAt_removePages (pages : List Word) (p : Word) :
    (mem.removePages pages).slotAt p = if p ∈ pages then none else mem.slotAt p := by
  induction pages generalizing mem with
  | nil => rfl
  | cons vaddr rest ih =>
    have first : TaskMemInfo.slotAt { mem with mappedPage := mem.mappedPage.erase vaddr, pageData := mem.pageData.erase vaddr } p =
        if p = vaddr then none else mem.slotAt p := getElem?_erase mem.mappedPage vaddr p
    refine ih.trans ?_
    rw [first]
    exact if_mem_cons p vaddr rest _

theorem pageAt_removePages (pages : List Word) (p : Word) :
    (mem.removePages pages).pageAt p = if p ∈ pages then none else mem.pageAt p := by
  induction pages generalizing mem with
  | nil => rfl
  | cons vaddr rest ih =>
    have first : TaskMemInfo.pageAt { mem with mappedPage := mem.mappedPage.erase vaddr, pageData := mem.pageData.erase vaddr } p =
        if p = vaddr then none else mem.pageAt p := getElem?_erase mem.pageData vaddr p
    refine ih.trans ?_
    rw [first]
    exact if_mem_cons p vaddr rest _

end Sel4Linux.TaskMem
