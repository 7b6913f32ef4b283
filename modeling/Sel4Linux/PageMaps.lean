import Sel4Linux.MemImage
import Sel4Linux.Task
import Mathlib.Order.Interval.Set.Defs

/-!
The two page maps of a task's memory, page by page. Every operation keeps them on
the same pages, at multiples of the page size (`Consistent`). A write sets the
bytes of its range and adds the pages that it touches, whatever else is there
(`write_bytes_update`); what it has written is read back by one call only within
a page (`read_back_iff`).
-/
namespace Sel4Linux.PageMaps
open Sel4Linux.Bytes Sel4Linux.TaskMem Sel4Linux.MemImage Sel4Linux.Task
open Sel4Linux.Overlay (toNat_advance_of_lt)
set_option linter.unusedSimpArgs false

variable {mem : TaskMemInfo}

/-! ## Pages that stay in step -/

theorem consistent_iff : mem.Consistent ↔
    ∀ p, (mem.slotAt p).isSome = (mem.pageAt p).isSome ∧ ((mem.slotAt p).isSome = true → p.toNat % PAGE_SIZE = 0) := by
  constructor
  · intro consistent p
    refine ⟨?_,fun mapped => consistent.aligned p (mem_mappedPage_iff.mpr mapped)⟩
    have same := consistent.same p
    rw [mem_mappedPage_iff,mem_pageData_iff] at same
    exact Bool.eq_iff_iff.mpr same
  · intro each
    refine ⟨fun p => ?_,fun p mapped => (each p).2 (mem_mappedPage_iff.mp mapped)⟩
    rw [mem_mappedPage_iff,mem_pageData_iff,(each p).1]

theorem consistent_default : TaskMemInfo.default.Consistent := by
  refine consistent_iff.mpr fun p => ?_
  rw [slotAt_default,pageAt_default]
  exact ⟨rfl,fun absent => by cases absent⟩

theorem pageVaddr_aligned (addr : Word) : (pageVaddr addr).toNat % PAGE_SIZE = 0 :=
  (pageVaddr_eq_iff (pageVaddr addr)).mp (pageVaddr_pageVaddr addr)

theorem consistent_mapBlankPageSimple (consistent : mem.Consistent) (vaddr : Word) :
    (mem.mapBlankPageSimple vaddr).Consistent := by
  refine consistent_iff.mpr fun p => ?_
  rw [slotAt_mapBlankPageSimple,pageAt_mapBlankPageSimple]
  by_cases here : p = pageVaddr vaddr
  · rw [if_pos here,if_pos here,here]
    exact ⟨rfl,fun _ => pageVaddr_aligned vaddr⟩
  · rw [if_neg here,if_neg here]
    exact consistent_iff.mp consistent p

theorem consistent_mapBlankPages (consistent : mem.Consistent) (pages : List Word) : (mem.mapBlankPages pages).Consistent := by
  induction pages generalizing mem with
  | nil => exact consistent
  | cons vaddr rest ih => exact ih (consistent_mapBlankPageSimple consistent vaddr)

theorem consistent_writePage (consistent : mem.Consistent) (addr : Word) (offset : Nat) (data : List Byte) :
    (mem.writePage (pageVaddr addr) offset data).Consistent := by
  refine consistent_iff.mpr fun p => ?_
  obtain ⟨same,aligned⟩ := consistent_iff.mp consistent p
  rw [slotAt_writePage,pageAt_writePage]
  by_cases here : p = pageVaddr addr
  · rw [if_pos here]
    refine ⟨?_,fun _ => here ▸ pageVaddr_aligned addr⟩
    by_cases absent : mem.pageAt p = none
    · rw [if_pos ⟨here,absent⟩]
      rfl
    · rw [if_neg fun both => absent both.2,same]
      exact Option.isSome_iff_ne_none.mpr absent
  · rw [if_neg here,if_neg fun both => here both.1]
    exact ⟨same,aligned⟩

theorem consistent_writeBytes (consistent : mem.Consistent) (addr : Word) (data : List Byte) :
    (mem.writeBytes addr data).2.Consistent := by
  induction mem, addr, data using TaskMemInfo.writeBytes.induct with
  | case1 mem addr data empty =>
    rw [TaskMemInfo.writeBytes,if_pos empty]
    exact consistent
  | case2 mem addr data more len ih =>
    rw [TaskMemInfo.writeBytes,if_neg more]
    exact ih (consistent_writePage consistent addr (pageOffset addr) (data.take len))

theorem consistent_runOps (consistent : mem.Consistent) (ops : List MemOp) : (runOps mem ops).Consistent := by
  induction ops generalizing mem with
  | nil => exact consistent
  | cons op rest ih =>
    refine ih ?_
    cases op with
    | map vaddr => exact consistent_mapBlankPageSimple consistent vaddr
    | write addr data => exact consistent_writeBytes consistent addr data

theorem consistent_removePages (consistent : mem.Consistent) (pages : List Word) : (mem.removePages pages).Consistent := by
  refine consistent_iff.mpr fun p => ?_
  rw [slotAt_removePages,pageAt_removePages]
  by_cases removed : p ∈ pages
  · rw [if_pos removed,if_pos removed]
    exact ⟨rfl,fun present => by cases present⟩
  · rw [if_neg removed,if_neg removed]
    exact consistent_iff.mp consistent p

/-! ## Lookups after many page maps -/

theorem slotAt_mapBlankPages (pages : List Word) (p : Word) :
    (mem.mapBlankPages pages).slotAt p =
      if p ∈ pages.map pageVaddr then some ((mem.slotAt p).getD 0) else mem.slotAt p := by
  induction pages generalizing mem with
  | nil => rfl
  | cons vaddr rest ih =>
    refine ih.trans ?_
    rw [slotAt_mapBlankPageSimple]
    by_cases here : p = pageVaddr vaddr
    · simp [here]
    · simp [here]

theorem pageAt_mapBlankPages (pages : List Word) (p : Word) :
    (mem.mapBlankPages pages).pageAt p =
      if p ∈ pages.map pageVaddr then some ((mem.pageAt p).getD Page.zero) else mem.pageAt p := by
  induction pages generalizing mem with
  | nil => rfl
  | cons vaddr rest ih =>
    refine ih.trans ?_
    rw [pageAt_mapBlankPageSimple]
    by_cases here : p = pageVaddr vaddr
    · simp [here]
    · simp [here]

/-! ## Writes -/

/-- The addresses of `n` bytes from `addr` on. -/
def addresses (addr : Word) (n : Nat) : Set Nat := Set.Ico addr.toNat (addr.toNat + n)

theorem writeBytes_fst (addr : Word) (data : List Byte) : (mem.writeBytes addr data).1 = true := by
  induction mem, addr, data using TaskMemInfo.writeBytes.induct with
  | case1 mem addr data empty => rw [TaskMemInfo.writeBytes,if_pos empty]
  | case2 mem addr data more len ih =>
    rw [TaskMemInfo.writeBytes,if_neg more]
    exact ih

/-- A write adds the pages that it touches and keeps the slots that are there. -/
theorem slotAt_writeBytes (consistent : mem.Consistent) (addr : Word) (data : List Byte) (p : Word) :
    (∀ slot, mem.slotAt p = some slot → (mem.writeBytes addr data).2.slotAt p = some slot) ∧
      (((mem.writeBytes addr data).2.slotAt p).isSome = true ↔
        (mem.slotAt p).isSome = true ∨ Touches addr data.length p) := by
  induction mem, addr, data using TaskMemInfo.writeBytes.induct with
  | case1 mem addr data empty =>
    rw [TaskMemInfo.writeBytes,if_pos empty,List.isEmpty_iff.mp empty]
    refine ⟨fun slot there => there,Iff.symm (or_iff_left ?_)⟩
    rintro ⟨i,inside,_⟩
    cases inside
  | case2 mem addr data more len ih =>
    have nonempty : 0 < data.length := List.length_pos_iff.mpr fun empty => more (List.isEmpty_iff.mpr empty)
    obtain ⟨keeps,adds⟩ := ih (consistent_writePage consistent addr (pageOffset addr) (data.take len))
    rw [slotAt_writePage] at keeps adds
    rw [TaskMemInfo.writeBytes,if_neg more,touches_step addr p nonempty]
    rw [List.length_drop] at adds
    have same := (consistent_iff.mp consistent p).1
    by_cases added : p = pageVaddr addr ∧ mem.pageAt p = none
    · rw [if_pos added] at keeps adds
      rw [added.2] at same
      constructor
      · intro slot there
        rw [there] at same
        cases same
      · exact adds.trans (iff_of_true (.inl rfl) (.inr (.inl added.1)))
    · rw [if_neg added] at keeps adds
      refine ⟨keeps,adds.trans ?_⟩
      by_cases here : p = pageVaddr addr
      · have present : (mem.slotAt p).isSome = true := by
          rw [same]
          exact Option.isSome_iff_ne_none.mpr fun absent => added ⟨here,absent⟩
        exact iff_of_true (.inl present) (.inl present)
      · rw [or_iff_right here]

theorem touches_iff {addr : Word} {n : Nat} (room : addr.toNat + n ≤ 2 ^ 64) (vaddr : Word) :
    Touches addr n vaddr ↔ ∃ a : Word, a.toNat ∈ addresses addr n ∧ pageVaddr a = vaddr := by
  constructor
  · rintro ⟨i,inside,here⟩
    refine ⟨addr + BitVec.ofNat 64 i,?_,here⟩
    rw [toNat_advance_of_lt (by omega)]
    exact ⟨Nat.le_add_right _ i,Nat.add_lt_add_left inside _⟩
  · rintro ⟨a,⟨above,below⟩,here⟩
    refine ⟨a.toNat - addr.toNat,by omega,?_⟩
    rw [show addr + BitVec.ofNat 64 (a.toNat - addr.toNat) = a from ?_]
    · exact here
    · apply BitVec.eq_of_toNat_eq
      rw [toNat_advance (by omega)]
      omega

theorem byteOf_isSome (a : Word) : (byteOf mem a).isSome = (mem.pageAt (pageVaddr a)).isSome := Option.isSome_map

/-- `write_bytes` as an update of the memory: the bytes of its range are the data; of the others, those of pages that
    were there are the old ones and those of pages that it adds are zeros. It adds the pages of its range, and keeps
    every slot, the end of the heap and what is known of the program. -/
theorem write_bytes_update (task : Sel4Task) (consistent : task.mem.Consistent) (addr : Word) (data : List Byte)
    (room : addr.toNat + data.length ≤ 2 ^ 64) :
    (task.mem.writeBytes addr data).1 = true ∧
      (∀ a : Word, a.toNat ∈ addresses addr data.length →
        byteOf (task.write addr data).mem a = data[a.toNat - addr.toNat]?) ∧
      (∀ a : Word, a.toNat ∉ addresses addr data.length → (task.mem.pageAt (pageVaddr a)).isSome →
        byteOf (task.write addr data).mem a = byteOf task.mem a) ∧
      (∀ a : Word, a.toNat ∉ addresses addr data.length → ¬ (task.mem.pageAt (pageVaddr a)).isSome →
        ((task.write addr data).mem.pageAt (pageVaddr a)).isSome → byteOf (task.write addr data).mem a = some 0) ∧
      (∀ p, ((task.write addr data).mem.pageAt p).isSome ↔
        (task.mem.pageAt p).isSome ∨ ∃ a : Word, a.toNat ∈ addresses addr data.length ∧ pageVaddr a = p) ∧
      (∀ p, ((task.write addr data).mem.slotAt p).isSome ↔
        (task.mem.slotAt p).isSome ∨ ∃ a : Word, a.toNat ∈ addresses addr data.length ∧ pageVaddr a = p) ∧
      (∀ p slot, task.mem.slotAt p = some slot → (task.write addr data).mem.slotAt p = some slot) ∧
      (task.write addr data).heap = task.heap ∧ (task.write addr data).taskVmEnd = task.taskVmEnd ∧
      (task.write addr data).entry = task.entry := by
  have byte (a : Word) : byteOf (task.write addr data).mem a = (writeEffect addr data a).apply (byteOf task.mem a) :=
    byteOf_writeBytes addr data
  have spec (a : Word) : WriteSpec addr data a (writeEffect addr data a) := writeEffect_spec addr data (by omega)
  have outside {a : Word} (out : a.toNat ∉ addresses addr data.length) : data.length ≤ (a - addr).toNat := by
    rw [toNat_distance]
    split
    · by_contra near
      exact out ⟨by assumption,by omega⟩
    · omega
  have slots (p : Word) : ((task.write addr data).mem.slotAt p).isSome ↔
      (task.mem.slotAt p).isSome ∨ ∃ a : Word, a.toNat ∈ addresses addr data.length ∧ pageVaddr a = p := by
    rw [← touches_iff room p]
    exact (slotAt_writeBytes consistent addr data p).2
  have pages (p : Word) : ((task.write addr data).mem.pageAt p).isSome ↔
      (task.mem.pageAt p).isSome ∨ ∃ a : Word, a.toNat ∈ addresses addr data.length ∧ pageVaddr a = p := by
    rw [← (consistent_iff.mp consistent p).1,← slots p]
    exact Bool.eq_iff_iff.mp (consistent_iff.mp (consistent_writeBytes consistent addr data) p).1.symm
  refine ⟨writeBytes_fst addr data,?_,?_,?_,pages,slots,
    fun p slot there => (slotAt_writeBytes consistent addr data p).1 slot there,rfl,rfl,rfl⟩
  · rintro a ⟨above,below⟩
    have distance : (a - addr).toNat = a.toNat - addr.toNat := (toNat_distance a addr).trans (if_pos above)
    obtain ⟨own,value⟩ : ∃ own, data[a.toNat - addr.toNat]? = some own := ⟨_,List.getElem?_eq_getElem (by omega)⟩
    rw [byte,(spec a).inside own (by rw [distance]; exact value),value]
    rfl
  · intro a out present
    obtain ⟨old,isOld⟩ := Option.isSome_iff_exists.mp ((byteOf_isSome a).trans present)
    rw [byte,isOld]
    by_cases touched : Touches addr data.length (pageVaddr a)
    · rw [(spec a).beside (outside out) touched]
      rfl
    · rw [(spec a).apart touched]
      rfl
  · intro a out absent added
    have touched : Touches addr data.length (pageVaddr a) :=
      (touches_iff room (pageVaddr a)).mpr (((pages (pageVaddr a)).mp added).resolve_left absent)
    have nothing : byteOf task.mem a = none := by
      rw [← Option.not_isSome_iff_eq_none,byteOf_isSome]
      exact absent
    rw [byte,nothing,(spec a).beside (outside out) touched]
    rfl

/-- Two bytes on both sides of a page boundary, in a task without pages. -/
theorem write_bytes_update_boundary : (Sel4Task.new 1 1).mem.Consistent ∧
    byteOf ((Sel4Task.new 1 1).write 0xFFF [1,2]).mem 0x1000 = some 2 ∧
    byteOf ((Sel4Task.new 1 1).write 0xFFF [1,2]).mem 0xFFE = some 0 ∧
    (((Sel4Task.new 1 1).write 0xFFF [1,2]).mem.slotAt 0x1000).isSome := by
  obtain ⟨_,inside,_,added,pages,slots,_⟩ :=
    write_bytes_update (Sel4Task.new 1 1) consistent_default 0xFFF [1,2] (by decide)
  have last : (0x1000#64).toNat ∈ addresses 0xFFF 2 := ⟨by decide,by decide⟩
  have first : (0xFFF#64).toNat ∈ addresses 0xFFF 2 := ⟨by decide,by decide⟩
  refine ⟨consistent_default,inside 0x1000 last,added 0xFFE ?_ ?_ ?_,(slots 0x1000).mpr (.inr ⟨0x1000,last,by decide⟩)⟩
  · intro out
    exact absurd out.1 (by decide)
  · rw [show (Sel4Task.new 1 1).mem = TaskMemInfo.default from rfl,pageAt_default]
    exact Bool.false_ne_true
  · exact (pages (pageVaddr 0xFFE)).mpr (.inr ⟨0xFFF,first,by decide⟩)

/-! ## Reading back -/

/-- A write within one page is there as a whole. -/
private theorem read_within_page {addr : Word} {data buf : List Byte} (nonempty : data ≠ [])
    (within : pageOffset addr + data.length ≤ PAGE_SIZE) (sameLength : buf.length = data.length) :
    (mem.writeBytes addr data).2.readBytes addr buf = some data := by
  have more : ¬ data.isEmpty = true := fun empty => nonempty (List.isEmpty_iff.mp empty)
  have len : min data.length (PAGE_SIZE - pageOffset addr) = data.length := by omega
  have once : (mem.writeBytes addr data).2 = mem.writePage (pageVaddr addr) (pageOffset addr) data := by
    rw [TaskMemInfo.writeBytes,if_neg more,len]
    dsimp only
    rw [List.take_length,List.drop_length,TaskMemInfo.writeBytes]
    rfl
  rw [once,readBytes_page,pageAt_writePage,if_pos rfl]
  refine congrArg some ?_
  dsimp only
  rw [List.drop_eq_nil_of_le (by omega),List.append_nil]
  refine List.ext_getElem (by simp [sameLength,len]) ?_
  intro i inRead inData
  have index : pageOffset addr + i - pageOffset addr = i := by omega
  simp [Page.write,index,List.getElem?_eq_getElem inData]

/-- What a read leaves of its buffer past the end of the page. -/
private theorem read_keeps_rest {addr : Word} {data buf : List Byte} (read : mem.readBytes addr buf = some data) :
    data.drop (min buf.length (PAGE_SIZE - pageOffset addr)) = buf.drop (min buf.length (PAGE_SIZE - pageOffset addr)) := by
  rw [readBytes_page] at read
  obtain ⟨page,_,isData⟩ := Option.map_eq_some_iff.mp read
  rw [← isData]
  exact List.drop_left' List.length_ofFn

/-- For every memory, address and byte string: what has been written there is read back into every buffer of its
    length exactly when it is in one page, or is empty and its page is there. -/
theorem read_back_iff (mem : TaskMemInfo) (addr : Word) (data : List Byte) :
    (∀ buf, buf.length = data.length → (mem.writeBytes addr data).2.readBytes addr buf = some data) ↔
      if data = [] then mem.hasPage addr = true else pageOffset addr + data.length ≤ PAGE_SIZE := by
  by_cases empty : data = []
  · subst empty
    have same : (mem.writeBytes addr []).2 = mem := by
      rw [TaskMemInfo.writeBytes]
      rfl
    rw [if_pos rfl,same,← readBytes_isSome mem addr []]
    constructor
    · intro all
      rw [all [] rfl]
      rfl
    · intro there buf none
      obtain rfl := List.length_eq_zero_iff.mp none
      obtain ⟨out,isOut⟩ := Option.isSome_iff_exists.mp there
      have kept := read_keeps_rest isOut
      rw [List.length_nil,Nat.zero_min,List.drop_zero,List.drop_zero] at kept
      rw [isOut,kept]
  · rw [if_neg empty]
    constructor
    · intro all
      by_contra across
      have inside := pageOffset_lt addr
      -- Past the first page two buffers keep their own bytes.
      have zeros := read_keeps_rest (all (List.replicate data.length 0) (by simp))
      have ones := read_keeps_rest (all (List.replicate data.length 1) (by simp))
      rw [List.length_replicate] at zeros ones
      rw [zeros,List.drop_replicate,List.drop_replicate,List.replicate_inj] at ones
      have bytes : (0 : Byte) = 1 := ones.2.resolve_left (by omega)
      cases bytes
    · intro within buf sameLength
      exact read_within_page empty within sameLength

/-- Two bytes on both sides of a page boundary: the second one is not read back. -/
theorem not_read_back : ¬ ∀ (mem : TaskMemInfo) (addr : Word) (data buf : List Byte),
    addr.toNat + data.length ≤ 2 ^ 64 - 4096 → buf.length = data.length →
      (mem.writeBytes addr data).2.readBytes addr buf = some data := by
  intro all
  have two := all TaskMemInfo.default 0xFFF [1,2] [0,0] (by decide) rfl
  revert two
  decide +kernel

end Sel4Linux.PageMaps
