import Sel4Linux.MemImage
import Mathlib.Data.List.Nodup
import Mathlib.Data.List.Perm.Subperm

/-!
The pages of a segment, in exact numbers: those with an address of it, and the
page of its start when that is inside one. Each of them is listed once.
-/
namespace Sel4Linux.SegmentPages
open Sel4Linux.Bytes Sel4Linux.TaskMem Sel4Linux.MemImage
open Sel4Linux.Overlay (toNat_advance_of_lt)
set_option linter.unusedSimpArgs false

/-- `(start..end).step_by(PAGE_SIZE)` from the page of the start up to the end, rounded up. -/
def segmentPages (vaddr memsz : Word) : List Word :=
  pageRange (pageVaddr vaddr) (pageVaddr (vaddr + memsz + BitVec.ofNat 64 (PAGE_SIZE - 1)))

/-- No address of a segment wraps around, nor does the end of its last page. -/
def WrapsNot (vaddr memsz : Word) : Prop := vaddr.toNat + memsz.toNat + (PAGE_SIZE - 1) < 2 ^ 64

theorem mem_pageRange {start stop p : Word} (first : start.toNat % PAGE_SIZE = 0) (last : stop.toNat % PAGE_SIZE = 0) :
    p ∈ pageRange start stop ↔ p.toNat % PAGE_SIZE = 0 ∧ start.toNat ≤ p.toNat ∧ p.toNat < stop.toNat := by
  have bound := stop.isLt
  rw [mem_pageRange_index]
  change start.toNat % 4096 = 0 at first
  change stop.toNat % 4096 = 0 at last
  change (∃ i, i * 4096 < stop.toNat - start.toNat ∧ p = start + BitVec.ofNat 64 (i * 4096)) ↔ p.toNat % 4096 = 0 ∧ _
  constructor
  · rintro ⟨i,inside,rfl⟩
    have isPage : (start + BitVec.ofNat 64 (i * 4096)).toNat = start.toNat + i * 4096 := by
      rw [toNat_advance_of_lt (by omega)]
    omega
  · rintro ⟨aligned,above,below⟩
    refine ⟨(p.toNat - start.toNat) / 4096,by omega,?_⟩
    apply BitVec.eq_of_toNat_eq
    rw [toNat_advance_of_lt (by omega)]
    omega

theorem nodup_pageRange (start stop : Word) : (pageRange start stop).Nodup := by
  have bound := stop.isLt
  refine List.Nodup.map_on (fun i inside j inside' same => ?_) List.nodup_range
  rw [List.mem_range] at inside inside'
  change i < (_ + 4095) / 4096 at inside
  change j < (_ + 4095) / 4096 at inside'
  have numbers := congrArg BitVec.toNat ((BitVec.add_right_inj start).mp same)
  change (BitVec.ofNat 64 (i * 4096)).toNat = (BitVec.ofNat 64 (j * 4096)).toNat at numbers
  rw [BitVec.toNat_ofNat,BitVec.toNat_ofNat,Nat.mod_eq_of_lt (by omega),Nat.mod_eq_of_lt (by omega)] at numbers
  omega

theorem toNat_roundedEnd {vaddr memsz : Word} (room : WrapsNot vaddr memsz) :
    (vaddr + memsz + BitVec.ofNat 64 (PAGE_SIZE - 1)).toNat = vaddr.toNat + memsz.toNat + 4095 := by
  change vaddr.toNat + memsz.toNat + 4095 < 2 ^ 64 at room
  rw [BitVec.toNat_add,BitVec.toNat_add,Nat.mod_eq_of_lt (by omega : vaddr.toNat + memsz.toNat < 2 ^ 64)]
  exact Nat.mod_eq_of_lt room

theorem mem_segmentPages_iff {vaddr memsz p : Word} (room : WrapsNot vaddr memsz) :
    p ∈ segmentPages vaddr memsz ↔
      p.toNat % PAGE_SIZE = 0 ∧ vaddr.toNat < p.toNat + PAGE_SIZE ∧ p.toNat < vaddr.toNat + memsz.toNat := by
  have size : PAGE_SIZE = 4096 := rfl
  have start := toNat_pageVaddr vaddr
  have stop := toNat_pageVaddr (vaddr + memsz + BitVec.ofNat 64 (PAGE_SIZE - 1))
  rw [toNat_roundedEnd room] at stop
  change _ = _ - _ % 4096 at start
  change _ = _ - _ % 4096 at stop
  rw [segmentPages,mem_pageRange (by rw [start,size]; omega) (by rw [stop,size]; omega),start,stop,size]
  omega

theorem nodup_segmentPages (vaddr memsz : Word) : (segmentPages vaddr memsz).Nodup := nodup_pageRange _ _

/-- The page of byte `k` of a segment, and the place of the byte in it. -/
theorem page_of_byte {vaddr memsz : Word} {k : Nat} (room : WrapsNot vaddr memsz) (inside : k < memsz.toNat) :
    pageVaddr (vaddr + BitVec.ofNat 64 k) ∈ segmentPages vaddr memsz ∧
      (pageVaddr (vaddr + BitVec.ofNat 64 k)).toNat + pageOffset (vaddr + BitVec.ofNat 64 k) = vaddr.toNat + k := by
  have split := pageVaddr_add_offset (vaddr + BitVec.ofNat 64 k)
  have low := pageOffset_lt (vaddr + BitVec.ofNat 64 k)
  have page := toNat_pageVaddr (vaddr + BitVec.ofNat 64 k)
  have size : PAGE_SIZE = 4096 := rfl
  rw [mem_segmentPages_iff room]
  change vaddr.toNat + memsz.toNat + 4095 < 2 ^ 64 at room
  rw [toNat_advance_of_lt (by omega)] at split page
  rw [size] at low page ⊢
  omega

theorem length_segmentPages {vaddr memsz : Word} (room : WrapsNot vaddr memsz) :
    (segmentPages vaddr memsz).length =
      ((pageVaddr (vaddr + memsz + BitVec.ofNat 64 (PAGE_SIZE - 1)) - pageVaddr vaddr) / BitVec.ofNat 64 PAGE_SIZE).toNat := by
  have start := toNat_pageVaddr vaddr
  have stop := toNat_pageVaddr (vaddr + memsz + BitVec.ofNat 64 (PAGE_SIZE - 1))
  rw [toNat_roundedEnd room] at stop
  change _ = _ - _ % 4096 at start
  change _ = _ - _ % 4096 at stop
  rw [segmentPages,pageRange,List.length_map,List.length_range,BitVec.toNat_udiv,
    BitVec.toNat_sub_of_le (BitVec.le_def.mpr (by omega))]
  change (_ - _ + 4095) / 4096 = (_ - _) / 4096
  omega

/-! ## Several segments -/

/-- All pages of some address ranges, each a start and a size. -/
def allPages (ranges : List (Word × Word)) : List Word := ranges.flatMap fun range => segmentPages range.1 range.2

/-- No page is in the page ranges of two segments. -/
def RangesApart (ranges : List (Word × Word)) : Prop := ranges.Pairwise fun range other =>
  ∀ page, ¬ (page ∈ segmentPages range.1 range.2 ∧ page ∈ segmentPages other.1 other.2)

theorem allPages_cons (range : Word × Word) (rest : List (Word × Word)) :
    allPages (range :: rest) = segmentPages range.1 range.2 ++ allPages rest := List.flatMap_cons

variable {ranges : List (Word × Word)}

theorem nodup_allPages (apart : RangesApart ranges) : (allPages ranges).Nodup :=
  List.nodup_flatMap.mpr ⟨fun range _ => nodup_segmentPages range.1 range.2,
    apart.imp fun disjoint page first second => disjoint page ⟨first,second⟩⟩

/-- A page is in the page range of no more than one segment. -/
theorem RangesApart.unique (apart : RangesApart ranges) {m n : Nat} {range other : Word × Word} (first : ranges[m]? = some range)
    (second : ranges[n]? = some other) {page : Word} (inFirst : page ∈ segmentPages range.1 range.2)
    (inSecond : page ∈ segmentPages other.1 other.2) : m = n := by
  obtain ⟨small,rfl⟩ := List.getElem?_eq_some_iff.mp first
  obtain ⟨small',rfl⟩ := List.getElem?_eq_some_iff.mp second
  rcases Nat.lt_trichotomy m n with before | same | after
  · exact absurd ⟨inFirst,inSecond⟩ (List.pairwise_iff_getElem.mp apart m n small small' before page)
  · exact same
  · exact absurd ⟨inSecond,inFirst⟩ (List.pairwise_iff_getElem.mp apart n m small' small after page)

theorem few_allPages (room : ∀ range ∈ ranges, WrapsNot range.1 range.2) (apart : RangesApart ranges) :
    (allPages ranges).length ≤ 2 ^ 52 := by
  have aligned (page) (member : page ∈ allPages ranges) : page.toNat % 4096 = 0 := by
    obtain ⟨range,isRange,inRange⟩ := List.mem_flatMap.mp member
    exact ((mem_segmentPages_iff (room range isRange)).mp inRange).1
  have once : ((allPages ranges).map fun page => page.toNat / 4096).Nodup := by
    refine (nodup_allPages apart).map_on fun page member other member' same => BitVec.eq_of_toNat_eq ?_
    have first := aligned page member
    have second := aligned other member'
    omega
  have inside : (allPages ranges).map (fun page => page.toNat / 4096) ⊆ List.range (2 ^ 52) := by
    intro n member
    obtain ⟨page,_,rfl⟩ := List.mem_map.mp member
    have bound := page.isLt
    rw [List.mem_range]
    omega
  have short := (once.subperm inside).length_le
  rw [List.length_map,List.length_range] at short
  exact short

end Sel4Linux.SegmentPages
