import Sel4Linux.ElfBounds
import Sel4Linux.Exception
import Sel4Linux.PageMaps

/-!
The syscall instructions that `load_elf` patches. A site is recognised later by
the four bytes that are read from it. These are the patch exactly when it does not
go over the end of its page and no other patch lies over its last two bytes
(`sites_trap_iff`).
-/
namespace Sel4Linux.SyscallSites
open Sel4Linux.Bytes Sel4Linux.Ipc Sel4Linux.TaskMem Sel4Linux.MemImage Sel4Linux.PageMaps Sel4Linux.Task Sel4Linux.Execve
open Sel4Linux.Runs Sel4Linux.Loader Sel4Linux.ElfBounds
open Sel4Linux.Exception (TRAP_INST)
open Sel4Linux.Overlay (start_add_distance toNat_advance_of_lt)
set_option linter.unusedSimpArgs false

variable {mem : TaskMemInfo}

/-! ## Reading a trap -/

private theorem eq_of_packed {buf : List Byte} (four : buf.length = 4) (packed : (packWord buf 0).setWidth 32 = TRAP_INST) :
    buf = TRAP_BYTES := by
  have isTrap : (packWord TRAP_BYTES 0).setWidth 32 = TRAP_INST := by decide
  refine List.ext_getElem (by rw [four]; rfl) fun j inside inside' => ?_
  have byte : byteAt (packWord buf 0) j = byteAt (packWord TRAP_BYTES 0) j := by
    apply BitVec.eq_of_getLsbD_eq
    intro k low
    have bit := congrArg (fun w => w.getLsbD (j * 8 + k)) (packed.trans isTrap.symm)
    simp only [BitVec.getLsbD_setWidth] at bit
    rw [byteAt_getLsbD _ _ _ low,byteAt_getLsbD _ _ _ low]
    simpa [show j * 8 + k < 32 by omega] using bit
  rw [byteAt_packWord _ _ _ (by omega),byteAt_packWord _ _ _ (by omega)] at byte
  simpa [List.getD_eq_getElem?_getD,List.getElem?_eq_getElem inside,List.getElem?_eq_getElem inside'] using byte

/-- The recogniser sees a trap exactly when its four bytes are in one page of the task's memory. -/
theorem traps_iff (addr : Word) : mem.readBytesU32 addr = some TRAP_INST ↔
    pageOffset addr + 4 ≤ PAGE_SIZE ∧ ∀ i < 4, byteOf mem (addr + BitVec.ofNat 64 i) = TRAP_BYTES[i]? := by
  have inside := pageOffset_lt addr
  rw [TaskMemInfo.readBytesU32,readBytes_page]
  constructor
  · intro read
    obtain ⟨buf,isBuf,packed⟩ := Option.map_eq_some_iff.mp read
    obtain ⟨page,there,isRead⟩ := Option.map_eq_some_iff.mp isBuf
    have four : buf.length = 4 := by
      rw [← isRead]
      simp
    obtain rfl := eq_of_packed four packed
    have within : pageOffset addr + 4 ≤ PAGE_SIZE := by
      by_contra across
      have last := congrArg (fun b => b[3]?) isRead
      have zero : ([0,0,0,0] : List Byte)[3]? = some 0 := rfl
      simp only [List.length_cons,List.length_nil] at last
      rw [List.getElem?_append_right (by rw [List.length_ofFn]; omega),List.length_ofFn,List.getElem?_drop,
        Nat.add_sub_cancel' (by omega),zero] at last
      cases last
    refine ⟨within,fun i small => ?_⟩
    have byte := congrArg (fun b => b[i]?) isRead
    rw [List.getElem?_append_left (by rw [List.length_ofFn]; simp; omega),List.getElem?_ofFn,dif_pos (by simp; omega)] at byte
    rw [byteOf_within (by omega),there,← byte]
    rfl
  · rintro ⟨within,bytes⟩
    have first := bytes 0 (by decide)
    rw [byteOf_within (by omega)] at first
    obtain ⟨page,there,_⟩ := Option.map_eq_some_iff.mp first
    rw [there]
    have isTrap : (packWord TRAP_BYTES 0).setWidth 32 = TRAP_INST := by decide
    refine Option.map_eq_some_iff.mpr ⟨TRAP_BYTES,Option.map_eq_some_iff.mpr ⟨page,rfl,?_⟩,isTrap⟩
    have len : min ([0,0,0,0] : List Byte).length (PAGE_SIZE - pageOffset addr) = 4 := by
      simp
      omega
    refine List.ext_getElem? fun i => ?_
    rcases Nat.lt_or_ge i 4 with small | large
    · have byte := bytes i small
      rw [byteOf_within (by omega),there] at byte
      rw [List.getElem?_append_left (by rw [List.length_ofFn,len]; exact small),List.getElem?_ofFn,
        dif_pos (by rw [len]; exact small)]
      exact byte
    · rw [List.getElem?_eq_none (by simp; omega),List.getElem?_eq_none (show TRAP_BYTES.length ≤ i from large)]

/-! ## What load_elf writes -/

/-- The write of a segment's bytes, and the patches over it. -/
def imageWrites (data : List Byte) (seg : Segment) : List MemOp :=
  .write seg.vaddr (fileBytes data seg) ::
    (sites (fileBytes data seg)).map fun j => .write (seg.vaddr + BitVec.ofNat 64 j) TRAP_BYTES

theorem release_patches (vaddr : Word) (found : List Nat) :
    release.patches vaddr found = .ok (found.map fun j => .write (vaddr + BitVec.ofNat 64 j) TRAP_BYTES) := by
  induction found with
  | nil => rfl
  | cons j rest ih =>
    change (release.write (vaddr + BitVec.ofNat 64 j) TRAP_BYTES >>= fun patch =>
      release.patches vaddr rest >>= fun later => Except.ok (patch :: later)) = _
    rw [release_write,ih]
    rfl

theorem release_fileBytes {data bytes : List Byte} {seg : Segment} (read : release.fileData data seg = .ok bytes) :
    bytes = fileBytes data seg ∧ seg.fileOffset.toNat + seg.filesz.toNat ≤ data.length := by
  rw [release_fileData,slice_ok_iff,BitVec.toNat_add] at read
  obtain ⟨order,inFile,isBytes⟩ := read
  have bound := seg.filesz.isLt
  have bound' := seg.fileOffset.isLt
  have exact' : (seg.fileOffset.toNat + seg.filesz.toNat) % 2 ^ 64 = seg.fileOffset.toNat + seg.filesz.toNat := by omega
  rw [exact'] at isBytes inFile
  exact ⟨isBytes,inFile⟩

/-- The maps of a segment's pages, then its writes if the file has bytes for it. -/
def segmentImage (data : List Byte) (seg : Segment) : List MemOp :=
  (pageRange (pageVaddr seg.vaddr) (pageVaddr (seg.vaddr + seg.memsz + BitVec.ofNat 64 (PAGE_SIZE - 1)))).map MemOp.map ++
    if 0 < seg.filesz then imageWrites data seg else []

theorem release_loadSegment {data : List Byte} {seg : Segment} {load : Word × List MemOp}
    (loaded : release.loadSegment data seg = .ok load) :
    load.2 = segmentImage data seg ∧ (fileBytes data seg).length = seg.filesz.toNat := by
  rw [Arith.loadSegment,release_mapSegment,ok_bind] at loaded
  dsimp only at loaded
  rw [segmentImage]
  by_cases some' : 0 < seg.filesz
  · rw [if_pos some'] at loaded ⊢
    obtain ⟨bytes,read,rest⟩ := bind_ok_iff.mp loaded
    obtain ⟨rfl,inFile⟩ := release_fileBytes read
    rw [release_write,ok_bind,release_patches,ok_bind] at rest
    cases rest
    exact ⟨rfl,length_fileBytes inFile⟩
  · rw [if_neg some'] at loaded ⊢
    cases loaded
    refine ⟨(List.append_nil _).symm,?_⟩
    rw [fileBytes_empty some']
    exact (Nat.eq_zero_of_not_pos fun there => some' (BitVec.lt_def.mpr there)).symm

theorem images_of_loads {data : List Byte} {segments : List ElfSegment} {loads : List (Word × List MemOp)}
    (both : List.Forall₂ (fun load (seg : ElfSegment) => release.loadSegment data seg.toSegment = .ok load) loads segments) :
    loads.flatMap Prod.snd = segments.flatMap (fun seg => segmentImage data seg.toSegment) ∧
      ∀ seg ∈ segments, (fileBytes data seg.toSegment).length = seg.filesz.toNat := by
  induction both with
  | nil => exact ⟨rfl,fun seg member => by cases member⟩
  | cons loaded _ ih =>
    obtain ⟨image,length⟩ := release_loadSegment loaded
    rw [List.flatMap_cons,List.flatMap_cons,ih.1,image]
    refine ⟨rfl,fun seg member => ?_⟩
    rcases List.mem_cons.mp member with same | later
    · rw [same]
      exact length
    · exact ih.2 seg later

/-- The flags between two fields that are in the file are in the file. -/
theorem field_of_neighbours {data : List Byte} (sized : data.length < 2 ^ 63) {phOff pType pOffset : Word}
    (isType : release.field data phOff 0 4 = .ok pType) (isOffset : release.field data phOff 8 8 = .ok pOffset) :
    Finishes (release.field data phOff 4 4) := by
  rw [release_field,field] at isType isOffset ⊢
  obtain ⟨bytes,first,_⟩ := bind_ok_iff.mp isType
  obtain ⟨bytes',third,_⟩ := bind_ok_iff.mp isOffset
  obtain ⟨order,inFile,_⟩ := (slice_ok_iff ..).mp first
  obtain ⟨order',inFile',_⟩ := (slice_ok_iff ..).mp third
  rw [show phOff + 0 = phOff from BitVec.add_zero phOff] at order inFile
  have second := (slice_ok_iff data (phOff + 4) (phOff + 4 + 4) _).mpr ⟨by bv_omega,by bv_omega,rfl⟩
  rw [second]
  exact finishes_ok _

/-- A header that `load_elf` reads is one that `parse_elf` reads, as the same segment. -/
theorem parseSegment_of_loadHeader {data : List Byte} (sized : data.length < 2 ^ 63) {phOff : Word}
    {load : Option (Word × List MemOp)} (visited : release.loadHeader data phOff = .ok load) :
    ∃ seg, release.parseSegment data phOff = .ok seg ∧
      Option.Rel (fun load (seg : ElfSegment) => release.loadSegment data seg.toSegment = .ok load) load seg := by
  obtain ⟨pType,isType,visited⟩ := bind_ok_iff.mp visited
  obtain ⟨seg,isSegment,visited⟩ := bind_ok_iff.mp visited
  obtain ⟨pOffset,isOffset,_⟩ := bind_ok_iff.mp isSegment
  obtain ⟨flags,isFlags⟩ := field_of_neighbours sized isType isOffset
  rw [Arith.parseSegment,isType,ok_bind,isSegment,ok_bind,isFlags,ok_bind]
  by_cases other : pType ≠ PT_LOAD
  · rw [if_pos other] at visited ⊢
    cases visited
    exact ⟨none,rfl,.none⟩
  · rw [if_neg other] at visited ⊢
    obtain ⟨loads,loaded,visited⟩ := bind_ok_iff.mp visited
    cases visited
    exact ⟨_,rfl,.some loaded⟩

/-- `parse_elf` accepts whatever `load_elf` accepts, and finds the segments that it loads. -/
theorem parsed_of_loaded {task task' : Sel4Task} {data : List Byte} {entry : Word} (sized : data.length < 2 ^ 63)
    (accepted : loadElf release task data = .ok (some entry,task')) : ∃ elf, parseElf release data = .ok (some elf) ∧
      task'.mem = runOps task.mem (elf.segments.flatMap fun seg => segmentImage data seg.toSegment) ∧
      ∀ seg ∈ elf.segments, (fileBytes data seg.toSegment).length = seg.filesz.toNat := by
  rw [loadElf] at accepted
  rw [parseElf]
  cases isRejected : rejected data with
  | true =>
    rw [isRejected,if_pos rfl] at accepted
    cases accepted
  | false =>
    rw [isRejected,if_neg Bool.false_ne_true] at accepted
    rw [if_neg Bool.false_ne_true]
    obtain ⟨h,isHeader,accepted⟩ := bind_ok_iff.mp accepted
    obtain ⟨loads,ran,accepted⟩ := bind_ok_iff.mp accepted
    obtain ⟨past,_,accepted⟩ := bind_ok_iff.mp accepted
    cases accepted
    obtain ⟨segments,ran',both⟩ :=
      forHeaders_simulates (Arith.Below.refl release) (fun _ _ visited => parseSegment_of_loadHeader sized visited) ran
    obtain ⟨images,lengths⟩ := images_of_loads both
    refine ⟨{ entry := h.entry, segments := segments },by rw [isHeader,ok_bind,ran',ok_bind],?_,lengths⟩
    dsimp only
    rw [images]

/-! ## Which byte a site ends up with -/

/-- No page has bytes of both segments. -/
def PagesApart (s t : ElfSegment) : Prop :=
  ∀ vaddr, ¬ (Touches s.vaddr s.filesz.toNat vaddr ∧ Touches t.vaddr t.filesz.toNat vaddr)

/-- The four bytes of a patch are in one page. -/
def InPage (addr : Word) : Prop := pageOffset addr + 4 ≤ PAGE_SIZE

/-- The operations of a segment: maps of its pages, the write of its bytes and a patch for each site. -/
theorem segmentImage_cases {data : List Byte} {seg : Segment} {op : MemOp} (member : op ∈ segmentImage data seg) :
    (∃ page ∈ pageRange (pageVaddr seg.vaddr) (pageVaddr (seg.vaddr + seg.memsz + BitVec.ofNat 64 (PAGE_SIZE - 1))),
      op = .map page) ∨
      op = .write seg.vaddr (fileBytes data seg) ∨
        ∃ k, SyscallAt (fileBytes data seg) k ∧ op = .write (seg.vaddr + BitVec.ofNat 64 k) TRAP_BYTES := by
  rw [segmentImage] at member
  rcases List.mem_append.mp member with isMap | isWrite
  · obtain ⟨page,inPages,rfl⟩ := List.mem_map.mp isMap
    exact .inl ⟨page,inPages,rfl⟩
  · split at isWrite
    · rcases List.mem_cons.mp isWrite with rfl | isPatch
      · exact .inr (.inl rfl)
      · obtain ⟨k,isSite,rfl⟩ := List.mem_map.mp isPatch
        exact .inr (.inr ⟨k,(mem_sites_iff _ k).mp isSite,rfl⟩)
    · cases isWrite

/-- A map sets no byte to a value. -/
theorem map_sets_none (page a : Word) (value : Byte) : (MemOp.map page).effect a ≠ .set value := by
  intro sets
  rw [MemOp.effect] at sets
  split at sets
  · cases sets
  · cases sets

/-- With all patches in their pages, a segment sets no byte outside the pages of its file data. -/
theorem touches_of_sets {data : List Byte} {seg : Segment} (length : (fileBytes data seg).length = seg.filesz.toNat)
    (inPage : ∀ j, SyscallAt (fileBytes data seg) j → InPage (seg.vaddr + BitVec.ofNat 64 j)) {op : MemOp}
    (member : op ∈ segmentImage data seg) {a : Word} {value : Byte} (sets : op.effect a = .set value) :
    Touches seg.vaddr seg.filesz.toNat (pageVaddr a) := by
  have bound := seg.filesz.isLt
  rcases segmentImage_cases member with ⟨page,_,rfl⟩ | rfl | ⟨k,site,rfl⟩
  · exact absurd sets (map_sets_none page a value)
  · have near := near_of_sets (by omega) sets
    rw [length] at near
    exact ⟨_,near,congrArg pageVaddr (start_add_distance seg.vaddr a)⟩
  · have near : (a - (seg.vaddr + BitVec.ofNat 64 k)).toNat < 4 := near_of_sets (by decide) sets
    have within : pageOffset (seg.vaddr + BitVec.ofNat 64 k) + 4 ≤ PAGE_SIZE := inPage k site
    have samePage := within_page (seg.vaddr + BitVec.ofNat 64 k)
      (show (a - (seg.vaddr + BitVec.ofNat 64 k)).toNat < PAGE_SIZE - pageOffset (seg.vaddr + BitVec.ofNat 64 k) by omega)
    rw [start_add_distance] at samePage
    have inside := (List.getElem?_eq_some_iff.mp site.1).1
    exact ⟨k,by omega,samePage.symm⟩

/-- Byte `m` from an address on, seen from byte `k`. -/
theorem toNat_between (vaddr : Word) {m k : Nat} (small : m < 2 ^ 64) (small' : k < 2 ^ 64) :
    (vaddr + BitVec.ofNat 64 m - (vaddr + BitVec.ofNat 64 k)).toNat = (2 ^ 64 - k + m) % 2 ^ 64 := by
  rw [← BitVec.sub_sub,BitVec.add_comm,BitVec.add_sub_cancel,BitVec.toNat_sub,BitVec.toNat_ofNat,BitVec.toNat_ofNat,
    Nat.mod_eq_of_lt small,Nat.mod_eq_of_lt small']

theorem patch_sets (vaddr : Word) {j i : Nat} (short : j < 2 ^ 63) {value : Byte} (isValue : TRAP_BYTES[i]? = some value) :
    (MemOp.write (vaddr + BitVec.ofNat 64 j) TRAP_BYTES).effect (vaddr + BitVec.ofNat 64 (j + i)) = .set value := by
  have small : i < 4 := (List.getElem?_eq_some_iff.mp isValue).1
  have spec : WriteSpec (vaddr + BitVec.ofNat 64 j) TRAP_BYTES (vaddr + BitVec.ofNat 64 (j + i))
      ((MemOp.write (vaddr + BitVec.ofNat 64 j) TRAP_BYTES).effect (vaddr + BitVec.ofNat 64 (j + i))) :=
    writeEffect_spec _ _ (by decide)
  refine spec.inside value ?_
  rw [toNat_between vaddr (by omega) (by omega),show (2 ^ 64 - j + (j + i)) % 2 ^ 64 = i by omega]
  exact isValue

/-- A patch sets nothing before its site. -/
theorem patch_spares (vaddr : Word) {m k : Nat} (short : k < 2 ^ 63) (before : m < k) (value : Byte) :
    (MemOp.write (vaddr + BitVec.ofNat 64 k) TRAP_BYTES).effect (vaddr + BitVec.ofNat 64 m) ≠ .set value := by
  intro sets
  have near : _ < 4 := near_of_sets (by decide) sets
  rw [toNat_between vaddr (by omega) (by omega)] at near
  omega

theorem image_split (data : List Byte) (before after : List ElfSegment) {seg : ElfSegment} (some' : 0 < seg.filesz)
    {earlier later : List Nat} {j : Nat} (isSites : sites (fileBytes data seg.toSegment) = earlier ++ j :: later) :
    ∃ ops, (before ++ seg :: after).flatMap (fun seg => segmentImage data seg.toSegment) =
      ops ++ .write (seg.vaddr + BitVec.ofNat 64 j) TRAP_BYTES ::
        ((later.map fun k => .write (seg.vaddr + BitVec.ofNat 64 k) TRAP_BYTES) ++
          after.flatMap fun seg => segmentImage data seg.toSegment) := by
  refine ⟨before.flatMap (fun seg => segmentImage data seg.toSegment) ++
    ((pageRange (pageVaddr seg.vaddr) (pageVaddr (seg.vaddr + seg.memsz + BitVec.ofNat 64 (PAGE_SIZE - 1)))).map MemOp.map ++
      .write seg.vaddr (fileBytes data seg.toSegment) ::
        earlier.map fun k => .write (seg.vaddr + BitVec.ofNat 64 k) TRAP_BYTES),?_⟩
  rw [List.flatMap_append,List.flatMap_cons,segmentImage,if_pos some',imageWrites,isSites]
  simp

section
variable {data : List Byte} {segments : List ElfSegment} (sized : data.length < 2 ^ 63)
variable (lengths : ∀ seg ∈ segments, (fileBytes data seg.toSegment).length = seg.filesz.toNat)
variable (inPage : ∀ seg ∈ segments, ∀ j, SyscallAt (fileBytes data seg.toSegment) j →
  InPage (seg.vaddr + BitVec.ofNat 64 j))
variable (apart : segments.Pairwise PagesApart)
include sized lengths inPage apart

/-- Byte `i` of a patch stays unless a later site begins in it or before it. -/
theorem site_byte {seg : ElfSegment} (member : seg ∈ segments) {j i : Nat} (site : SyscallAt (fileBytes data seg.toSegment) j)
    (small : i < 4) (alone : ∀ k, j < k → k ≤ j + i → ¬ SyscallAt (fileBytes data seg.toSegment) k) :
    byteOf (runOps mem (segments.flatMap fun seg => segmentImage data seg.toSegment))
      (seg.vaddr + BitVec.ofNat 64 j + BitVec.ofNat 64 i) = TRAP_BYTES[i]? := by
  obtain ⟨value,isValue⟩ : ∃ value, TRAP_BYTES[i]? = some value := ⟨_,List.getElem?_eq_getElem (show i < 4 from small)⟩
  obtain ⟨before,after,isSegments⟩ := List.append_of_mem member
  obtain ⟨earlier,later,isSites⟩ := List.append_of_mem ((mem_sites_iff _ j).mpr site)
  have inside := (List.getElem?_eq_some_iff.mp site.1).1
  have some' : 0 < seg.filesz := BitVec.lt_def.mpr (by rw [← lengths seg member]; exact Nat.zero_lt_of_lt inside)
  have short (k : Nat) (there : SyscallAt (fileBytes data seg.toSegment) k) : k < 2 ^ 63 := by
    have inside := (List.getElem?_eq_some_iff.mp there.1).1
    rw [fileBytes,List.length_drop,List.length_take] at inside
    omega
  obtain ⟨ops,image⟩ := image_split data before after some' isSites
  rw [← isSegments] at image
  have ordered : (sites (fileBytes data seg.toSegment)).Pairwise (· < ·) := List.pairwise_lt_range.filter _
  rw [isSites,List.pairwise_append] at ordered
  have above := (List.pairwise_cons.mp ordered.2.1).1
  have spared : ∀ other ∈ (later.map fun k => MemOp.write (seg.vaddr + BitVec.ofNat 64 k) TRAP_BYTES) ++
      after.flatMap (fun seg => segmentImage data seg.toSegment),
      ∀ v, other.effect (seg.vaddr + BitVec.ofNat 64 (j + i)) ≠ .set v := by
    intro other inRest v
    rcases List.mem_append.mp inRest with isPatch | isOther
    · obtain ⟨k,inLater,rfl⟩ := List.mem_map.mp isPatch
      have there : SyscallAt (fileBytes data seg.toSegment) k := by
        rw [← mem_sites_iff,isSites]
        exact List.mem_append_right earlier (List.mem_cons_of_mem j inLater)
      have far : j + i < k := Nat.lt_of_not_le fun close => alone k (above k inLater) close there
      exact patch_spares seg.vaddr (short k there) far v
    · -- The byte is in a page of its own segment, and the later ones set bytes of other pages.
      intro sets
      obtain ⟨other',isAfter,inImage⟩ := List.mem_flatMap.mp isOther
      have inSegments : other' ∈ segments := by
        rw [isSegments]
        exact List.mem_append_right before (List.mem_cons_of_mem seg isAfter)
      have touched := touches_of_sets (lengths other' inSegments) (inPage other' inSegments) inImage sets
      have own : pageOffset (seg.vaddr + BitVec.ofNat 64 j) + 4 ≤ PAGE_SIZE := inPage seg member j site
      have samePage := within_page (seg.vaddr + BitVec.ofNat 64 j) (show i < PAGE_SIZE - _ by omega)
      rw [BitVec.add_assoc,← BitVec.ofNat_add] at samePage
      have ownBytes := lengths seg member
      rw [isSegments,List.pairwise_append] at apart
      exact (List.pairwise_cons.mp apart.2.1).1 other' isAfter _ ⟨⟨j,by omega,samePage.symm⟩,touched⟩
  rw [byteOf_runOps,image,BitVec.add_assoc,← BitVec.ofNat_add]
  rw [effectOf_last (patch_sets seg.vaddr (short j site) isValue) spared,isValue]
  rfl

end

/-- For every file that `load_elf` accepts, with no page that has bytes of two segments (and no longer than a slice can
    be): the recogniser sees a trap at every syscall instruction exactly when no patch goes over the end of its page
    and no syscall instruction begins two or three bytes behind another. -/
theorem sites_trap_iff {task task' : Sel4Task} {data : List Byte} {entry : Word} {elf : LoadedElf}
    (sized : data.length < 2 ^ 63) (accepted : loadElf release task data = .ok (some entry,task'))
    (parsed : parseElf release data = .ok (some elf)) (apart : elf.segments.Pairwise PagesApart) :
    (∀ seg ∈ elf.segments, ∀ j, SyscallAt (fileBytes data seg.toSegment) j →
        task'.mem.readBytesU32 (seg.vaddr + BitVec.ofNat 64 j) = some TRAP_INST) ↔
      ∀ seg ∈ elf.segments, ∀ j, SyscallAt (fileBytes data seg.toSegment) j → InPage (seg.vaddr + BitVec.ofNat 64 j) ∧
        ¬ SyscallAt (fileBytes data seg.toSegment) (j + 2) ∧ ¬ SyscallAt (fileBytes data seg.toSegment) (j + 3) := by
  obtain ⟨elf',parsed',image,lengths⟩ := parsed_of_loaded sized accepted
  obtain rfl : elf = elf' := Option.some.inj (Except.ok.inj (parsed.symm.trans parsed'))
  rw [image]
  constructor
  · intro trapped
    have inPage : ∀ seg ∈ elf.segments, ∀ j, SyscallAt (fileBytes data seg.toSegment) j →
        InPage (seg.vaddr + BitVec.ofNat 64 j) := fun seg member j site => ((traps_iff _).mp (trapped seg member j site)).1
    intro seg member j site
    have bytes := ((traps_iff _).mp (trapped seg member j site)).2
    -- A site inside the patch has its own first byte there.
    have covered (m : Nat) (small : m < 4) (later : SyscallAt (fileBytes data seg.toSegment) (j + m)) :
        TRAP_BYTES[m]? = some 0xEF := by
      have first : byteOf (runOps task.mem _) _ = _ := site_byte sized lengths inPage apart member later (show 0 < 4 by decide)
        fun k above below => by omega
      rw [← bytes m small,BitVec.add_assoc,← BitVec.ofNat_add]
      rw [BitVec.add_assoc,← BitVec.ofNat_add,Nat.add_zero] at first
      exact first
    refine ⟨inPage seg member j site,fun second => ?_,fun third => ?_⟩
    · have wrong := covered 2 (by decide) second
      cases wrong
    · have wrong := covered 3 (by decide) third
      cases wrong
  · intro kept seg member j site
    have inPage : ∀ seg ∈ elf.segments, ∀ j, SyscallAt (fileBytes data seg.toSegment) j →
        InPage (seg.vaddr + BitVec.ofNat 64 j) := fun seg member j site => (kept seg member j site).1
    obtain ⟨within,second,third⟩ := kept seg member j site
    refine (traps_iff _).mpr ⟨within,fun i small => ?_⟩
    refine site_byte sized lengths inPage apart member site small fun k above below next => ?_
    have near : k = j + 1 ∨ k = j + 2 ∨ k = j + 3 := by omega
    rcases near with rfl | rfl | rfl
    · have byte := next.1
      rw [site.2] at byte
      cases byte
    · exact second next
    · exact third next

/-! A program with one segment of some bytes at 0x400000. -/

def oneSegment (code : List Byte) : List Byte :=
  [0x7F,0x45,0x4C,0x46,2,1,1,0] ++ List.replicate 16 0 ++ leBytes 0x400000 ++ leBytes 64 ++ List.replicate 14 0 ++
    [56,0,1,0] ++ List.replicate 6 0 ++ [1,0,0,0,5,0,0,0] ++ leBytes 120 ++ leBytes 0x400000 ++ leBytes 0x400000 ++
    leBytes (BitVec.ofNat 64 code.length) ++ leBytes 0x1000 ++ leBytes 0x1000 ++ code

/-- The segment of such a program. -/
def codeSegment (code : List Byte) : ElfSegment :=
  { fileOffset := 120, vaddr := 0x400000, filesz := BitVec.ofNat 64 code.length, memsz := 0x1000, flags := 5 }

/-- One syscall instruction and two bytes after it. -/
theorem sites_trap_iff_one : ∃ task', (oneSegment [0x0F,0x05,0x90,0x90]).length < 2 ^ 63 ∧
    loadElf release (Sel4Task.new 1 1) (oneSegment [0x0F,0x05,0x90,0x90]) = .ok (some 0x400000,task') ∧
    parseElf release (oneSegment [0x0F,0x05,0x90,0x90]) = .ok (some ⟨0x400000,[codeSegment [0x0F,0x05,0x90,0x90]]⟩) ∧
    task'.mem.readBytesU32 0x400000 = some TRAP_INST := by
  obtain ⟨task',accepted⟩ := exists_loaded (Sel4Task.new 1 1) (oneSegment [0x0F,0x05,0x90,0x90]) 0x400000 (by decide +kernel)
  have parsed : parseElf release (oneSegment [0x0F,0x05,0x90,0x90]) =
      .ok (some ⟨0x400000,[codeSegment [0x0F,0x05,0x90,0x90]]⟩) := by decide +kernel
  have bytes : fileBytes (oneSegment [0x0F,0x05,0x90,0x90]) (codeSegment [0x0F,0x05,0x90,0x90]).toSegment =
      [0x0F,0x05,0x90,0x90] := by decide +kernel
  have exact' := sites_trap_iff (by decide +kernel) accepted parsed (List.pairwise_singleton _ _)
  refine ⟨task',by decide +kernel,accepted,parsed,exact'.mpr ?_ _ List.mem_cons_self 0 (by rw [bytes]; decide)⟩
  intro seg member j site
  obtain rfl := List.mem_singleton.mp member
  rw [bytes] at site ⊢
  have only : j = 0 := by
    have inside := (List.getElem?_eq_some_iff.mp site.1).1
    change j < 4 at inside
    revert site
    interval_cases j <;> decide
  rw [only]
  exact ⟨by rw [InPage]; decide,by decide,by decide⟩

/-- Two syscall instructions in a row: the second patch overwrites half of the first. -/
theorem adjacent_sites : ¬ ∀ (task task' : Sel4Task) (data : List Byte) (entry : Word) (elf : LoadedElf),
    data.length < 2 ^ 63 → loadElf release task data = .ok (some entry,task') → parseElf release data = .ok (some elf) →
      elf.segments.Pairwise PagesApart → ∀ seg ∈ elf.segments, ∀ j, SyscallAt (fileBytes data seg.toSegment) j →
        task'.mem.readBytesU32 (seg.vaddr + BitVec.ofNat 64 j) = some TRAP_INST := by
  intro all
  obtain ⟨task',accepted⟩ := exists_loaded (Sel4Task.new 1 1) (oneSegment [0x0F,0x05,0x0F,0x05]) 0x400000 (by decide +kernel)
  have parsed : parseElf release (oneSegment [0x0F,0x05,0x0F,0x05]) =
      .ok (some ⟨0x400000,[codeSegment [0x0F,0x05,0x0F,0x05]]⟩) := by decide +kernel
  have first := all _ _ _ _ _ (by decide +kernel) accepted parsed (List.pairwise_singleton _ _) _ List.mem_cons_self 0
    (by decide +kernel)
  have read : (loadElf release (Sel4Task.new 1 1) (oneSegment [0x0F,0x05,0x0F,0x05])).toOption.map
      (fun r => r.2.mem.readBytesU32 0x400000) = some (some 0xBEEFBEEF) := by decide +kernel
  rw [accepted] at read
  have other : task'.mem.readBytesU32 0x400000 = some 0xBEEFBEEF := Option.some.inj read
  rw [show (codeSegment [0x0F,0x05,0x0F,0x05]).vaddr + BitVec.ofNat 64 0 = 0x400000 from rfl,other] at first
  cases first

end Sel4Linux.SyscallSites
