import Sel4Linux.Overlay
import Sel4Linux.TaskMem
import Mathlib.Data.List.Induction

/-!
What page maps and writes do to the readable memory of a task, byte by byte. A
sequence of them either leaves a byte alone, adds its page with a zero where
there is none, or sets it (`Effect`); which of these depends on the sequence
only. Two memories become equal under a sequence exactly when they agree on what
it leaves (`run_same_iff`).
-/
namespace Sel4Linux.MemImage
open Sel4Linux.Bytes Sel4Linux.TaskMem
open Sel4Linux.Overlay (toNat_advance_of_lt toNat_sub_advance start_add_distance toNat_sub_start)
set_option linter.unusedSimpArgs false

/-- Two memories read the same everywhere. -/
def SameReads (m n : TaskMemInfo) : Prop := ∀ addr buf, m.readBytes addr buf = n.readBytes addr buf

/-! ## Effects -/

inductive Effect where
  | keep
  | blank
  | set (value : Byte)
  deriving DecidableEq

def Effect.apply : Effect → Option Byte → Option Byte
  | .keep, old => old
  | .blank, old => some (old.getD 0)
  | .set value, _ => some value

/-- One effect after another. -/
def Effect.followedBy : Effect → Effect → Effect
  | first, .keep => first
  | .set value, .blank => .set value
  | _, .blank => .blank
  | _, .set value => .set value

@[simp] theorem apply_followedBy (first second : Effect) (old : Option Byte) :
    (first.followedBy second).apply old = second.apply (first.apply old) := by
  cases first with
  | keep => cases second <;> rfl
  | blank => cases second <;> rfl
  | set value => cases second <;> rfl

/-- Two old bytes agree on what an effect leaves of them. -/
def Effect.Agree : Effect → Option Byte → Option Byte → Prop
  | .keep, old, other => old = other
  | .blank, old, other => old.getD 0 = other.getD 0
  | .set _, _, _ => True

theorem apply_eq_iff (effect : Effect) (old other : Option Byte) :
    effect.apply old = effect.apply other ↔ effect.Agree old other := by
  cases effect with
  | keep => exact Iff.rfl
  | blank => exact Option.some_inj
  | set value => exact iff_of_true rfl trivial

/-- What an old byte has to be for an effect to leave a zero. -/
def Effect.Zeroed : Effect → Option Byte → Prop
  | .keep, old => old = some 0
  | .blank, old => old.getD 0 = 0
  | .set value, _ => value = 0

theorem apply_eq_zero_iff (effect : Effect) (old : Option Byte) : effect.apply old = some 0 ↔ effect.Zeroed old := by
  cases effect with
  | keep => exact Iff.rfl
  | blank => exact Option.some_inj
  | set value => exact Option.some_inj

/-! ## Maps and writes -/

/-- An operation of a loader on the memory of a task. -/
inductive MemOp where
  | map (vaddr : Word)
  | write (addr : Word) (data : List Byte)
  deriving DecidableEq

def MemOp.run (mem : TaskMemInfo) : MemOp → TaskMemInfo
  | .map vaddr => mem.mapBlankPageSimple vaddr
  | .write addr data => (mem.writeBytes addr data).2

/-- What one page of a write does to the byte at `a`. -/
def pageEffect (vaddr : Word) (offset : Nat) (data : List Byte) (a : Word) : Effect :=
  if pageVaddr a = vaddr then
    if offset ≤ pageOffset a then
      match data[pageOffset a - offset]? with
      | some value => .set value
      | none => .blank
    else .blank
  else .keep

def writeEffect (addr : Word) (data : List Byte) (a : Word) : Effect :=
  if data.isEmpty then .keep
  else
    let len := min data.length (PAGE_SIZE - pageOffset addr)
    (pageEffect (pageVaddr addr) (pageOffset addr) (data.take len) a).followedBy
      (writeEffect (addr + BitVec.ofNat 64 len) (data.drop len) a)
termination_by data.length
decreasing_by
  have inside := pageOffset_lt addr
  have nonempty : 0 < data.length := by
    cases data with
    | nil => simp at *
    | cons b rest => simp
  rw [List.length_drop]
  omega

def MemOp.effect (a : Word) : MemOp → Effect
  | .map vaddr => if pageVaddr a = pageVaddr vaddr then .blank else .keep
  | .write addr data => writeEffect addr data a

/-- What a sequence of operations does to the byte at `a`. -/
def effectOf (ops : List MemOp) (a : Word) : Effect :=
  ops.foldl (fun effect op => effect.followedBy (op.effect a)) .keep

def runOps (mem : TaskMemInfo) (ops : List MemOp) : TaskMemInfo := ops.foldl MemOp.run mem

variable {mem : TaskMemInfo} {a : Word}

theorem byteOf_map (vaddr : Word) :
    byteOf (mem.mapBlankPageSimple vaddr) a = (MemOp.effect a (.map vaddr)).apply (byteOf mem a) := by
  unfold byteOf TaskMemInfo.mapBlankPageSimple
  dsimp only [MemOp.effect]
  rw [getElem?_insertIfNew]
  by_cases here : pageVaddr a = pageVaddr vaddr
  · rw [if_pos here,if_pos here]
    cases mem.pageData[pageVaddr a]? with
    | none => rfl
    | some page => rfl
  · rw [if_neg here,if_neg here]
    rfl

private theorem write_apply (page : Page) (offset : Nat) (data : List Byte) (i : Fin PAGE_SIZE) {vaddr : Word}
    (here : pageVaddr a = vaddr) (isOffset : i.val = pageOffset a) :
    some (page.write offset data i) = (pageEffect vaddr offset data a).apply (some (page i)) := by
  unfold pageEffect Page.write
  rw [if_pos here,isOffset]
  split
  · cases data[pageOffset a - offset]? with
    | none => rfl
    | some value => rfl
  · rfl

theorem byteOf_writePage (vaddr : Word) (offset : Nat) (data : List Byte) :
    byteOf (mem.writePage vaddr offset data) a = (pageEffect vaddr offset data a).apply (byteOf mem a) := by
  by_cases here : pageVaddr a = vaddr
  · have absent (i : Fin PAGE_SIZE) (isOffset : i.val = pageOffset a) :
        some (Page.write (fun _ => 0) offset data i) = (pageEffect vaddr offset data a).apply none := by
      rw [write_apply (fun _ => 0) offset data i here isOffset]
      cases isEffect : pageEffect vaddr offset data a with
      | keep =>
        unfold pageEffect at isEffect
        rw [if_pos here] at isEffect
        split at isEffect
        · split at isEffect
          · cases isEffect
          · cases isEffect
        · cases isEffect
      | blank => rfl
      | set value => rfl
    unfold byteOf TaskMemInfo.writePage
    rw [← here] at absent ⊢
    cases there : mem.pageData[pageVaddr a]? with
    | none =>
      dsimp only
      rw [getElem?_insert,if_pos rfl]
      exact absent _ rfl
    | some page =>
      dsimp only
      rw [getElem?_insert,if_pos rfl]
      exact write_apply page offset data _ rfl rfl
  · unfold byteOf TaskMemInfo.writePage pageEffect
    rw [if_neg here]
    split
    · dsimp only
      rw [getElem?_insert,if_neg here]
      rfl
    · dsimp only
      rw [getElem?_insert,if_neg here]
      rfl

theorem byteOf_writeBytes (addr : Word) (data : List Byte) :
    byteOf (mem.writeBytes addr data).2 a = (writeEffect addr data a).apply (byteOf mem a) := by
  induction mem, addr, data using TaskMemInfo.writeBytes.induct with
  | case1 mem addr data empty =>
    rw [TaskMemInfo.writeBytes,writeEffect,if_pos empty,if_pos empty]
    rfl
  | case2 mem addr data more len ih =>
    rw [TaskMemInfo.writeBytes,writeEffect,if_neg more,if_neg more,apply_followedBy]
    rw [← byteOf_writePage]
    exact ih

/-- What a sequence of operations does to a byte. -/
theorem byteOf_runOps (ops : List MemOp) : byteOf (runOps mem ops) a = (effectOf ops a).apply (byteOf mem a) := by
  have step (mem : TaskMemInfo) (op : MemOp) : byteOf (op.run mem) a = (op.effect a).apply (byteOf mem a) := by
    cases op with
    | map vaddr => exact byteOf_map vaddr
    | write addr data => exact byteOf_writeBytes addr data
  have whole (first : Effect) (mem₀ mem : TaskMemInfo) (sofar : byteOf mem a = first.apply (byteOf mem₀ a)) :
      byteOf (ops.foldl MemOp.run mem) a =
        (ops.foldl (fun effect op => effect.followedBy (op.effect a)) first).apply (byteOf mem₀ a) := by
    induction ops generalizing first mem with
    | nil => exact sofar
    | cons op ops ih =>
      refine ih (first.followedBy (op.effect a)) (op.run mem) ?_
      rw [step,sofar,apply_followedBy]
  exact whole .keep mem mem rfl

/-! ## The effect of a whole write -/

/-- Some of the `n` bytes from `addr` on is in the page `vaddr`. -/
def Touches (addr : Word) (n : Nat) (vaddr : Word) : Prop := ∃ i < n, pageVaddr (addr + BitVec.ofNat 64 i) = vaddr

section
variable {addr : Word}

private theorem page_arith (addr : Word) : (pageVaddr addr).toNat = addr.toNat - addr.toNat % 4096 ∧
    pageOffset addr = addr.toNat % 4096 := ⟨toNat_pageVaddr addr,pageOffset_eq addr⟩

theorem same_page_iff : pageVaddr a = pageVaddr addr ↔ a.toNat / PAGE_SIZE = addr.toNat / PAGE_SIZE := by
  have here := (page_arith a).1
  have there := (page_arith addr).1
  have size : PAGE_SIZE = 4096 := rfl
  rw [size]
  constructor
  · intro same
    rw [same] at here
    omega
  · intro same
    apply BitVec.eq_of_toNat_eq
    omega

/-- The distance between two addresses, in numbers. -/
theorem toNat_distance (a addr : Word) : (a - addr).toNat = if addr.toNat ≤ a.toNat then a.toNat - addr.toNat
    else 2 ^ 64 - (addr.toNat - a.toNat) := by
  have bound := a.isLt
  have bound' := addr.isLt
  rw [BitVec.toNat_sub]
  split
  · omega
  · omega

theorem toNat_advance {i : Nat} (small : i < 2 ^ 64) : (addr + BitVec.ofNat 64 i).toNat = (addr.toNat + i) % 2 ^ 64 := by
  rw [BitVec.toNat_add,BitVec.toNat_ofNat,Nat.mod_eq_of_lt small]

theorem within_page (addr : Word) {i : Nat} (inside : i < PAGE_SIZE - pageOffset addr) :
    pageVaddr (addr + BitVec.ofNat 64 i) = pageVaddr addr := by
  have bound := addr.isLt
  rw [(page_arith addr).2] at inside
  change i < 4096 - addr.toNat % 4096 at inside
  rw [same_page_iff,toNat_advance (by omega)]
  change (addr.toNat + i) % 2 ^ 64 / 4096 = addr.toNat / 4096
  omega

theorem byteOf_within {i : Nat} (inside : i < PAGE_SIZE - pageOffset addr) :
    byteOf mem (addr + BitVec.ofNat 64 i) =
      (mem.pageAt (pageVaddr addr)).map fun page => page ⟨pageOffset addr + i,by omega⟩ := by
  have isPage := within_page addr inside
  have split := pageVaddr_add_offset addr
  have split' := pageVaddr_add_offset (addr + BitVec.ofNat 64 i)
  have bound := addr.isLt
  have isOffset : pageOffset (addr + BitVec.ofNat 64 i) = pageOffset addr + i := by
    have size : PAGE_SIZE = 4096 := rfl
    have offset : pageOffset addr = addr.toNat % 4096 := pageOffset_eq addr
    rw [isPage,toNat_advance_of_lt (by omega)] at split'
    omega
  rw [byteOf,isPage]
  simp only [isOffset]
  rfl

/-- The pages of a write are the one where it starts and those of what follows. -/
theorem touches_step (addr vaddr : Word) {n : Nat} (nonempty : 0 < n) :
    Touches addr n vaddr ↔ vaddr = pageVaddr addr ∨
      Touches (addr + BitVec.ofNat 64 (min n (PAGE_SIZE - pageOffset addr))) (n - min n (PAGE_SIZE - pageOffset addr)) vaddr := by
  generalize isLen : min n (PAGE_SIZE - pageOffset addr) = len
  have moved (i : Nat) : addr + BitVec.ofNat 64 len + BitVec.ofNat 64 i = addr + BitVec.ofNat 64 (len + i) := by
    rw [BitVec.add_assoc,← BitVec.ofNat_add]
  constructor
  · rintro ⟨i,inside,here⟩
    rcases Nat.lt_or_ge i len with first | later
    · rw [within_page addr (by omega)] at here
      exact .inl here.symm
    · refine .inr ⟨i - len,by omega,?_⟩
      rw [moved,Nat.add_sub_cancel' later]
      exact here
  · rintro (here | ⟨i,inside,here⟩)
    · exact ⟨0,nonempty,by simp [here]⟩
    · exact ⟨len + i,by omega,(moved i) ▸ here⟩

/-- What a write does to the byte at `a`. -/
structure WriteSpec (addr : Word) (data : List Byte) (a : Word) (effect : Effect) : Prop where
  inside : ∀ value, data[(a - addr).toNat]? = some value → effect = .set value
  beside : data.length ≤ (a - addr).toNat → Touches addr data.length (pageVaddr a) → effect = .blank
  apart : ¬ Touches addr data.length (pageVaddr a) → effect = .keep

theorem WriteSpec.outside {data : List Byte} {effect : Effect} (spec : WriteSpec addr data a effect)
    (past : data.length ≤ (a - addr).toNat) : effect = .blank ∨ effect = .keep := by
  by_cases touched : Touches addr data.length (pageVaddr a)
  · exact .inl (spec.beside past touched)
  · exact .inr (spec.apart touched)

/-- The first page of a write, in the page of the write's start. -/
private theorem firstPage_spec {data : List Byte} {effect : Effect} (nonempty : 0 < data.length)
    (fits : data.length ≤ 2 ^ 64) (here : pageVaddr a = pageVaddr addr)
    (rest : WriteSpec (addr + BitVec.ofNat 64 (min data.length (PAGE_SIZE - pageOffset addr)))
      (data.drop (min data.length (PAGE_SIZE - pageOffset addr))) a effect) :
    WriteSpec addr data a ((pageEffect (pageVaddr addr) (pageOffset addr)
      (data.take (min data.length (PAGE_SIZE - pageOffset addr))) a).followedBy effect) := by
  have inside := pageOffset_lt addr
  have insideA := pageOffset_lt a
  have split := pageVaddr_add_offset addr
  have splitA := pageVaddr_add_offset a
  have size : PAGE_SIZE = 4096 := rfl
  rw [here] at splitA
  generalize isLen : min data.length (PAGE_SIZE - pageOffset addr) = len at rest ⊢
  have after := toNat_sub_advance addr a (show len < 2 ^ 64 by omega)
  have distance := toNat_distance a addr
  have touched : Touches addr data.length (pageVaddr a) := ⟨0,nonempty,by simp [here]⟩
  rw [pageEffect,if_pos here]
  by_cases behind : pageOffset addr ≤ pageOffset a
  · rw [if_pos behind]
    rw [if_pos (by omega)] at distance
    have isIndex : pageOffset a - pageOffset addr = (a - addr).toNat := by omega
    rw [isIndex]
    by_cases early : (a - addr).toNat < len
    · -- The rest of the write is behind this byte, all around the address space.
      obtain ⟨own,value⟩ : ∃ own, data[(a - addr).toNat]? = some own := ⟨_,List.getElem?_eq_getElem (by omega)⟩
      rw [List.getElem?_take_of_lt early,value]
      have past : (data.drop len).length ≤ (a - (addr + BitVec.ofNat 64 len)).toNat := by
        rw [after,if_neg (by omega),List.length_drop]
        omega
      refine ⟨?_,fun far => by omega,fun none => (none touched).elim⟩
      intro v isValue
      rw [value] at isValue
      cases isValue
      rcases rest.outside past with blank | keep
      · rw [blank]
        rfl
      · rw [keep]
        rfl
    · have whole : len = data.length := by omega
      have absent : data[(a - addr).toNat]? = none := List.getElem?_eq_none (by omega)
      have nothing : ¬ Touches (addr + BitVec.ofNat 64 len) (data.drop len).length (pageVaddr a) := by
        rintro ⟨i,inRest,_⟩
        rw [List.length_drop] at inRest
        omega
      rw [List.getElem?_eq_none (by rw [List.length_take]; omega),rest.apart nothing]
      refine ⟨?_,fun _ _ => rfl,fun none => (none touched).elim⟩
      intro v isValue
      rw [absent] at isValue
      cases isValue
  · rw [if_neg behind]
    rw [if_neg (by omega)] at distance
    rw [if_pos (by omega)] at after
    have index : len + ((a - addr).toNat - len) = (a - addr).toNat := by omega
    refine ⟨?_,?_,fun none => (none touched).elim⟩
    · intro v isValue
      rw [rest.inside v (by rw [after,List.getElem?_drop,index]; exact isValue)]
      rfl
    · intro far _
      have past : (data.drop len).length ≤ (a - (addr + BitVec.ofNat 64 len)).toNat := by
        rw [after,List.length_drop]
        omega
      rcases rest.outside past with blank | keep
      · rw [blank]
        rfl
      · rw [keep]
        rfl

private theorem otherPage_spec {data : List Byte} {effect : Effect} (nonempty : 0 < data.length)
    (here : pageVaddr a ≠ pageVaddr addr)
    (rest : WriteSpec (addr + BitVec.ofNat 64 (min data.length (PAGE_SIZE - pageOffset addr)))
      (data.drop (min data.length (PAGE_SIZE - pageOffset addr))) a effect) : WriteSpec addr data a effect := by
  have inside := pageOffset_lt addr
  have size : PAGE_SIZE = 4096 := rfl
  have far : PAGE_SIZE - pageOffset addr ≤ (a - addr).toNat := by
    by_contra near
    have same := within_page addr (Nat.lt_of_not_le near)
    rw [start_add_distance] at same
    exact here same
  have touches := touches_step addr (pageVaddr a) nonempty
  rw [or_iff_right here,← List.length_drop] at touches
  generalize isLen : min data.length (PAGE_SIZE - pageOffset addr) = len at rest touches
  have after := toNat_sub_advance addr a (show len < 2 ^ 64 by omega)
  rw [if_pos (by omega)] at after
  have index : len + ((a - addr).toNat - len) = (a - addr).toNat := by omega
  refine ⟨?_,?_,?_⟩
  · intro v isValue
    exact rest.inside v (by rw [after,List.getElem?_drop,index]; exact isValue)
  · intro past touched
    exact rest.beside (by rw [after,List.length_drop]; omega) (touches.mp touched)
  · intro none
    exact rest.apart fun touched => none (touches.mpr touched)

end

/-- A write sets the bytes of its data, and adds the pages that they are in; also where the addresses wrap around. -/
theorem writeEffect_spec (addr : Word) (data : List Byte) (fits : data.length ≤ 2 ^ 64) :
    WriteSpec addr data a (writeEffect addr data a) := by
  induction addr, data using writeEffect.induct with
  | case1 addr data empty =>
    rw [writeEffect,if_pos empty,List.isEmpty_iff.mp empty]
    refine ⟨?_,?_,fun _ => rfl⟩
    · intro v isValue
      cases isValue
    · rintro _ ⟨i,inside,_⟩
      cases inside
  | case2 addr data more len ih =>
    have nonempty : 0 < data.length := by
      rw [List.length_pos_iff]
      intro empty
      exact more (List.isEmpty_iff.mpr empty)
    have rest := ih (by rw [List.length_drop]; omega)
    rw [writeEffect,if_neg more]
    by_cases here : pageVaddr a = pageVaddr addr
    · exact firstPage_spec nonempty fits here rest
    · have untouched : pageEffect (pageVaddr addr) (pageOffset addr) (data.take len) a = .keep := by
        rw [pageEffect,if_neg here]
      have alone (effect : Effect) : Effect.followedBy .keep effect = effect := by
        cases effect with
        | keep => rfl
        | blank => rfl
        | set value => rfl
      dsimp only
      rw [untouched,alone]
      exact otherPage_spec nonempty here rest

theorem byteOf_written (addr : Word) {data : List Byte} (fits : data.length ≤ 2 ^ 64) {i : Nat} (inside : i < data.length) :
    byteOf (mem.writeBytes addr data).2 (addr + BitVec.ofNat 64 i) = data[i]? := by
  have value : data[i]? = some data[i] := List.getElem?_eq_getElem inside
  rw [byteOf_writeBytes,(writeEffect_spec addr data fits).inside data[i] (by rw [toNat_sub_start (by omega)]; exact value),value]
  rfl

/-- Bytes that are there and that a write does not reach stay. -/
theorem byteOf_kept (addr : Word) {data : List Byte} (fits : data.length ≤ 2 ^ 64) {b : Byte} (there : byteOf mem a = some b)
    (outside : data.length ≤ (a - addr).toNat) : byteOf (mem.writeBytes addr data).2 a = some b := by
  rw [byteOf_writeBytes,there]
  rcases (writeEffect_spec addr data fits).outside outside with blank | keep
  · rw [blank]
    rfl
  · rw [keep]
    rfl

/-- The bytes of a read into a buffer of zeros: those of the page where it starts, and zeros behind it. -/
theorem read_zeros (addr : Word) {n j : Nat} (there : (byteOf mem addr).isSome = true) (low : j < n) :
    ((mem.readBytes addr (List.replicate n 0)).getD (List.replicate n 0)).getD j 0 =
      if j < PAGE_SIZE - pageOffset addr then (byteOf mem (addr + BitVec.ofNat 64 j)).getD 0 else 0 := by
  obtain ⟨b,isByte⟩ := Option.isSome_iff_exists.mp there
  obtain ⟨page,isPage,_⟩ := Option.map_eq_some_iff.mp isByte
  change mem.pageAt (pageVaddr addr) = some page at isPage
  have length : (List.replicate n (0 : Byte)).length = n := List.length_replicate
  rw [readBytes_page,isPage,List.getD_eq_getElem?_getD,Option.map_some,Option.getD_some]
  by_cases inside : j < PAGE_SIZE - pageOffset addr
  · rw [if_pos inside,byteOf_within inside,isPage,List.getElem?_append_left (by rw [List.length_ofFn,length]; omega),
      List.getElem?_ofFn,dif_pos (by rw [length]; omega)]
    rfl
  · have behind : min (List.replicate n (0 : Byte)).length (PAGE_SIZE - pageOffset addr) ≤ j := by
      rw [length]
      omega
    rw [if_neg inside,List.getElem?_append_right (by rw [List.length_ofFn]; exact behind),List.getElem?_drop,List.length_ofFn,
      Nat.add_sub_cancel' behind,List.getElem?_replicate,if_pos low]
    rfl

/-! ## The operations that decide -/

theorem followedBy_set (effect : Effect) (value : Byte) : effect.followedBy (.set value) = .set value := by
  cases effect with
  | keep => rfl
  | blank => rfl
  | set v => rfl

theorem set_followedBy {effect : Effect} (value : Byte) (spares : ∀ v, effect ≠ .set v) :
    (Effect.set value).followedBy effect = .set value := by
  cases effect with
  | keep => rfl
  | blank => rfl
  | set v => exact absurd rfl (spares v)

theorem effectOf_concat (ops : List MemOp) (op : MemOp) : effectOf (ops ++ [op]) a = (effectOf ops a).followedBy (op.effect a) := by
  rw [effectOf,List.foldl_append]
  rfl

/-- Of the operations that set a byte, the last one decides. -/
theorem effectOf_sets (earlier : List MemOp) {later : List MemOp} (some' : ∃ op ∈ later, ∃ v, op.effect a = .set v) :
    ∃ op ∈ later, ∃ v, op.effect a = .set v ∧ effectOf (earlier ++ later) a = .set v := by
  induction later using List.reverseRecOn with
  | nil =>
    obtain ⟨op,member,_⟩ := some'
    cases member
  | append_singleton rest last ih =>
    rw [← List.append_assoc,effectOf_concat]
    by_cases own : ∃ v, last.effect a = .set v
    · obtain ⟨v,sets⟩ := own
      exact ⟨last,List.mem_append_right rest List.mem_cons_self,v,sets,by rw [sets,followedBy_set]⟩
    · obtain ⟨op,member,v,sets⟩ := some'
      rcases List.mem_append.mp member with inRest | isLast
      · obtain ⟨op',member',v',sets',decides⟩ := ih ⟨op,inRest,v,sets⟩
        refine ⟨op',List.mem_append_left _ member',v',sets',?_⟩
        rw [decides,set_followedBy v' fun other isSet => own ⟨other,isSet⟩]
      · rw [List.mem_singleton.mp isLast] at sets
        exact absurd ⟨v,sets⟩ own

/-- Operations of which one sets a byte, and no later one to something else. -/
theorem effectOf_settled (earlier : List MemOp) {later : List MemOp} {op : MemOp} {value : Byte} (member : op ∈ later)
    (sets : op.effect a = .set value) (agree : ∀ other ∈ later, ∀ v, other.effect a = .set v → v = value) :
    effectOf (earlier ++ later) a = .set value := by
  obtain ⟨other,member',v,sets',decides⟩ := effectOf_sets earlier ⟨op,member,value,sets⟩
  rw [decides,agree other member' v sets']

theorem effectOf_last {earlier later : List MemOp} {op : MemOp} {value : Byte} (sets : op.effect a = .set value)
    (spared : ∀ other ∈ later, ∀ v, other.effect a ≠ .set v) : effectOf (earlier ++ op :: later) a = .set value := by
  refine effectOf_settled earlier List.mem_cons_self sets fun other member v sets' => ?_
  rcases List.mem_cons.mp member with rfl | inLater
  · rw [sets] at sets'
    cases sets'
    rfl
  · exact absurd sets' (spared other inLater v)

theorem effectOf_keep_iff (ops : List MemOp) : effectOf ops a = .keep ↔ ∀ op ∈ ops, op.effect a = .keep := by
  induction ops using List.reverseRecOn with
  | nil => exact iff_of_true rfl fun op member => by cases member
  | append_singleton rest last ih =>
    have both (first second : Effect) : first.followedBy second = .keep ↔ first = .keep ∧ second = .keep := by
      cases first <;> cases second <;> simp [Effect.followedBy]
    rw [effectOf_concat,both,ih,List.forall_mem_append,List.forall_mem_singleton]

theorem set_of_effectOf {ops : List MemOp} {value : Byte} (sets : effectOf ops a = .set value) :
    ∃ op ∈ ops, op.effect a = .set value := by
  induction ops using List.reverseRecOn with
  | nil => cases sets
  | append_singleton rest last ih =>
    rw [effectOf_concat] at sets
    cases isEffect : last.effect a with
    | set v =>
      rw [isEffect,followedBy_set] at sets
      cases sets
      exact ⟨last,List.mem_append_right rest List.mem_cons_self,isEffect⟩
    | keep =>
      rw [isEffect] at sets
      obtain ⟨op,member,own⟩ := ih sets
      exact ⟨op,List.mem_append_left _ member,own⟩
    | blank =>
      rw [isEffect] at sets
      have before : effectOf rest a = .set value := by
        cases isFirst : effectOf rest a with
        | keep =>
          rw [isFirst] at sets
          cases sets
        | blank =>
          rw [isFirst] at sets
          cases sets
        | set v =>
          rw [isFirst] at sets
          exact sets
      obtain ⟨op,member,own⟩ := ih before
      exact ⟨op,List.mem_append_left _ member,own⟩

/-- A write sets only bytes in its range. -/
theorem near_of_sets {addr : Word} {data : List Byte} {value : Byte} (fits : data.length ≤ 2 ^ 64)
    (sets : (MemOp.write addr data).effect a = .set value) : (a - addr).toNat < data.length := by
  by_contra far
  have spec : WriteSpec addr data a ((MemOp.write addr data).effect a) := writeEffect_spec addr data fits
  by_cases touched : Touches addr data.length (pageVaddr a)
  · rw [spec.beside (Nat.le_of_not_lt far) touched] at sets
    cases sets
  · rw [spec.apart touched] at sets
    cases sets

/-! ## Reading -/

theorem readBytes_one (mem : TaskMemInfo) (addr : Word) : mem.readBytes addr [0] = (byteOf mem addr).map fun b => [b] := by
  have inside := pageOffset_lt addr
  unfold TaskMemInfo.readBytes byteOf
  cases mem.pageData[pageVaddr addr]? with
  | none => rfl
  | some page =>
    have one : min 1 (PAGE_SIZE - pageOffset addr) = 1 := by omega
    refine congrArg some (List.ext_getElem ?_ ?_)
    · simp [one]
    · intro i inRead inByte
      obtain rfl : i = 0 := by simpa using inByte
      simp [List.getElem_append,one]

private theorem pageVaddr_offset (addr : Word) (i : Fin PAGE_SIZE) :
    pageVaddr (pageVaddr addr + BitVec.ofNat 64 i.val) = pageVaddr addr ∧
      pageOffset (pageVaddr addr + BitVec.ofNat 64 i.val) = i.val := by
  have inside := i.isLt
  have bound := addr.isLt
  have split := pageVaddr_add_offset addr
  have offset : pageOffset addr = addr.toNat % 4096 := pageOffset_eq addr
  have small : i.val < 4096 := inside
  have whole : (pageVaddr addr + BitVec.ofNat 64 i.val).toNat = (pageVaddr addr).toNat + i.val :=
    toNat_advance_of_lt (by omega)
  have isOffset : pageOffset (pageVaddr addr + BitVec.ofNat 64 i.val) = i.val := by
    rw [pageOffset_eq,whole]
    change ((pageVaddr addr).toNat + i.val) % 4096 = i.val
    omega
  refine ⟨?_,isOffset⟩
  apply BitVec.eq_of_toNat_eq
  have split' := pageVaddr_add_offset (pageVaddr addr + BitVec.ofNat 64 i.val)
  rw [isOffset,whole] at split'
  omega

private theorem page_eq {m n : TaskMemInfo} (same : ∀ a, byteOf m a = byteOf n a) (addr : Word) :
    m.pageData[pageVaddr addr]? = n.pageData[pageVaddr addr]? := by
  have byte (i : Fin PAGE_SIZE) : m.pageData[pageVaddr addr]?.map (fun page => page i) =
      n.pageData[pageVaddr addr]?.map (fun page => page i) := by
    have here := same (pageVaddr addr + BitVec.ofNat 64 i.val)
    obtain ⟨isPage,isOffset⟩ := pageVaddr_offset addr i
    unfold byteOf at here
    simp only [isPage,isOffset] at here
    exact here
  cases there : m.pageData[pageVaddr addr]? with
  | none =>
    have first := byte ⟨0,by decide⟩
    rw [there] at first
    exact (Option.map_eq_none_iff.mp first.symm).symm
  | some page =>
    obtain ⟨other,isOther,_⟩ := Option.map_eq_some_iff.mp ((byte ⟨0,by decide⟩).symm.trans (by rw [there]; rfl))
    rw [isOther]
    refine congrArg some (funext fun i => ?_)
    have here := byte i
    rw [there,isOther] at here
    exact Option.some.inj here

theorem sameReads_iff (m n : TaskMemInfo) : SameReads m n ↔ ∀ a, byteOf m a = byteOf n a := by
  constructor
  · intro same a
    have one := same a [0]
    rw [readBytes_one,readBytes_one] at one
    exact Option.map_injective (fun b c alike => List.singleton_inj.mp alike) one
  · intro same addr buf
    unfold TaskMemInfo.readBytes
    rw [page_eq same addr]

/-- Two memories read the same after a sequence of operations exactly when they agree on what it leaves. -/
theorem run_same_iff (ops : List MemOp) (m n : TaskMemInfo) :
    SameReads (runOps m ops) (runOps n ops) ↔ ∀ a, (effectOf ops a).Agree (byteOf m a) (byteOf n a) := by
  rw [sameReads_iff]
  refine forall_congr' fun a => ?_
  rw [byteOf_runOps,byteOf_runOps]
  exact apply_eq_iff (effectOf ops a) (byteOf m a) (byteOf n a)

end Sel4Linux.MemImage
