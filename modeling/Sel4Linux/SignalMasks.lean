import Sel4Linux.Task
import Sel4Linux.MemImage

/-!
`sys_sigprocmask` (`lcl/src/syscall/signal.rs`) against what it is for: to
combine the mask with the word at one address and to store the old mask at
another. The call stores before it reads, a read gives the bytes of one page
only, and nothing is checked first. `sigprocmask_clean_iff` says when this makes
no difference.
-/
namespace Sel4Linux.SignalMasks
open Sel4Linux.Bytes Sel4Linux.TaskMem Sel4Linux.MemImage Sel4Linux.Client Sel4Linux.Task
open Sel4Linux.Overlay (start_add_distance)
set_option linter.unusedSimpArgs false

/-! ## What the call is for -/

/-- `SIG_BLOCK`, `SIG_UNBLOCK` and `SIG_SETMASK`. -/
def combine {w : Nat} (how : BitVec 32) (mask set : BitVec w) : Option (BitVec w) :=
  match how.toNat with
  | 0 => some (mask ||| set)
  | 1 => some (mask &&& ~~~set)
  | 2 => some set
  | _ => none

def Valid (how : BitVec 32) : Prop := how.toNat ≤ 2

/-- The eight bytes from an address on hold a word; the addresses wrap. -/
def Holds (mem : TaskMemInfo) (addr w : Word) : Prop := ∀ j < 8, byteOf mem (addr + BitVec.ofNat 64 j) = some (byteAt w j)

variable (task : Sel4Task) (how : BitVec 32) (setAddr oldAddr : Word)

/-- A success gives the mask combined with the word that was at `setAddr`, and the old mask at `oldAddr`. An unknown `how` and
    an address without all its bytes give an error that changes neither the mask nor the memory. -/
structure Clean (r : SysResult) (task' : Sel4Task) : Prop where
  stored : ∀ v, r = .ok v → oldAddr ≠ 0 → Holds task'.mem oldAddr task.signal.mask
  combined : ∀ v, r = .ok v → if setAddr = 0 then task'.signal.mask = task.signal.mask
    else ∃ set, Holds task.mem setAddr set ∧ combine how task.signal.mask set = some task'.signal.mask
  failed : ¬ Valid how ∨ (setAddr ≠ 0 ∧ ∃ j < 8, byteOf task.mem (setAddr + BitVec.ofNat 64 j) = none) →
    (∃ e, r = .error e) ∧ task'.signal.mask = task.signal.mask ∧ ∀ a, byteOf task'.mem a = byteOf task.mem a

/-- Without an address to read from, `how` is a known one. With one, the bytes there are all present, and those that the call
    reads differently, as 0 behind the end of the page or as the mask that it has just stored, combine to the same.
    With an unknown `how`, the old mask is not asked for or is already there. -/
structure Unharmed : Prop where
  known : setAddr = 0 → Valid how
  read : setAddr ≠ 0 → Valid how → ∀ j < 8, ∃ b, byteOf task.mem (setAddr + BitVec.ofNat 64 j) = some b ∧
    (PAGE_SIZE - pageOffset setAddr ≤ j → combine how (byteAt task.signal.mask j) 0 = combine how (byteAt task.signal.mask j) b) ∧
    (j < PAGE_SIZE - pageOffset setAddr → oldAddr ≠ 0 → ∀ i < 8, setAddr + BitVec.ofNat 64 j = oldAddr + BitVec.ofNat 64 i →
      combine how (byteAt task.signal.mask j) (byteAt task.signal.mask i) = combine how (byteAt task.signal.mask j) b)
  unknown : setAddr ≠ 0 → ¬ Valid how → oldAddr = 0 ∨ Holds task.mem oldAddr task.signal.mask

/-! ## Masks by bytes -/

variable {how}

theorem combine_block {w : Nat} (mask set : BitVec w) (block : how.toNat = 0) : combine how mask set = some (mask ||| set) := by
  simp only [combine,block]

theorem combine_unblock {w : Nat} (mask set : BitVec w) (unblock : how.toNat = 1) :
    combine how mask set = some (mask &&& ~~~set) := by
  simp only [combine,unblock]

theorem combine_setmask {w : Nat} (mask set : BitVec w) (setmask : how.toNat = 2) : combine how mask set = some set := by
  simp only [combine,setmask]

theorem valid_cases (valid : Valid how) : how.toNat = 0 ∨ how.toNat = 1 ∨ how.toNat = 2 := by
  rw [Valid] at valid
  omega

theorem combine_bytes (mask set : Word) (valid : Valid how) : ∃ w, combine how mask set = some w ∧
    ∀ j < 8, combine how (byteAt mask j) (byteAt set j) = some (byteAt w j) := by
  have bit (w : Word) {j k : Nat} (inside : k < 8) := byteAt_getLsbD w j k inside
  rcases valid_cases valid with block | unblock | setmask
  · refine ⟨_,combine_block mask set block,fun j low => ?_⟩
    rw [combine_block _ _ block]
    refine congrArg some (BitVec.eq_of_getLsbD_eq fun k inside => ?_)
    rw [BitVec.getLsbD_or,bit _ inside,bit _ inside,bit _ inside,BitVec.getLsbD_or]
  · refine ⟨_,combine_unblock mask set unblock,fun j low => ?_⟩
    rw [combine_unblock _ _ unblock]
    refine congrArg some (BitVec.eq_of_getLsbD_eq fun k inside => ?_)
    have place : j * 8 + k < 64 := by omega
    rw [BitVec.getLsbD_and,BitVec.getLsbD_not,bit _ inside,bit _ inside,bit _ inside,BitVec.getLsbD_and,BitVec.getLsbD_not]
    simp only [inside,place,decide_true]
  · exact ⟨set,combine_setmask mask set setmask,fun j low => combine_setmask _ _ setmask⟩

/-- Two words combine to the same just when their bytes do. -/
theorem combine_congr (valid : Valid how) (mask a b : Word) : combine how mask a = combine how mask b ↔
    ∀ j < 8, combine how (byteAt mask j) (byteAt a j) = combine how (byteAt mask j) (byteAt b j) := by
  obtain ⟨v,isV,bytesV⟩ := combine_bytes mask a valid
  obtain ⟨w,isW,bytesW⟩ := combine_bytes mask b valid
  rw [isV,isW]
  constructor
  · intro same j low
    rw [bytesV j low,bytesW j low,Option.some.inj same]
  · intro same
    refine congrArg some (word_ext fun j low => ?_)
    have byte := same j low
    rw [bytesV j low,bytesW j low] at byte
    exact Option.some.inj byte

/-! ## What the call reads -/

/-- The memory once the old mask is stored. -/
def withOld : TaskMemInfo := if oldAddr = 0 then task.mem else (task.mem.writeBytes oldAddr (leBytes task.signal.mask)).2

/-- The word that the call takes for the one at `setAddr`. -/
def seen : Word :=
  packWord (((withOld task oldAddr).readBytes setAddr (List.replicate 8 0)).getD (List.replicate 8 0)) 0

variable {task} {setAddr oldAddr}

theorem leBytes_getElem? (w : Word) {j : Nat} (low : j < 8) : (leBytes w)[j]? = some (byteAt w j) := by
  rw [leBytes,List.getElem?_map,List.getElem?_range low]
  rfl

theorem withOld_holds (asked : oldAddr ≠ 0) : Holds (withOld task oldAddr) oldAddr task.signal.mask := by
  intro j low
  rw [withOld,if_neg asked,byteOf_written oldAddr (by simp) (by simpa using low),leBytes_getElem? _ low]

/-- A byte that is there is the mask's where this has been stored over it. -/
theorem withOld_byte {a : Word} {b : Byte} (there : byteOf task.mem a = some b) : ∃ b', byteOf (withOld task oldAddr) a = some b' ∧
    ((∃ i < 8, oldAddr ≠ 0 ∧ a = oldAddr + BitVec.ofNat 64 i ∧ b' = byteAt task.signal.mask i) ∨
      ((oldAddr ≠ 0 → ∀ i < 8, a ≠ oldAddr + BitVec.ofNat 64 i) ∧ b' = b)) := by
  by_cases asked : oldAddr = 0
  · exact ⟨b,by rw [withOld,if_pos asked,there],.inr ⟨fun other => absurd asked other,rfl⟩⟩
  · by_cases near : (a - oldAddr).toNat < 8
    · have place := start_add_distance oldAddr a
      have holds := @withOld_holds task oldAddr asked _ near
      rw [place] at holds
      exact ⟨_,holds,.inl ⟨_,near,asked,place.symm,rfl⟩⟩
    · refine ⟨b,?_,.inr ⟨fun _ i low same => near ?_,rfl⟩⟩
      · rw [withOld,if_neg asked]
        exact byteOf_kept oldAddr (by simp) there (by simpa using near)
      · rw [same,Overlay.toNat_sub_start (by omega)]
        exact low

/-- The bytes that the call reads: those of the page of `setAddr`, and 0 behind it. -/
theorem seen_byte (there : (byteOf task.mem setAddr).isSome = true) {j : Nat} (low : j < 8) : byteAt (seen task setAddr oldAddr) j =
    if j < PAGE_SIZE - pageOffset setAddr then (byteOf (withOld task oldAddr) (setAddr + BitVec.ofNat 64 j)).getD 0 else 0 := by
  obtain ⟨b,isByte⟩ := Option.isSome_iff_exists.mp there
  obtain ⟨_,after,_⟩ := @withOld_byte task oldAddr _ _ isByte
  have present : (byteOf (withOld task oldAddr) setAddr).isSome = true := by
    rw [after]
    rfl
  rw [seen,byteAt_packWord _ _ _ low,Nat.zero_mul,Nat.zero_add,read_zeros setAddr present low]

/-- Eight bytes that are there hold a word. -/
theorem exists_holds {mem : TaskMemInfo} {addr : Word} (there : ∀ j < 8, ∃ b, byteOf mem (addr + BitVec.ofNat 64 j) = some b) :
    ∃ w, Holds mem addr w := by
  refine ⟨packWord ((List.range 8).map fun j => (byteOf mem (addr + BitVec.ofNat 64 j)).getD 0) 0,fun j low => ?_⟩
  obtain ⟨b,isByte⟩ := there j low
  rw [byteAt_packWord _ _ _ low,List.getD_eq_getElem?_getD,Nat.zero_mul,Nat.zero_add,List.getElem?_map,List.getElem?_range low,
    Option.map_some,isByte]
  rfl

/-! ## The three ways through the call -/

theorem withOld_task : (if oldAddr = 0 then task else task.write oldAddr (leBytes task.signal.mask)) =
    { task with mem := withOld task oldAddr } := by
  by_cases asked : oldAddr = 0
  · rw [if_pos asked,withOld,if_pos asked]
  · rw [if_neg asked,withOld,if_neg asked]
    rfl

theorem sigprocmask_unset : sysSigprocmask task how 0 oldAddr = (.ok 0,{ task with mem := withOld task oldAddr }) := by
  rw [sysSigprocmask]
  simp only [withOld_task,if_true]

theorem sigprocmask_unknown (set : setAddr ≠ 0) (unknown : ¬ Valid how) :
    sysSigprocmask task how setAddr oldAddr = (.error 22,{ task with mem := withOld task oldAddr }) := by
  rw [Valid] at unknown
  rw [sysSigprocmask]
  simp only [withOld_task,if_neg set]
  split
  · omega
  · omega
  · omega
  · rfl

theorem sigprocmask_known (set : setAddr ≠ 0) (valid : Valid how) :
    ∃ w, combine how task.signal.mask (seen task setAddr oldAddr) = some w ∧ sysSigprocmask task how setAddr oldAddr =
      (.ok 0,{ task with mem := withOld task oldAddr, signal := { task.signal with mask := w } }) := by
  rw [sysSigprocmask]
  simp only [withOld_task,if_neg set]
  rcases valid_cases valid with block | unblock | setmask
  · exact ⟨_,combine_block _ _ block,by simp only [block]; rfl⟩
  · exact ⟨_,combine_unblock _ _ unblock,by simp only [unblock]; rfl⟩
  · exact ⟨_,combine_setmask _ _ setmask,by simp only [setmask]; rfl⟩

/-! ## When the order makes no difference -/

theorem holds_there {mem : TaskMemInfo} {addr w : Word} (holds : Holds mem addr w) : (byteOf mem addr).isSome = true := by
  have first := holds 0 (by omega)
  rw [Overlay.add_ofNat_zero] at first
  rw [first]
  rfl

/-- What the call reads combines to the same as what is there just when each byte does. -/
theorem read_iff (valid : Valid how) :
    (∃ set, Holds task.mem setAddr set ∧
      combine how task.signal.mask set = combine how task.signal.mask (seen task setAddr oldAddr)) ↔
    ∀ j < 8, ∃ b, byteOf task.mem (setAddr + BitVec.ofNat 64 j) = some b ∧
      (PAGE_SIZE - pageOffset setAddr ≤ j → combine how (byteAt task.signal.mask j) 0 = combine how (byteAt task.signal.mask j) b) ∧
      (j < PAGE_SIZE - pageOffset setAddr → oldAddr ≠ 0 → ∀ i < 8, setAddr + BitVec.ofNat 64 j = oldAddr + BitVec.ofNat 64 i →
        combine how (byteAt task.signal.mask j) (byteAt task.signal.mask i) =
          combine how (byteAt task.signal.mask j) b) := by
  constructor
  · rintro ⟨set,holds,same⟩ j low
    have byte := (combine_congr valid _ _ _).mp same j low
    rw [seen_byte (holds_there holds) low] at byte
    refine ⟨byteAt set j,holds j low,fun behind => ?_,fun inside asked i small overlap => ?_⟩
    · rw [if_neg (Nat.not_lt.mpr behind)] at byte
      exact byte.symm
    · rw [if_pos inside,overlap,withOld_holds asked i small] at byte
      exact byte.symm
  · intro bytes
    obtain ⟨set,holds⟩ := exists_holds fun j low => ⟨_,(bytes j low).choose_spec.1⟩
    refine ⟨set,holds,(combine_congr valid _ _ _).mpr fun j low => ?_⟩
    obtain ⟨b,isByte,behind,inFront⟩ := bytes j low
    rw [seen_byte (holds_there holds) low]
    have isStored := holds j low
    rw [isByte] at isStored
    cases isStored
    by_cases inside : j < PAGE_SIZE - pageOffset setAddr
    · rw [if_pos inside]
      obtain ⟨b',after,⟨i,small,asked,overlap,rfl⟩ | ⟨_,rfl⟩⟩ := @withOld_byte task oldAddr _ _ isByte
      · rw [after]
        exact (inFront inside asked i small overlap).symm
      · rw [after]
        rfl
    · rw [if_neg inside]
      exact (behind (Nat.le_of_not_lt inside)).symm

/-- Storing the old mask leaves the memory as it was just when it is there already. -/
theorem withOld_same_iff : (∀ a, byteOf (withOld task oldAddr) a = byteOf task.mem a) ↔
    oldAddr = 0 ∨ Holds task.mem oldAddr task.signal.mask := by
  constructor
  · intro same
    by_cases asked : oldAddr = 0
    · exact .inl asked
    · refine .inr fun j low => ?_
      rw [← same]
      exact withOld_holds asked j low
  · intro there a
    by_cases asked : oldAddr = 0
    · rw [withOld,if_pos asked]
    · have holds := there.resolve_left asked
      by_cases near : (a - oldAddr).toNat < 8
      · have place := start_add_distance oldAddr a
        rw [← place,withOld_holds asked _ near,holds _ near]
      · have far : (leBytes task.signal.mask).length ≤ (a - oldAddr).toNat := by
          rw [leBytes_length]
          omega
        rw [withOld,if_neg asked]
        by_cases touched : Touches oldAddr (leBytes task.signal.mask).length (pageVaddr a)
        · obtain ⟨i,small,page⟩ := touched
          rw [leBytes_length] at small
          have present : (byteOf task.mem a).isSome = (byteOf task.mem (oldAddr + BitVec.ofNat 64 i)).isSome := by
            rw [byteOf,byteOf,Option.isSome_map,Option.isSome_map,page]
          rw [holds i small] at present
          obtain ⟨b,isByte⟩ := Option.isSome_iff_exists.mp present
          rw [isByte]
          exact byteOf_kept oldAddr (by simp) isByte far
        · rw [byteOf_writeBytes,(writeEffect_spec oldAddr (leBytes task.signal.mask) (by simp)).apart touched]
          rfl

variable (task how setAddr oldAddr)

/-- For every task, `how` and pair of addresses, `sys_sigprocmask` reads before it writes and fails cleanly just when the order
    of its steps and the end of the page make no difference. -/
theorem sigprocmask_clean_iff : Clean task how setAddr oldAddr (sysSigprocmask task how setAddr oldAddr).1
    (sysSigprocmask task how setAddr oldAddr).2 ↔ Unharmed task how setAddr oldAddr := by
  by_cases unset : setAddr = 0
  · subst unset
    rw [sigprocmask_unset]
    constructor
    · intro clean
      refine ⟨fun _ => ?_,fun set => absurd rfl set,fun set => absurd rfl set⟩
      by_contra unknown
      obtain ⟨⟨e,failed⟩,_⟩ := clean.failed (.inl unknown)
      cases failed
    · intro unharmed
      refine ⟨fun _ _ asked => withOld_holds asked,fun _ _ => by rw [if_pos rfl],?_⟩
      rintro (unknown | ⟨set,_⟩)
      · exact absurd (unharmed.known rfl) unknown
      · exact absurd rfl set
  · by_cases valid : Valid how
    · obtain ⟨w,isMask,result⟩ := @sigprocmask_known task how setAddr oldAddr unset valid
      rw [result]
      constructor
      · intro clean
        have combined := clean.combined 0 rfl
        rw [if_neg unset,← isMask] at combined
        exact ⟨fun none => absurd none unset,fun _ _ => (read_iff valid).mp combined,fun _ unknown => absurd valid unknown⟩
      · intro unharmed
        have bytes := unharmed.read unset valid
        refine ⟨fun _ _ asked => withOld_holds asked,fun _ _ => ?_,?_⟩
        · rw [if_neg unset,← isMask]
          exact (read_iff valid).mpr bytes
        · rintro (unknown | ⟨_,j,low,absent⟩)
          · exact absurd valid unknown
          · obtain ⟨b,there,_⟩ := bytes j low
            rw [absent] at there
            cases there
    · rw [sigprocmask_unknown unset valid]
      constructor
      · intro clean
        exact ⟨fun none => absurd none unset,fun _ known => absurd known valid,
          fun _ _ => withOld_same_iff.mp (clean.failed (.inl valid)).2.2⟩
      · intro unharmed
        refine Clean.mk ?_ ?_ fun _ => ⟨⟨22,rfl⟩,rfl,withOld_same_iff.mpr (unharmed.unknown unset valid)⟩
        · intro v done
          cases done
        · intro v done
          cases done

/-- A task with the word 5 at 0x1000, and with nothing masked. -/
def withFive : Sel4Task := (Sel4Task.new 1 1).write 0x1000 (leBytes 5)

/-- The set and the old mask at one address: 5 is there and the call sets 0. Without a page to read from, and with an unknown
    `how` and nothing to read, the call succeeds. -/
theorem sigprocmask_not_clean :
    ¬ Clean withFive 2 0x1000 0x1000 (sysSigprocmask withFive 2 0x1000 0x1000).1 (sysSigprocmask withFive 2 0x1000 0x1000).2 ∧
    ¬ Clean (Sel4Task.new 1 1) 0 0x1000 0 (sysSigprocmask (Sel4Task.new 1 1) 0 0x1000 0).1
      (sysSigprocmask (Sel4Task.new 1 1) 0 0x1000 0).2 ∧
    ¬ Clean (Sel4Task.new 1 1) 7 0 0 (sysSigprocmask (Sel4Task.new 1 1) 7 0 0).1 (sysSigprocmask (Sel4Task.new 1 1) 7 0 0).2 := by
  refine ⟨fun clean => ?_,fun clean => ?_,fun clean => ?_⟩
  · have newMask : (sysSigprocmask withFive 2 0x1000 0x1000).2.signal.mask = 0 := by decide +kernel
    have byte : byteOf withFive.mem (0x1000 + BitVec.ofNat 64 0) = some 5 := by decide +kernel
    obtain ⟨set,holds,combined⟩ := clean.combined 0 rfl
    rw [newMask,combine_setmask _ _ rfl] at combined
    cases combined
    have first := holds 0 (by omega)
    rw [byte] at first
    cases first
  · have absent : byteOf (Sel4Task.new 1 1).mem (0x1000 + BitVec.ofNat 64 0) = none := by decide +kernel
    obtain ⟨⟨e,failed⟩,_⟩ := clean.failed (.inr ⟨by decide,0,by omega,absent⟩)
    cases failed
  · obtain ⟨⟨e,failed⟩,_⟩ := clean.failed (.inl (by rw [Valid]; decide))
    cases failed

end Sel4Linux.SignalMasks
