import Sel4Linux.Rounds
import Mathlib.Order.CompletePartialOrder
import Mathlib.Order.Interval.Set.Disjoint

/-!
Anonymous memory over whole runs of the fault loop. A history keeps the regions
that mmap has returned and the pages that are mapped. A cursor goes up with every
mmap, so that a region is apart from all that came before it (`mmap_fresh`), as
long as nothing is beyond the cursor: no rounding past the end of the address
space, no heap or page of the guest, and no region of a child that has ended.
-/
namespace Sel4Linux.AnonMemory
open Sel4Linux.Bytes Sel4Linux.TaskMem Sel4Linux.Client Sel4Linux.Slots Sel4Linux.Tcb Sel4Linux.Emulation Sel4Linux.FaultLoop
open Sel4Linux.Runs
set_option linter.unusedSimpArgs false

/-- A region of mmap, from its address on. -/
structure Region where
  addr : Word
  length : Word
  deriving DecidableEq

def Region.addresses (region : Region) : Set Nat := Set.Ico region.addr.toNat (region.addr.toNat + region.length.toNat)

def pageAddresses (page : Word) : Set Nat := Set.Ico page.toNat (page.toNat + PAGE_SIZE)

def heapAddresses (brkCur : Word) : Set Nat := Set.Ico 0x07000000 brkCur.toNat

/-- The regions that mmap has returned, and the pages that are mapped. -/
structure Memory where
  regions : List Region
  mapped : List Word

variable {ω : Type} (cfg : Setup) (K : Kernel ω)

def returned (s : State ω) (r : Round) (out : Output) : Option Region :=
  match asked s r, resultOf out.actions with
  | some (.mmap length), some addr => some ⟨addr,length⟩
  | _, _ => none

def noteMemory (s : State ω) (r : Round) (out : Output) (_ : State ω) (m : Memory) : Memory :=
  { regions := (returned s r out).toList ++ m.regions, mapped := mappedPages out.actions ++ m.mapped }

def memoryRound : State ω × Memory → Round → Except Stop (Output × (State ω × Memory)) :=
  recorded (faultRound cfg K) noteMemory

/-- A region that is returned is apart from the regions returned before it, from the heap and from all
    mapped pages, and a page that becomes mapped is filled with zeros. -/
def Fresh : State ω × Memory → Round → Output → State ω × Memory → Prop := fun (s,m) r out _ =>
  (∀ region, returned s r out = some region →
    (∀ earlier ∈ m.regions, Disjoint region.addresses earlier.addresses) ∧
    Disjoint region.addresses (heapAddresses s.process.brkCur) ∧
    ∀ page ∈ m.mapped, Disjoint region.addresses (pageAddresses page)) ∧
  ∀ page ∈ mappedPages out.actions, ∀ a, pageVaddr a = page → out.mem a = 0

/-- Nothing is beyond the cursor: an mmap ends within the address space and finds the heap below the
    cursor, a child ends with the cursor that it started with, and a page fault is below the cursor. -/
structure BelowCursor (p : Process) (asks : Option Request) (fault : Nat) (addr : Word) : Prop where
  room : ∀ length, asks = some (.mmap length) → p.mmapCur.toNat + max 1 length.toNat + 0xFFF < 2 ^ 64
  heap : ∀ length, asks = some (.mmap length) → length = 0 ∨ p.brkCur ≤ p.mmapCur
  child : p.isChild = true → (asks = some .execve ∨ ∃ code, asks = some (.exit code)) → p.mmapCur = p.parentMmap
  page : fault = 4 ∨ fault = 5 → (pageVaddr addr).toNat + PAGE_SIZE ≤ p.mmapCur.toNat

/-- A round with nothing beyond the cursor. -/
def Orderly : State ω × Memory → Round → Output → State ω × Memory → Prop := fun (s,_) r _ _ =>
  BelowCursor s.process (asked s r) (faultType r.tag) (r.ib.readMr 1)

/-- The regions and the mapped pages end at the cursor. -/
structure Behind (cursor : Word) (m : Memory) : Prop where
  regions : ∀ region ∈ m.regions, region.addr.toNat + region.length.toNat ≤ cursor.toNat
  mapped : ∀ page ∈ m.mapped, page.toNat + PAGE_SIZE ≤ cursor.toNat

variable {cfg K}

private theorem disjoint_of_le {a b c d : Nat} (before : d ≤ a) : Disjoint (Set.Ico a b) (Set.Ico c d) := by
  rw [Set.disjoint_left]
  intro x inFirst inSecond
  exact absurd (Nat.lt_of_lt_of_le inSecond.2 before) (Nat.not_lt.mpr inFirst.1)

private theorem mmap_cursor {p : Process} {length : Word} (room : p.mmapCur.toNat + max 1 length.toNat + 0xFFF < 2 ^ 64) :
    p.mmapCur.toNat + length.toNat ≤ (p.mmap length).mmapCur.toNat := by
  have whole : (length + 0xFFF#64).toNat = length.toNat + 0xFFF := by
    rw [BitVec.toNat_add]
    exact Nat.mod_eq_of_lt (by change length.toNat + 0xFFF < 2 ^ 64; omega)
  have split := pageVaddr_add_offset (length + 0xFFF#64)
  have offset := pageOffset_lt (length + 0xFFF#64)
  rw [whole] at split
  change p.mmapCur.toNat + length.toNat ≤ (p.mmapCur + (if pageVaddr (length + 0xFFF#64) < 0x1000 then 0x1000 else
    pageVaddr (length + 0xFFF#64))).toNat
  have pageSize : PAGE_SIZE = 0x1000 := rfl
  split
  · next small =>
    have below : (pageVaddr (length + 0xFFF#64)).toNat < 0x1000 := BitVec.lt_def.mp small
    rw [BitVec.toNat_add,Nat.mod_eq_of_lt (by change p.mmapCur.toNat + 0x1000 < 2 ^ 64; omega)]
    change p.mmapCur.toNat + length.toNat ≤ p.mmapCur.toNat + 0x1000
    omega
  · rw [BitVec.toNat_add_of_lt (by omega)]
    omega

private theorem returned_ok {s t : State ω} {r : Round} {out : Output} {region : Region}
    (returns : returned s r out = some region) (round : faultRound cfg K s r = .ok (out,t)) :
    asked s r = some (.mmap region.length) ∧ region.addr = s.process.mmapCur ∧ t.process = s.process.mmap region.length := by
  unfold returned at returns
  split at returns
  · next length addr asks result =>
    cases returns
    obtain ⟨regs,isServed,isMmap⟩ := asked_iff.mp asks
    have serves : serve cfg K s.counted r regs = .ok (mmapCall s.counted r length) := by
      rw [serve]
      rw [isMmap]
    obtain ⟨isCursor,_⟩ := faultRound_answered isServed serves rfl rfl round
    refine ⟨asks,Option.some.inj (result.symm.trans isCursor),?_⟩
    rw [faultRound_process round,isServed]
    unfold Process.after
    simp only [Option.elim_some,isMmap]
  · cases returns

private theorem cursor_grows {p : Process} {regs : Regs} {fault : Nat} {addr : Word}
    (below : BelowCursor p (some (request regs)) fault addr) : p.mmapCur.toNat ≤ (p.after cfg regs).mmapCur.toNat := by
  rw [Process.after]
  cases asks : request regs with
  | mmap length => exact Nat.le_trans (Nat.le_add_right _ _) (mmap_cursor (below.room length (congrArg some asks)))
  | brk addr =>
    dsimp only [Process.brk]
    split
    · exact Nat.le_refl _
    · exact Nat.le_refl _
  | fork =>
    dsimp only
    split
    · exact Nat.le_refl _
    · exact Nat.le_refl _
  | execve =>
    dsimp only
    split
    · next child => exact Nat.le_of_eq (congrArg BitVec.toNat (below.child child (Or.inl (congrArg some asks))))
    · exact Nat.le_refl _
  | exit code =>
    dsimp only
    split
    · next child => exact Nat.le_of_eq (congrArg BitVec.toNat (below.child child (Or.inr ⟨code,congrArg some asks⟩)))
    · exact Nat.le_refl _
  | wait4 status => exact Nat.le_refl _
  | archPrctl code addr => exact Nat.le_refl _
  | other => exact Nat.le_refl _

private theorem round_cursor_grows {s t : State ω} {m : Memory} {r : Round} {out : Output} {t' : State ω × Memory}
    (orderly : Orderly (s,m) r out t') (round : faultRound cfg K s r = .ok (out,t)) :
    s.process.mmapCur.toNat ≤ t.process.mmapCur.toNat := by
  rw [faultRound_process round]
  cases isServed : served s r with
  | none => exact Nat.le_refl _
  | some regs =>
    have below : BelowCursor s.process (some (request regs)) (faultType r.tag) (r.ib.readMr 1) := by
      have asks : asked s r = some (request regs) := asked_iff.mpr ⟨regs,isServed,rfl⟩
      rw [← asks]
      exact orderly
    exact cursor_grows below

private theorem behind_step {s t : State ω} {m m' : Memory} {r : Round} {out : Output} (behind : Behind s.process.mmapCur m)
    (orderly : Orderly (s,m) r out (t,m')) (step : memoryRound cfg K (s,m) r = .ok (out,(t,m'))) :
    Behind t.process.mmapCur m' := by
  obtain ⟨round,rfl⟩ := recorded_ok_iff.mp step
  have grows := round_cursor_grows orderly round
  constructor
  · intro region member
    rcases List.mem_append.mp member with new | old
    · obtain ⟨asks,atCursor,isNext⟩ := returned_ok (Option.mem_toList.mp new) round
      rw [isNext,atCursor]
      exact mmap_cursor (orderly.room region.length asks)
    · exact Nat.le_trans (behind.regions region old) grows
  · intro page member
    rcases List.mem_append.mp member with new | old
    · obtain ⟨isFault,isPage,_⟩ := faultRound_mapped round page new
      rw [isPage]
      exact Nat.le_trans (orderly.page isFault) grows
    · exact Nat.le_trans (behind.mapped page old) grows

private theorem fresh_step {s t : State ω} {m m' : Memory} {r : Round} {out : Output} (behind : Behind s.process.mmapCur m)
    (orderly : Orderly (s,m) r out (t,m')) (step : memoryRound cfg K (s,m) r = .ok (out,(t,m'))) :
    Fresh (s,m) r out (t,m') := by
  obtain ⟨round,rfl⟩ := recorded_ok_iff.mp step
  refine ⟨?_,fun page member => (faultRound_mapped round page member).2.2⟩
  intro region returns
  obtain ⟨asks,atCursor,_⟩ := returned_ok returns round
  refine ⟨?_,?_,?_⟩
  · intro earlier member
    exact disjoint_of_le (by rw [atCursor]; exact behind.regions earlier member)
  · rcases orderly.heap region.length asks with empty | below
    · rw [Region.addresses]
      rw [empty]
      simp
    · exact disjoint_of_le (by rw [atCursor]; exact BitVec.le_def.mp below)
  · intro page member
    exact disjoint_of_le (by rw [atCursor]; exact behind.mapped page member)

/-- Every region that mmap returns is apart from the regions returned before, from the heap and from the
    mapped pages, and its pages are zeros when they are mapped, in every run that starts with its pages
    below the first region and has nothing beyond the cursor. -/
theorem mmap_fresh (cfg : Setup) (K : Kernel ω) (allocator : ObjectAllocator) (lcl : Lcl ω) (image : List Word)
    (low : ∀ page ∈ image, page.toNat + PAGE_SIZE ≤ 0x10000000) (rounds : List Round)
    (orderly : Always (memoryRound cfg K) Orderly (start cfg allocator lcl,⟨[],image⟩) rounds) :
    Always (memoryRound cfg K) Fresh (start cfg allocator lcl,⟨[],image⟩) rounds := by
  refine always_of_always (I := fun (s,m) => Behind s.process.mmapCur m) ?_ ?_ orderly
  · rintro ⟨s,m⟩ r out ⟨t,m'⟩ behind condition step
    exact ⟨fresh_step behind condition step,behind_step behind condition step⟩
  · constructor
    · intro region member
      cases member
    · exact low

/-- Two regions, one after the other. -/
theorem mmap_fresh_twice :
    Always (memoryRound twoThreads noService) Fresh (beginning,⟨[],[0x400000]⟩)
      [calling 0x401000 9 0 0x1800,calling 0x401010 9 0 1] := by
  refine mmap_fresh twoThreads noService _ _ [0x400000] (by simp [PAGE_SIZE]) _ ?_
  intro out t first
  cases first
  refine ⟨?_,?_⟩
  · constructor
    · intro length asks
      cases asks
      decide
    · intro length asks
      exact Or.inr (by decide)
    · intro child
      cases child
    · intro isFault
      exact absurd isFault (by decide)
  · intro out t second
    cases second
    refine ⟨?_,trivial⟩
    constructor
    · intro length asks
      cases asks
      decide
    · intro length asks
      exact Or.inr (by decide)
    · intro child
      cases child
    · intro isFault
      exact absurd isFault (by decide)

/-- A child maps memory and exits, and its parent maps memory: both get the same region. -/
theorem region_twice :
    ¬ Always (memoryRound twoThreads noService) Fresh (beginning,⟨[],[]⟩)
      [calling 0x401000 57 0 0,calling 0x402000 9 0 0x1000,calling 0x402010 60 0 0,calling 0x401010 9 0 0x1000] := by
  intro always
  have fresh := ((((always _ _ rfl).2 _ _ rfl).2 _ _ rfl).2 _ _ rfl).1
  have apart := (fresh.1 ⟨0x10000000,0x1000⟩ rfl).1 ⟨0x10000000,0x1000⟩ List.mem_cons_self
  have inRegion : 0x10000000 ∈ Region.addresses ⟨0x10000000,0x1000⟩ := ⟨by decide,by decide⟩
  exact Set.disjoint_left.mp apart inRegion inRegion

end Sel4Linux.AnonMemory
