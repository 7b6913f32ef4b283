import Mathlib.Tactic.Common

/-!
A first-fit search among blocks in order. The search tries the start, and behind
every block in turn, and ends where what it looks for fits before the next block.
It ends at the start when that fits before all blocks, and otherwise behind the
first block that has room behind it (`firstFit_found`): however high the start
is, a search that has to leave it goes back to the lowest block.
-/
namespace Sel4Linux.FirstFit
universe u

section
variable {α : Type u} [LT α] (fits : α → α → Prop) [DecidableRel fits] (after : α → α)

def firstFit : α → List α → α
  | place, [] => place
  | place, block :: rest => if fits place block then place else firstFit (after block) rest

/-- There is room behind a block before any that comes later. -/
def Room (blocks : List α) (block : α) : Prop := ∀ later ∈ blocks, block < later → fits (after block) later

/-- The first block with room behind it. -/
structure FirstRoom (blocks : List α) (block : α) : Prop where
  member : block ∈ blocks
  room : Room fits after blocks block
  first : ∀ earlier ∈ blocks, earlier < block → ¬ Room fits after blocks earlier

/-- Where a search from `start` on ends. -/
inductive Found (start : α) (blocks : List α) : α → Prop where
  | atStart (before : ∀ block ∈ blocks, fits start block) : Found start blocks start
  | behind (block : α) (tight : ¬ ∀ later ∈ blocks, fits start later) (firstRoom : FirstRoom fits after blocks block) :
      Found start blocks (after block)

variable {fits after}
variable (asymm : ∀ a b : α, a < b → ¬ b < a) (mono : ∀ a b c : α, fits a b → b < c → fits a c)
include asymm mono

theorem firstFit_found {blocks : List α} (sorted : blocks.Pairwise (· < ·)) (start : α) :
    Found fits after start blocks (firstFit fits after start blocks) := by
  induction blocks generalizing start with
  | nil =>
    refine .atStart fun block member => ?_
    cases member
  | cons block rest ih =>
    obtain ⟨below,sortedRest⟩ := List.pairwise_cons.mp sorted
    rw [firstFit]
    by_cases here : fits start block
    · rw [if_pos here]
      refine .atStart fun later member => ?_
      rcases List.mem_cons.mp member with same | inRest
      · rw [same]
        exact here
      · exact mono start block later here (below later inRest)
    · rw [if_neg here]
      have tight : ¬ ∀ later ∈ block :: rest, fits start later := fun all => here (all block List.mem_cons_self)
      have found := ih sortedRest (after block)
      -- The search behind this block ends there exactly when the block has room.
      have room (all : ∀ later ∈ rest, fits (after block) later) : Room fits after (block :: rest) block := by
        intro later member above
        rcases List.mem_cons.mp member with same | inRest
        · rw [same] at above
          exact (asymm block block above above).elim
        · exact all later inRest
      generalize firstFit fits after (after block) rest = place at found ⊢
      cases found with
      | atStart before =>
        refine .behind block tight ⟨List.mem_cons_self,room before,?_⟩
        intro earlier member lower
        rcases List.mem_cons.mp member with same | inRest
        · rw [same] at lower
          exact (asymm block block lower lower).elim
        · exact (asymm block earlier (below earlier inRest) lower).elim
      | behind next tightRest firstRoom =>
        refine .behind next tight ⟨List.mem_cons_of_mem block firstRoom.member,?_,?_⟩
        · intro later member above
          rcases List.mem_cons.mp member with same | inRest
          · rw [same] at above
            exact (asymm block next (below next firstRoom.member) above).elim
          · exact firstRoom.room later inRest above
        · intro earlier member lower roomy
          rcases List.mem_cons.mp member with same | inRest
          · refine tightRest fun later inRest => ?_
            rw [same] at roomy
            exact roomy later (List.mem_cons_of_mem block inRest) (below later inRest)
          · refine firstRoom.first earlier inRest lower fun later inRest' above => ?_
            exact roomy later (List.mem_cons_of_mem block inRest') above

variable (total : ∀ a b : α, a < b ∨ a = b ∨ b < a)
include total

/-- A property of the start holds of the end of the search exactly when the start fits before all blocks, or the end of
    the first block with room has it. -/
theorem firstFit_iff {blocks : List α} (sorted : blocks.Pairwise (· < ·)) {start : α} {P : α → Prop} (ofStart : P start) :
    P (firstFit fits after start blocks) ↔
      (∀ block ∈ blocks, fits start block) ∨ ∀ block, FirstRoom fits after blocks block → P (after block) := by
  have found : Found fits after start blocks (firstFit fits after start blocks) := firstFit_found asymm mono sorted start
  generalize firstFit fits after start blocks = place at found ⊢
  cases found with
  | atStart before => exact iff_of_true ofStart (.inl before)
  | behind block tight firstRoom =>
    rw [or_iff_right tight]
    constructor
    · intro holds other otherFirst
      rcases total block other with lower | same | higher
      · exact (otherFirst.first block firstRoom.member lower firstRoom.room).elim
      · exact same ▸ holds
      · exact (firstRoom.first other otherFirst.member higher otherFirst.room).elim
    · intro all
      exact all block firstRoom

end

end Sel4Linux.FirstFit
