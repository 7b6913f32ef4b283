import Sel4Linux.Rounds

/-!
Progress at page faults. A round that handles a fault should map the page and
fill it with zeros before it replies, or stop the thread and leave the loop. It
does so exactly when the page can be mapped (`progress_iff`): where the kernel
has no memory the thread goes on without its page, where slots run out the root
task panics, and where a page cannot be mapped the reply comes before the stop.
-/
namespace Sel4Linux.PageFaults
open Sel4Linux.Bytes Sel4Linux.Ipc Sel4Linux.TaskMem Sel4Linux.Client Sel4Linux.Slots Sel4Linux.Tcb Sel4Linux.Emulation
open Sel4Linux.FaultLoop Sel4Linux.Runs
set_option linter.unusedSimpArgs false

variable {ω : Type} (cfg : Setup) (K : Kernel ω)

/-- A round of the running loop that handles a page fault, beyond the first page. -/
structure HandlesFault (s : State ω) (r : Round) : Prop where
  running : s.left = false
  within : s.faultCount < MAX_FAULTS
  isFault : faultType r.tag = 4 ∨ faultType r.tag = 5
  notNull : 0x1000 ≤ pageVaddr (r.ib.readMr 1)

/-- The page is mapped and filled with zeros, and unless the loop is left the thread gets a reply. -/
def PageFilled (page : Word) (out : Output) (t : State ω) : Prop :=
  page ∈ mappedPages out.actions ∧ (∀ a, pageVaddr a = page → out.mem a = 0) ∧ (t.left = false → .reply 0 ∈ out.actions)

def ThreadStopped (tcb : Word) (out : Output) (t : State ω) : Prop :=
  t.left = true ∧ ∃ err, .invoke (tcbSuspend tcb) err ∈ out.actions

def RepliesLast (page : Word) (out : Output) : Prop :=
  ∀ before info after, out.actions = before ++ .reply info :: after → page ∈ mappedPages before ∧ .zero page ∈ before

/-- A page fault makes progress. -/
def Progress (s : State ω) (r : Round) : Prop :=
  ∃ out t, faultRound cfg K s r = .ok (out,t) ∧
    (PageFilled (pageVaddr (r.ib.readMr 1)) out t ∨ ThreadStopped s.process.activeTcb out t) ∧
    RepliesLast (pageVaddr (r.ib.readMr 1)) out

variable {cfg K} {s : State ω} {r : Round}

private theorem faultRound_fault (handles : HandlesFault s r) :
    faultRound cfg K s r = (do
      let h ← vmFault cfg s.counted r
      .ok h.finish) := by
  rw [faultRound_eq handles.running handles.within]
  rw [handle]
  rcases handles.isFault with isFault | isFault
  · rw [isFault]
    rfl
  · rw [isFault]
    rfl

private theorem takeSlot_of_room (room : 1 ≤ s.allocator.recycled.length) :
    ∃ slot t, takeSlot s = .ok (slot,t) ∧ s.allocator.recycled.length = t.allocator.recycled.length + 1 := by
  obtain ⟨slot,rest,isCons⟩ := List.exists_cons_of_length_pos room
  refine ⟨slot,{ s with allocator := { recycled := rest } },?_,by rw [isCons]; rfl⟩
  unfold takeSlot ObjectAllocator.alloc
  rw [isCons]

private theorem vmFault_of_mappable (mappable : Mappable cfg s r) : ∃ h, vmFault cfg s r = .ok h := by
  obtain ⟨notNull,found,retyped,attempts⟩ := mappable
  obtain ⟨⟨ut,size⟩,isUntyped⟩ := Option.isSome_iff_exists.mp found
  rw [vmFault]
  dsimp only
  rw [if_neg notNull,isUntyped]
  rcases attempts with ⟨mapped,room⟩ | ⟨refused,room,ptRetyped,again⟩
  · obtain ⟨slot,t,took,_⟩ := takeSlot_of_room room
    rw [took]
    simp only [ok_bind,if_pos retyped,if_pos mapped]
    exact ⟨_,rfl⟩
  · obtain ⟨slot,t,took,fewer⟩ := takeSlot_of_room (s := s) (by omega)
    obtain ⟨ptSlot,t',took',_⟩ := takeSlot_of_room (s := t) (by omega)
    rw [took]
    simp only [ok_bind,if_pos retyped,if_neg refused]
    rw [mapWithTable]
    rw [isUntyped]
    dsimp only
    rw [took']
    simp only [ok_bind,if_pos ptRetyped,if_pos again]
    exact ⟨_,rfl⟩

private theorem before_reply {done before after : List Action} {info info' : Word} (noReply : ∀ info, .reply info ∉ done)
    (parts : done ++ [.reply info'] = before ++ .reply info :: after) : before = done := by
  rcases List.append_eq_append_iff.mp parts with ⟨rest,isBefore,isLast⟩ | ⟨rest,isDone,isLast⟩
  · cases rest with
    | nil => rw [isBefore,List.append_nil]
    | cons action rest =>
      have tooLong := congrArg List.length isLast
      simp at tooLong
  · cases rest with
    | nil => rw [isDone,List.append_nil]
    | cons action rest =>
      have isReply : .reply info = action := (List.cons.inj isLast).1
      refine absurd ?_ (noReply info)
      rw [isDone,isReply]
      exact List.mem_append_right _ List.mem_cons_self

private theorem finish_filled {t u : State ω} {done : List Action} {page : Word} {out : Output}
    (only : mappedPages done = [page]) (noReply : ∀ info, .reply info ∉ done)
    (finished : (out,u) = (fillPage t r done page).finish) : PageFilled page out u ∧ RepliesLast page out := by
  have zeros : ∀ a, pageVaddr a = page → zeroPage r.mem page a = 0 := fun a here => if_pos here
  have mapped (later : List Action) : page ∈ mappedPages (done ++ later) := by
    unfold mappedPages at only ⊢
    rw [List.filterMap_append,only]
    exact List.mem_append_left _ List.mem_cons_self
  have noReply' : ∀ info, .reply info ∉ done ++ [.zero page] := by
    intro info member
    rcases List.mem_append.mp member with old | new
    · exact noReply info old
    · simp at new
  unfold fillPage Handled.finish at finished
  dsimp only at finished
  split at finished
  · cases finished
    refine ⟨⟨mapped _,zeros,fun no => by cases no⟩,?_⟩
    intro before info after parts
    refine absurd ?_ (noReply' info)
    rw [show done ++ [.zero page] = _ from parts]
    exact List.mem_append_right _ List.mem_cons_self
  · rw [if_neg Bool.false_ne_true] at finished
    cases finished
    refine ⟨⟨?_,zeros,fun _ => List.mem_append_right _ List.mem_cons_self⟩,?_⟩
    · rw [List.append_assoc]
      exact mapped _
    · intro before info after parts
      rw [before_reply noReply' parts]
      exact ⟨mapped _,List.mem_append_right _ List.mem_cons_self⟩

/-- A round makes progress at a page fault exactly when the page can be mapped: a frame can be made for it,
    and mapped at once or after a page table, with a slot for each. -/
theorem progress_iff (cfg : Setup) (K : Kernel ω) (s : State ω) (r : Round) (handles : HandlesFault s r) :
    Progress cfg K s r ↔ Mappable cfg s r := by
  rw [Progress]
  rw [faultRound_fault handles]
  constructor
  · rintro ⟨out,t,round,ends,last⟩
    obtain ⟨h,handled,finished⟩ := bind_ok_iff.mp round
    have finished := Except.ok.inj finished
    cases vmFault_end handled with
    | filled u done process only noReply mappable => exact mappable
    | killed u done process nothing not =>
      cases finished
      have mapped := (last done 0 _ rfl).1
      rw [nothing] at mapped
      cases mapped
    | dropped u done process nothing noSuspend not =>
      have finished : { actions := done, mem := r.mem, state := u, flow := .next false : Handled ω }.finish = (out,t) := finished
      rcases ends with ⟨filled,_⟩ | ⟨_,err,stopped⟩
      · have unmapped := finish_mapped { actions := done, mem := r.mem, state := u, flow := .next false }
        rw [finished,nothing] at unmapped
        rw [unmapped] at filled
        cases filled
      · unfold Handled.finish at finished
        dsimp only at finished
        split at finished
        · cases finished
          exact absurd stopped (noSuspend _ err)
        · cases finished
          rcases List.mem_append.mp stopped with old | new
          · exact absurd old (noSuspend _ err)
          · simp at new
  · intro mappable
    obtain ⟨h,handled⟩ := vmFault_of_mappable (s := s.counted) mappable
    rw [handled]
    cases vmFault_end handled with
    | filled u done process only noReply _ =>
      obtain ⟨filled,last⟩ := finish_filled (r := r) (t := u) only noReply rfl
      exact ⟨_,_,rfl,Or.inl filled,last⟩
    | killed u done process nothing not => exact absurd mappable not
    | dropped u done process nothing noSuspend not => exact absurd mappable not

/-- A page that is mapped at once. -/
theorem progress_at_once :
    HandlesFault beginning (missing 0x10000010 fun _ => 0) ∧
      (Progress twoThreads noService beginning (missing 0x10000010 fun _ => 0) ↔
        Mappable twoThreads beginning (missing 0x10000010 fun _ => 0)) :=
  have handles : HandlesFault beginning (missing 0x10000010 fun _ => 0) := ⟨rfl,by decide,by decide,by decide⟩
  ⟨handles,progress_iff twoThreads noService beginning (missing 0x10000010 fun _ => 0) handles⟩

/-- The kernel has no memory left: the thread gets its reply without the page. -/
theorem reply_without_page :
    HandlesFault beginning (missing 0x10000010 fun _ => 10) ∧
      ¬ Progress twoThreads noService beginning (missing 0x10000010 fun _ => 10) := by
  refine ⟨⟨rfl,by decide,by decide,by decide⟩,?_⟩
  rintro ⟨out,t,round,ends,last⟩
  cases round
  have mapped := (last [_] 0 [] rfl).1
  exact absurd mapped (by decide)

end Sel4Linux.PageFaults
