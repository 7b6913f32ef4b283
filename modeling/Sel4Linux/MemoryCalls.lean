import Sel4Linux.Exception
import Sel4Linux.Loader
import Sel4Linux.PageMaps

/-!
Everything that changes the pages of a task: `map_blank_page_simple`, `write_bytes`,
the memory syscalls, `load_elf` and page faults. Whatever the calls and their order,
`mapped_page` and `page_data` keep the same pages, all of them at multiples of the
page size (`page_maps_agree`).
-/
namespace Sel4Linux.MemoryCalls
open Sel4Linux.Bytes Sel4Linux.Ipc Sel4Linux.TaskMem Sel4Linux.Client Sel4Linux.Task Sel4Linux.Syscalls Sel4Linux.Exception
open Sel4Linux.Runs Sel4Linux.MemImage Sel4Linux.PageMaps Sel4Linux.Loader
set_option linter.unusedSimpArgs false

variable {ω : Type}

inductive MemCall where
  | mapBlankPageSimple (vaddr : Word)
  | writeBytes (addr : Word) (data : List Byte)
  | sysBrk (newBrk : Word)
  | sysMmap (addr length prot : Word)
  | sysMunmap (addr length : Word)
  | loadElf (data : List Byte)
  | handleVmfault (addr : Word)

/-- What a call returns: an `Option<usize>`, a `bool`, a `SysResult` or what a fault leads to. -/
inductive MemResult where
  | noTask
  | value (v : Option Word)
  | written (done : Bool)
  | syscall (result : SysResult)
  | handled (h : Handled)

/-- A call on the task `tid`, if there is one. -/
def onTask (L : Layer ω) (tid : Word) (call : Sel4Task → Except Fault (MemResult × Sel4Task)) :
    Except Fault (MemResult × Layer ω) :=
  match L.tasks tid with
  | none => .ok (.noTask,L)
  | some task => do
    let (result,task) ← call task
    .ok (result,{ L with tasks := L.tasks.insert tid task })

/-- A call by the release build: what completes in a build with overflow checks does so with the same result. -/
def memStep (L : Layer ω) : Word × MemCall → Except Fault (MemResult × Layer ω)
  | (tid,.mapBlankPageSimple vaddr) => onTask L tid fun task => .ok (.value (some 0),task.mapBlank [vaddr])
  | (tid,.writeBytes addr data) =>
    onTask L tid fun task => .ok (.written (task.mem.writeBytes addr data).1,task.write addr data)
  | (tid,.sysBrk newBrk) => onTask L tid fun task => .ok (.syscall (sysBrk task newBrk).1,(sysBrk task newBrk).2)
  | (tid,.sysMmap addr length prot) =>
    onTask L tid fun task => .ok (.syscall (sysMmap task addr length prot).1,(sysMmap task addr length prot).2)
  | (tid,.sysMunmap addr length) =>
    onTask L tid fun task => .ok (.syscall (sysMunmap task addr length).1,(sysMunmap task addr length).2)
  | (tid,.loadElf data) => onTask L tid fun task => do
    let (entry,task) ← loadElf release task data
    .ok (.value entry,task)
  | (tid,.handleVmfault addr) => .ok (.handled (handleVmfault L tid addr).1,(handleVmfault L tid addr).2)

/-! ## What a call keeps -/

theorem consistent_sysBrk {task : Sel4Task} (consistent : task.mem.Consistent) (newBrk : Word) :
    (sysBrk task newBrk).2.mem.Consistent := by
  rw [sysBrk]
  split
  · exact consistent
  · dsimp only
    split
    · exact consistent_mapBlankPages consistent _
    · exact consistent

theorem consistent_sysMmap {task : Sel4Task} (consistent : task.mem.Consistent) (addr length prot : Word) :
    (sysMmap task addr length prot).2.mem.Consistent := consistent_mapBlankPages consistent _

theorem consistent_sysMunmap {task : Sel4Task} (consistent : task.mem.Consistent) (addr length : Word) :
    (sysMunmap task addr length).2.mem.Consistent := consistent_removePages consistent _

theorem consistent_loadElf {ε : Type} {A : Arith ε} {task task' : Sel4Task} {data : List Byte} {entry : Option Word}
    (consistent : task.mem.Consistent) (loaded : loadElf A task data = .ok (entry,task')) : task'.mem.Consistent := by
  rw [loadElf] at loaded
  split at loaded
  · cases loaded
    exact consistent
  · obtain ⟨h,_,loaded⟩ := bind_ok_iff.mp loaded
    obtain ⟨loads,_,loaded⟩ := bind_ok_iff.mp loaded
    obtain ⟨past,_,loaded⟩ := bind_ok_iff.mp loaded
    cases loaded
    exact consistent_runOps consistent _

/-- The pages of every task are in order. -/
def PagesAgree (L : Layer ω) : Prop := ∀ tid task, L.tasks tid = some task → task.mem.Consistent

theorem pagesAgree_insert {L : Layer ω} (agree : PagesAgree L) {tid : Word} {task : Sel4Task}
    (consistent : task.mem.Consistent) : PagesAgree { L with tasks := L.tasks.insert tid task } := by
  intro other task' there
  dsimp only [TaskMap.insert] at there
  by_cases same : other = tid
  · rw [if_pos same] at there
    cases there
    exact consistent
  · rw [if_neg same] at there
    exact agree other task' there

theorem pagesAgree_onTask {L L' : Layer ω} {tid : Word} {call : Sel4Task → Except Fault (MemResult × Sel4Task)}
    {result : MemResult} (agree : PagesAgree L) (keeps : ∀ task, task.mem.Consistent →
      Ensures (call task) fun after => after.2.mem.Consistent)
    (called : onTask L tid call = .ok (result,L')) : PagesAgree L' := by
  rw [onTask] at called
  cases isTask : L.tasks tid with
  | none =>
    rw [isTask] at called
    cases called
    exact agree
  | some task =>
    rw [isTask] at called
    obtain ⟨after,isCall,called⟩ := bind_ok_iff.mp called
    cases called
    exact pagesAgree_insert agree (keeps task (agree tid task isTask) after isCall)

theorem pagesAgree_handleVmfault {L : Layer ω} (agree : PagesAgree L) (tid addr : Word) :
    PagesAgree (handleVmfault L tid addr).2 := by
  rw [handleVmfault]
  cases isTask : L.tasks tid with
  | none => exact agree
  | some task => exact pagesAgree_insert agree (consistent_mapBlankPageSimple (agree tid task isTask) (pageVaddr addr))

theorem pagesAgree_memStep {L L' : Layer ω} {call : Word × MemCall} {result : MemResult} (agree : PagesAgree L)
    (called : memStep L call = .ok (result,L')) : PagesAgree L' := by
  obtain ⟨tid,call⟩ := call
  cases call with
  | mapBlankPageSimple vaddr =>
    exact pagesAgree_onTask agree (fun task consistent => ensures_ok (consistent_mapBlankPages consistent [vaddr])) called
  | writeBytes addr data =>
    exact pagesAgree_onTask agree (fun task consistent => ensures_ok (consistent_writeBytes consistent addr data)) called
  | sysBrk newBrk =>
    exact pagesAgree_onTask agree (fun task consistent => ensures_ok (consistent_sysBrk consistent newBrk)) called
  | sysMmap addr length prot =>
    exact pagesAgree_onTask agree (fun task consistent => ensures_ok (consistent_sysMmap consistent addr length prot)) called
  | sysMunmap addr length =>
    exact pagesAgree_onTask agree (fun task consistent => ensures_ok (consistent_sysMunmap consistent addr length)) called
  | loadElf data =>
    refine pagesAgree_onTask agree (fun task consistent => ?_) called
    refine ensures_bind (P := fun after => after.2.mem.Consistent) ?_ fun after kept => ensures_ok kept
    rintro ⟨entry,task'⟩ loaded
    exact consistent_loadElf consistent loaded
  | handleVmfault addr =>
    cases called
    exact pagesAgree_handleVmfault agree tid addr

/-- For every sequence of calls, on tasks that begin without pages: as long as the calls complete, both page maps of
    each task have the same pages, at multiples of the page size. -/
theorem page_maps_agree {L L' : Layer ω} {calls : List (Word × MemCall)} {results : List MemResult}
    (fresh : ∀ tid task, L.tasks tid = some task → task.mem = TaskMemInfo.default)
    (completed : run memStep L calls = .ok (results,L')) (tid : Word) (task : Sel4Task) (there : L'.tasks tid = some task) :
    (∀ p, p ∈ task.mem.mappedPage ↔ p ∈ task.mem.pageData) ∧ ∀ p ∈ task.mem.mappedPage, p.toNat % 4096 = 0 := by
  have start : PagesAgree L := by
    intro tid task isTask
    rw [fresh tid task isTask]
    exact consistent_default
  have agree : PagesAgree L' := run_invariant (fun L call result L' => pagesAgree_memStep) start completed
  exact ⟨(agree tid task there).same,(agree tid task there).aligned⟩

def eachCall : List (Word × MemCall) :=
  [(1,.mapBlankPageSimple 0x1FFF),(1,.writeBytes 0xFFF [1,2]),(1,.sysBrk 0x70001000),(1,.sysMmap 0 1 0),
    (1,.sysMunmap 0x1000 1),(1,.loadElf []),(1,.handleVmfault 0x5123)]

/-- One call of each kind on a task without pages. -/
theorem page_maps_agree_each : ∃ results L' task, run memStep paging eachCall = .ok (results,L') ∧
    L'.tasks 1 = some task ∧ (∀ p, p ∈ task.mem.mappedPage ↔ p ∈ task.mem.pageData) ∧
    ∀ p ∈ task.mem.mappedPage, p.toNat % 4096 = 0 := by
  have fresh : ∀ tid task, paging.tasks tid = some task → task.mem = TaskMemInfo.default := by
    intro tid task there
    change (if tid = 1 then some (Sel4Task.new 1 5) else none) = some task at there
    split at there
    · cases there
      rfl
    · cases there
  have completed : run memStep paging eachCall = .ok (_,_) := rfl
  exact ⟨_,_,_,completed,rfl,page_maps_agree fresh completed 1 _ rfl⟩

end Sel4Linux.MemoryCalls
