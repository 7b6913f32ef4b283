import Sel4Linux.ClientHeap
import Sel4Linux.ServiceHeap
import Sel4Linux.System

/-!
The client and the file service with their heaps. Beside an operation of the
client stands what it takes from the client's heap, and what the service's rounds
behind its messages take from the service's (`heapPerform`); between operations
the rest of the client's program takes what it needs. Once both sides have made
their tables nothing is taken for making them again (`Made`).
-/
namespace Sel4Linux.SystemHeaps
open Sel4Linux.Bytes Sel4Linux.Ipc Sel4Linux.Ext4 Sel4Linux.Service Sel4Linux.ServiceLoop Sel4Linux.Client Sel4Linux.Requests
open Sel4Linux.System Sel4Linux.HeapUse Sel4Linux.ClientHeap Sel4Linux.ServiceHeap Sel4Linux.Metered Sel4Linux.Runs
set_option linter.unusedSimpArgs false

structure Heaps where
  client : LclHeap
  service : FsHeap

/-- Both programs have just started. -/
def Heaps.unused : Heaps := { client := .unused _ _, service := .unused _ _ }

variable {σ φ : Type} (X : Externs σ φ) (D : Drain σ φ) (E : Elsewhere Op)

/-- The service's rounds on some messages. -/
def serviceUses : Server σ φ → List Message → FsHeap → Except Fault FsHeap
  | _,[],h => .ok h
  | w,message :: rest,h => do
    let h ← roundUses X D w.service (received message w.ib) h
    let (w,_) ← serverKernel X w message
    serviceUses w rest h

/-- The messages that a client has sent on the way from one state to another. -/
def sentSince {ω : Type} (s t : Lcl ω) : List Message := t.sent.drop s.sent.length

/-- An operation of the client. -/
def performUses (s : Lcl (Server σ φ)) (op : Op) (_ : OpResult) (t : Lcl (Server σ φ)) (h : Heaps) : Except Fault Heaps := do
  let client ← opUses s t op h.client
  let service ← serviceUses X D s.world (sentSince s t) h.service
  .ok { client := client.elsewhere E op, service := service }

/-- An operation, with the heaps. -/
def heapPerform : Lcl (Server σ φ) × Heaps → Op → Except Fault (OpResult × (Lcl (Server σ φ) × Heaps)) :=
  metered (Lcl.perform (serverKernel X)) (performUses X D E)

variable {X D E} {s t : Lcl (Server σ φ)} {h k : Heaps} {op : Op} {out : OpResult}

theorem heapPerform_ok_iff : heapPerform X D E (s,h) op = .ok (out,(t,k)) ↔
    s.perform (serverKernel X) op = .ok (out,t) ∧ performUses X D E s op out t h = .ok k := by
  unfold heapPerform
  exact metered_ok_iff

theorem performUses_ok_iff : performUses X D E s op out t h = .ok k ↔
    (∃ u, opUses s t op h.client = .ok u ∧ u.elsewhere E op = k.client) ∧
      serviceUses X D s.world (sentSince s t) h.service = .ok k.service := by
  obtain ⟨client,service⟩ := k
  simp only [performUses,bind_ok_iff,Except.ok.injEq,Heaps.mk.injEq]
  constructor
  · rintro ⟨u,first,_,second,last,rfl⟩
    exact ⟨⟨u,first,last⟩,second⟩
  · rintro ⟨⟨u,first,last⟩,second⟩
    exact ⟨u,first,_,second,last,rfl⟩

/-! ## Tables that have been made -/

theorem serviceUses_capacity {w : Server σ φ} {messages : List Message} {h k : FsHeap}
    (used : serviceUses X D w messages h = .ok k) : h.capacity ≤ k.capacity := by
  induction messages generalizing w h with
  | nil =>
    cases used
    exact Nat.le_refl _
  | cons message rest ih =>
    obtain ⟨u,first,later⟩ := bind_ok_iff.mp used
    obtain ⟨⟨w',_⟩,_,later⟩ := bind_ok_iff.mp later
    exact Nat.le_trans (roundUses_capacity first) (ih later)

theorem opUses_made {ω : Type} {s t : Lcl ω} {op : Op} {h k : LclHeap} (used : opUses s t op h = .ok k) : k.capacity ≠ 0 := by
  obtain ⟨u,forced,reply⟩ := bind_ok_iff.mp used
  have made := (force_capacity forced).2
  have more := replyUses_capacity reply
  omega

/-- `FS_CLIENT` and `FS_SERVICE` are there. -/
structure Made (h : Heaps) : Prop where
  client : h.client.capacity ≠ 0
  service : h.service.capacity ≠ 0

theorem performUses_made (used : performUses X D E s op out t h = .ok k) : k.client.capacity ≠ 0 := by
  obtain ⟨⟨u,ours,last⟩,_⟩ := performUses_ok_iff.mp used
  rw [← last,elsewhere_capacity]
  exact opUses_made ours

/-- They stay. -/
theorem Made.kept (made : Made h) (used : performUses X D E s op out t h = .ok k) : Made k := by
  have more := serviceUses_capacity (performUses_ok_iff.mp used).2
  have there := made.service
  exact ⟨performUses_made used,by omega⟩

/-- An operation that sends sends one message. -/
theorem sends_sentSince {remote : Word} (sends : Sends s remote op) (ran : s.perform (serverKernel X) op = .ok (out,t)) :
    sentSince s t = [messageOf s.ib remote op] := by
  rw [perform_sends sends,bind_ok_iff] at ran
  obtain ⟨⟨w,m⟩,_,done⟩ := ran
  obtain ⟨_,_,sent,_⟩ := perform_finished sends done
  rw [sentSince,sent,List.drop_left]

/-- The service's part of an operation that sends. -/
theorem serviceUses_sends {remote : Word} (sends : Sends s remote op) (ran : s.perform (serverKernel X) op = .ok (out,t))
    {h : FsHeap} : serviceUses X D s.world (sentSince s t) h =
      roundUses X D s.world.service (received (messageOf s.ib remote op) s.world.ib) h := by
  have ran' := ran
  rw [perform_sends sends,bind_ok_iff] at ran'
  obtain ⟨⟨w,m⟩,answered,_⟩ := ran'
  rw [sends_sentSince sends ran,serviceUses]
  simp only [serviceUses,answered,ok_bind]
  exact bind_pure _

/-- An operation that a handler is called for has both made. -/
theorem sends_made {remote : Word} (sends : Sends s remote op) (noWrite : ∀ fd data, op ≠ .write fd data)
    (named : invocation remote op ≠ none) (ran : s.perform (serverKernel X) op = .ok (out,t))
    (used : performUses X D E s op out t h = .ok k) : Made k := by
  have theirs := (performUses_ok_iff.mp used).2
  obtain ⟨inv,isInv⟩ := Option.ne_none_iff_exists'.mp named
  rw [serviceUses_sends sends ran] at theirs
  have read := dispatch_messageOf sends noWrite s.ib s.world.ib
  rw [isInv] at read
  exact ⟨performUses_made used,roundUses_made read theirs⟩

end Sel4Linux.SystemHeaps
