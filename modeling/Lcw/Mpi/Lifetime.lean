/- digest: `free_device` leaves the put receive of its device behind. -/

import Lcw.Mpi.LedgerApi

set_option autoImplicit false
set_option relaxedAutoImplicit false

namespace Lcw.Mpi

open Interleave System

variable {cfg : Config} {s : (machine cfg).State} {d : Dev}

/-- Nothing names the resources of a device: its put buffer, the `request_t` of its put receive,
and its communicator. -/
structure Released (w : World) (d : Dev) : Prop where
  receives : ∀ h q, w.net.reqs h = some q → q.buffer = .putRbuf d → q.state = .consumed
  requests : ∀ p q, w.store.heap p = some q → q.op = .putSignal → q.device ≠ d
  entries : ∀ m e, e ∈ w.store.entries m ∨ e ∈ w.store.attached m → e.device ≠ d
  communicator : ∀ context, w.net.live ⟨d, context⟩ = false

/-- `alloc_device` has returned a device, `free_device` has deleted it, and no thread is left at
its put slot. -/
structure Freed (w : World) (d : Dev) : Prop where
  ready : w.devs.builder d = none
  born : w.net.phase d ≠ .unborn
  deleted : w.devs.table d = none
  idle : w.sync.owner (.put d) = none

/-- The put receive of a device is out, with its `request_t`. -/
structure LeftOver (w : World) (d : Dev) (h : Handle) (q : MpiRequest) : Prop where
  req : w.net.reqs h = some q
  live : q.state ≠ .consumed
  buffer : q.buffer = .putRbuf d
  heap : w.store.heap h.request = some h.request.posted
  op : h.request.posted.op = .putSignal
  device : h.request.posted.device = d

theorem LeftOver.receives {w : World} {h : Handle} {q : MpiRequest} (left : LeftOver w d h q)
    (released : Released w d) : False :=
  left.live (released.receives h q left.req left.buffer)

theorem LeftOver.requests {w : World} {h : Handle} {q : MpiRequest} (left : LeftOver w d h q)
    (released : Released w d) : False :=
  released.requests h.request _ left.heap left.op left.device

/-- While no thread works at the put slot of an allocated device, its put receive is out. -/
theorem Books.listens {P : PutRules cfg} {w : World} (h : Books P w)
    (ready : w.devs.builder d = none) (born : w.net.phase d ≠ .unborn)
    (idle : w.sync.owner (.put d) = none) :
    ∃ e x q, w.store.slot d = some e ∧ e.mpiReq = some x ∧ Loaded w d x q ∧
      w.store.heap x.request = some x.request.posted := by
  have armed : w.net.phase d = .armed := (h.slots.free d idle ready).resolve_left born
  obtain ⟨e, x, q, slot, handle, loaded, -, heap, -⟩ := (h.slots.listening d).armed armed
  exact ⟨e, x, q, slot, handle, loaded, heap⟩

/-- `free_device` neither cancels the put receive nor deletes its `request_t`, so both outlive
the device and the buffer. -/
theorem freed_not_released (h : Reach (fun _ _ => True) (start cfg) s)
    (freed : Freed s.shared d) :
    ¬ Released s.shared d ∧ ∃ x q, LeftOver s.shared d x q := by
  obtain ⟨books, -⟩ := ledgered_of_reach h
  obtain ⟨e, x, q, -, -, loaded, heap⟩ := books.listens freed.ready freed.born freed.idle
  have left : LeftOver s.shared d x q :=
    { req := loaded.req
      live := loaded.live
      buffer := (books.matching.req x q loaded.req).buffer.trans loaded.buffer
      heap := heap
      op := loaded.op
      device := loaded.own }
  exact ⟨left.receives, x, q, left⟩

section FirstDevice

/-- The client allocates and frees devices, and posts nothing. -/
def NothingPosted (_ : (machine cfg).State) : (machine cfg).Event → Prop
  | .intr _ (.call c) => c.isPost = false
  | _ => True

instance NothingPosted.decidable (s : (machine cfg).State) :
    (e : (machine cfg).Event) → Decidable (NothingPosted s e)
  | .intr _ (.call c) => instDecidableEqBool c.isPost false
  | .intr _ (.continuation ..) | .exec _ | .env _ => .isTrue trivial

/-- The first thread allocates a device and frees it. -/
def allocFree (cfg : Config) : List (machine cfg).Event :=
  .intr ⟨0, 0⟩ (.call (.allocDevice 4 (some 7))) :: steps cfg ⟨0, 0⟩ 10 ++
    .intr ⟨0, 0⟩ (.call (.freeDevice ⟨0, 0⟩)) :: steps cfg ⟨0, 0⟩ 3

private def oneDevice : Config := smallJob .request false 0

private def freedState : (machine oneDevice).State :=
  (run (start oneDevice) (allocFree oneDevice)).getD (start oneDevice)

private theorem run_allocFree : run (start oneDevice) (allocFree oneDevice) = some freedState := rfl

private theorem freed_allocFree : Freed freedState.shared ⟨0, 0⟩ :=
  ⟨rfl, by decide +kernel, rfl, rfl⟩

/-- A device has been freed. -/
theorem freed_not_released_first : ∃ s,
    Reach (fun _ _ => True) (start (smallJob .request false 0)) s ∧ Freed s.shared ⟨0, 0⟩ ∧
      ¬ Released s.shared ⟨0, 0⟩ := by
  have reached : Reach (fun _ _ => True) (start oneDevice) freedState :=
    reach_run run_allocFree (admitted_of_forall (fun _ _ => trivial) _ _)
  exact ⟨freedState, reached, freed_allocFree, (freed_not_released reached freed_allocFree).1⟩

/-- After the only device has been freed its receive is posted, its `request_t` is allocated, and
its communicator is in use. -/
theorem first_device_left : ∃ s, Reach NothingPosted (start (smallJob .request false 0)) s ∧
    Freed s.shared ⟨0, 0⟩ ∧ s.shared.net.live ⟨⟨0, 0⟩, 0⟩ = true ∧
      (∃ q, LeftOver s.shared ⟨0, 0⟩ firstPutRecv q) ∧ ¬ Released s.shared ⟨0, 0⟩ := by
  have admitted : System.Admitted NothingPosted (start oneDevice) (allocFree oneDevice) :=
    by decide +kernel
  have left : LeftOver freedState.shared ⟨0, 0⟩ firstPutRecv
      ⟨true, .putRbuf ⟨0, 0⟩, [0, 1, 2, 3], -2, 32767, .pending⟩ :=
    ⟨rfl, by simp, rfl, rfl, rfl, rfl⟩
  exact ⟨freedState, reach_run run_allocFree admitted, freed_allocFree, rfl, ⟨_, left⟩,
    left.receives⟩

end FirstDevice

end Lcw.Mpi
