/- digest: One put receive is out for every device, and its message waits whole in the buffer. -/

import Lcw.Mpi.Matching
import Lcw.Mpi.PutSlots

set_option autoImplicit false
set_option relaxedAutoImplicit false

namespace Lcw.Mpi

open Interleave
open Function (update)

variable {cfg : Config} {P : PutRules cfg} {G : Guard} {t : Tid} {w w' : World} {d : Dev}

section Carry

theorem Loaded.carry {x : Handle} {q : MpiRequest} (h : Loaded w d x q)
    (reqs : w'.net.reqs x = w.net.reqs x)
    (bytes : w'.memory.bytes (.putRbuf d) = w.memory.bytes (.putRbuf d))
    (comp : w'.devs.putComp d = w.devs.putComp d) : Loaded w' d x q where
  req := reqs.trans h.req
  live := h.live
  op := h.op
  device := h.device
  own := h.own
  buffer := h.buffer
  size := by rw [bytes]; exact h.size
  comp := by rw [comp]; exact h.comp
  stored := by rw [bytes]; exact h.stored

/-- Nothing about the put receive of a device changes. -/
theorem Listening.carry (h : Listening w d) (phase : w'.net.phase d = w.net.phase d)
    (slot : w'.store.slot d = w.store.slot d)
    (reqs : ∀ x, x.request.posted.op = .putSignal → x.comm.device = d →
      w'.net.reqs x = w.net.reqs x)
    (bytes : w.net.phase d ≠ .unborn →
      w'.memory.bytes (.putRbuf d) = w.memory.bytes (.putRbuf d))
    (comp : w.net.phase d ≠ .unborn → w'.devs.putComp d = w.devs.putComp d)
    (same : ∀ p, w.store.stage p = .armed d → SameAt w w' p) : Listening w' d where
  armed resting := by
    rw [phase] at resting
    have born : w.net.phase d ≠ .unborn := by simp [resting]
    obtain ⟨e, x, q, hs, he, loaded, stage, heap, result, permit⟩ := h.armed resting
    have at' := same x.request stage
    refine ⟨e, x, q, slot.trans hs, he, ?_, at'.stage.trans stage, at'.heap.trans heap,
      at'.result.trans result, at'.permit.trans permit⟩
    exact loaded.carry (reqs x loaded.op loaded.device) (bytes born) (comp born)
  reposted x out := by
    rw [phase] at out
    have born : w.net.phase d ≠ .unborn := by simp [out]
    obtain ⟨q, loaded⟩ := h.reposted x out
    exact ⟨q, loaded.carry (reqs x loaded.op loaded.device) (bytes born) (comp born)⟩
  out x q hq live op device := by
    rw [reqs x op device] at hq
    rw [phase, slot]
    exact h.out x q hq live op device

/-- A change to one operation leaves alone the put receives of the slots it is not in. -/
theorem Listening.touch (h : Listening w d) {p : RequestPtr} (touch : ∀ q, q ≠ p → SameAt w w' q)
    (away : w.store.stage p ≠ .armed d) (phase : w'.net.phase d = w.net.phase d)
    (slot : w'.store.slot d = w.store.slot d)
    (reqs : ∀ x, x.request.posted.op = .putSignal → x.comm.device = d →
      w'.net.reqs x = w.net.reqs x)
    (bytes : w'.memory.bytes (.putRbuf d) = w.memory.bytes (.putRbuf d))
    (comp : w'.devs.putComp d = w.devs.putComp d) : Listening w' d :=
  h.carry phase slot reqs (fun _ => bytes) (fun _ => comp) fun q hq => touch q fun e => by
    subst e
    exact away hq

/-- The request of a device's put receive is found by its slot or by its thread. -/
theorem Listening.none_live (h : Listening w d) (phase : ∀ x, w.net.phase d ≠ .reposted x)
    (away : w.net.phase d ≠ .armed) {x : Handle} {q : MpiRequest} (hq : w.net.reqs x = some q)
    (op : x.request.posted.op = .putSignal) (device : x.comm.device = d) :
    q.state = .consumed := by
  by_contra live
  rcases h.out x q hq live op device with out | ⟨resting, -⟩
  · exact phase x out
  · exact away resting

end Carry

section Phases

/-- `post_put_recv` ends: the slot holds the receive that was posted. -/
theorem Listening.writeSlot (h : Books P w) {e : Entry} (own : e.SlotOf d)
    (pre : ∃ s x, (account t w).slot d = some s ∧ s.phase = .reposted x ∧ e.mpiReq = some x ∧
      (account t w).token e.request = some ⟨.started, some e.request.posted, none, none⟩)
    (d' : Dev) : Listening (((w.setSlot d e).setPhase d .armed).setStage e.request (.armed d))
      d' := by
  have old := h.slots.listening d'
  obtain ⟨s, x, hs, phase, handle, token⟩ := pre
  obtain ⟨-, rfl⟩ := slotOf_eq_some.mp hs
  have phase : w.net.phase d = .reposted x := phase
  obtain ⟨stage, heap, result, permit⟩ := tokenOf_eq_some.mp token
  have same (q : RequestPtr) (hq : q ≠ e.request) : SameAt w
      (((w.setSlot d e).setPhase d .armed).setStage e.request (.armed d)) q :=
    ⟨Function.update_of_ne hq _ _, rfl, rfl, rfl⟩
  by_cases e' : d' = d
  · subst e'
    have request : x.request = e.request := (own.coherent.handle x handle).2
    obtain ⟨q, loaded⟩ := old.reposted x phase
    refine ⟨fun _ => ⟨e, x, q, ?_, handle, loaded.carry rfl rfl rfl, ?_, ?_, ?_, ?_⟩,
      fun y out => ?_, fun y r hr live op device => .inr ⟨?_, e, ?_, ?_⟩⟩
    · simp [World.setStage, World.setPhase, World.setSlot]
    · simp [World.setStage, request]
    · rw [request]
      exact heap
    · rw [request]
      exact result
    · rw [request]
      exact permit
    · simp [World.setStage, World.setPhase] at out
    · simp [World.setStage, World.setPhase]
    · simp [World.setStage, World.setPhase, World.setSlot]
    · rcases old.out y r hr live op device with out | ⟨resting, -⟩
      · rw [phase] at out
        rw [← Phase.reposted.inj out]
        exact handle
      · simp [phase] at resting
  · exact old.touch same (by simp [stage]) (Function.update_of_ne e' _ _)
      (Function.update_of_ne e' _ _) (fun _ _ _ => rfl) rfl rfl

/-- A thread clears the slot whose message it has taken. -/
theorem Listening.clearSlot (h : Listening w d) {d' : Dev} {e : Entry} {st : Status}
    (taken : w.net.phase d' = .taken st) : Listening (w.setSlot d' e) d := by
  by_cases e' : d = d'
  · subst e'
    refine ⟨fun resting => ?_, fun x out => ?_, fun x q hq live op device => ?_⟩
    · have resting : w.net.phase d = .armed := resting
      simp [taken] at resting
    · have out : w.net.phase d = .reposted x := out
      simp [taken] at out
    · exact absurd (h.none_live (by simp [taken]) (by simp [taken]) hq op device) live
  · exact h.carry rfl (Function.update_of_ne e' _ _) (fun _ _ _ => rfl) (fun _ => rfl)
      (fun _ => rfl) fun _ _ => ⟨rfl, rfl, rfl, rfl⟩

/-- The buffer has been copied out. -/
theorem Listening.memcpy (h : Listening w d) {d' : Dev} {k n : Nat} {st : Status}
    (taken : w.net.phase d' = .taken st) :
    Listening (w.memcpy (.heap k) (.putRbuf d') n) d := by
  by_cases e' : d = d'
  · subst e'
    have phase : (w.memcpy (.heap k) (.putRbuf d) n).net.phase d = .copied := by
      simp [World.memcpy, World.setPhase]
    refine ⟨fun resting => ?_, fun x out => ?_, fun x q hq live op device => ?_⟩
    · rw [phase] at resting
      cases resting
    · rw [phase] at out
      cases out
    · exact absurd (h.none_live (by simp [taken]) (by simp [taken]) hq op device) live
  · have bytes : (w.memcpy (.heap k) (.putRbuf d') n).memory.bytes (.putRbuf d) =
        w.memory.bytes (.putRbuf d) := by
      simp [World.memcpy, World.setPhase]
    exact h.carry (Function.update_of_ne e' _ _) rfl (fun _ _ _ => rfl) (fun _ => bytes)
      (fun _ => rfl) fun _ _ => ⟨rfl, rfl, rfl, rfl⟩

/-- MPI hands back the put receive of a slot, which no other receive replaces yet. -/
theorem Listening.taken (h : Books P w) {x : Handle} {q : MpiRequest} {st : Status}
    (may : (account t w).MayTest x) (op : x.request.posted.op = .putSignal) (d : Dev) :
    Listening ((((w.setReq x { q with state := .consumed }).setResult x.request st).setPhase
      x.comm.device (.taken st)).setStage x.request (.owned t .held)) d := by
  have old := h.slots.listening d
  obtain ⟨-, -, -, stage, -⟩ := h.slots.receive may op
  by_cases e' : d = x.comm.device
  · subst e'
    obtain ⟨s, e, hs, phase, entry, handle⟩ := may.slot op
    obtain ⟨-, rfl⟩ := slotOf_eq_some.mp hs
    have phase : w.net.phase x.comm.device = .armed := phase
    have entry : w.store.slot x.comm.device = some e := entry
    refine ⟨fun resting => ?_, fun y out => ?_, fun y r hr live op' device => ?_⟩
    · simp [World.setStage, World.setPhase] at resting
    · simp [World.setStage, World.setPhase] at out
    · rcases setReq_cases (w := w) hr with ⟨rfl, rfl⟩ | ⟨other, hr⟩
      · exact absurd rfl live
      · rcases old.out y r hr live op' device with out | ⟨-, e₂, entry₂, handle₂⟩
        · simp [phase] at out
        · obtain rfl : e = e₂ := Option.some.inj (entry.symm.trans entry₂)
          exact absurd (Option.some.inj (handle₂.symm.trans handle)) other
  · refine old.touch (p := x.request) (fun r hr => ⟨?_, rfl, ?_, rfl⟩) ?_ ?_ rfl ?_ rfl rfl
    · exact Function.update_of_ne hr _ _
    · exact Function.update_of_ne hr _ _
    · rw [stage]
      exact fun e => e' (Stage.armed.inj e).symm
    · exact Function.update_of_ne e' _ _
    · intro y _ device
      have other : y ≠ x := by
        rintro rfl
        exact e' device.symm
      exact Function.update_of_ne other _ _

/-- A put receive is started for a slot that has none. -/
theorem Listening.repost (h : Listening w d) {x : Handle} {q : MpiRequest}
    (phase : w'.net.phase = update w.net.phase x.comm.device (.reposted x))
    (reqs : w'.net.reqs = update w.net.reqs x (some q))
    (slot : w'.store.slot = w.store.slot) (memory : w'.memory = w.memory)
    (devs : w'.devs = w.devs) (others : ∀ r, r ≠ x.request → SameAt w w' r)
    (away : w.store.stage x.request ≠ .armed d)
    (idle : ∀ y, w.net.phase x.comm.device ≠ .reposted y)
    (resting : w.net.phase x.comm.device ≠ .armed) (loaded : Loaded w' x.comm.device x q) :
    Listening w' d := by
  by_cases e : d = x.comm.device
  · subst e
    refine ⟨fun armed => ?_, fun y out => ?_, fun y r hr live op device => .inl ?_⟩
    · rw [phase, Function.update_self] at armed
      cases armed
    · rw [phase, Function.update_self] at out
      obtain rfl := Phase.reposted.inj out
      exact ⟨q, loaded⟩
    · rw [reqs] at hr
      rw [phase, Function.update_self]
      by_cases same : y = x
      · rw [same]
      · rw [Function.update_of_ne same] at hr
        exact absurd (h.none_live idle resting hr op device) live
  · apply h.touch others away
    · rw [phase]
      exact Function.update_of_ne e _ _
    · rw [slot]
    · intro y _ device
      rw [reqs]
      apply Function.update_of_ne
      rintro rfl
      exact e device.symm
    · rw [memory]
    · rw [devs]

/-- `post_put_recv` posts the receive of a slot that has none. -/
theorem Listening.irecv (h : Books P w) {a : Buffer} {n : Int} {ty : Datatype} {source tag : Int}
    {comm : Comm} {p : RequestPtr} (may : (account t w).MayListen P a n ty source tag comm p)
    (d : Dev) : Listening (w.irecv cfg t a (Datatype.layout n ty) source tag comm p).2 d := by
  obtain ⟨x, token, kind, -⟩ := may.token
  have stage := (tokenOf_eq_some.mp token).1
  obtain ⟨s, hs, phase, size, comp⟩ := may.slot
  obtain ⟨-, rfl⟩ := slotOf_eq_some.mp hs
  have phase : w.net.phase comm.device = .unborn ∨ w.net.phase comm.device = .copied := by
    rw [may.device]
    exact phase
  let q : MpiRequest := ⟨true, a, Datatype.layout n ty, source, tag, .pending⟩
  have phases : (w.irecv cfg t a (Datatype.layout n ty) source tag comm p).2.net.phase =
      update w.net.phase comm.device (.reposted (w.freshHandle comm p)) := by
    simp [World.irecv, World.expect, may.op, World.start, may.peer, World.freshHandle,
      World.setPhase, World.setReq, World.setStage]
  have reqs : (w.irecv cfg t a (Datatype.layout n ty) source tag comm p).2.net.reqs =
      update w.net.reqs (w.freshHandle comm p) (some q) := by
    simp [q, World.irecv, World.expect, may.op, World.start, may.peer, World.freshHandle,
      World.setPhase, World.setReq, World.setStage]
  have memory : (w.irecv cfg t a (Datatype.layout n ty) source tag comm p).2.memory = w.memory := by
    rw [World.irecv_eq]
  have devs : (w.irecv cfg t a (Datatype.layout n ty) source tag comm p).2.devs = w.devs := by
    rw [World.irecv_eq]
  have slot : (w.irecv cfg t a (Datatype.layout n ty) source tag comm p).2.store.slot =
      w.store.slot := by
    rw [World.irecv_eq]
  have others (r : RequestPtr) (hr : r ≠ p) :
      SameAt w (w.irecv cfg t a (Datatype.layout n ty) source tag comm p).2 r :=
    sameAt_irecv hr
  generalize (w.irecv cfg t a (Datatype.layout n ty) source tag comm p).2 = v at *
  have listening := h.slots.listening d
  apply listening.repost phases reqs slot memory devs others
  · show w.store.stage p ≠ .armed d
    simp [stage]
  · intro y
    show w.net.phase comm.device ≠ .reposted y
    rcases phase with phase | phase <;> simp [phase]
  · show w.net.phase comm.device ≠ .armed
    rcases phase with phase | phase <;> simp [phase]
  · show Loaded v comm.device (w.freshHandle comm p) q
    have own : p.posted.device = comm.device := may.device.symm
    constructor
    · rw [reqs, Function.update_self]
    · simp [q]
    · exact may.op
    · exact rfl
    · exact own
    · rw [← own]
      exact may.own
    · rw [memory, ← own]
      exact size
    · rw [devs, ← own]
      exact comp
    · intro st done
      cases done

end Phases

section Messages

/-- Only the put receive of a device is posted into its buffer. -/
theorem Books.buffer_owner (h : Books P w) {x : Handle} {q : MpiRequest}
    (hq : w.net.reqs x = some q) (live : q.state ≠ .consumed) (buffer : q.buffer = .putRbuf d) :
    x.request.posted.op = .putSignal ∧ x.comm.device = d := by
  have ok := h.matching.req x q hq
  rw [ok.buffer] at buffer
  by_cases op : x.request.posted.op = .putSignal
  · refine ⟨op, ?_⟩
    have loaded : ∃ r, Loaded w x.comm.device x r := by
      have listening := h.slots.listening x.comm.device
      rcases listening.out x q hq live op rfl with phase | ⟨phase, e, slot, handle⟩
      · exact listening.reposted x phase
      · obtain ⟨e', x', r, slot', handle', loaded, -⟩ := listening.armed phase
        obtain rfl : e = e' := Option.some.inj (slot.symm.trans slot')
        obtain rfl : x = x' := Option.some.inj (handle.symm.trans handle')
        exact ⟨r, loaded⟩
    obtain ⟨r, loaded⟩ := loaded
    exact Buffer.putRbuf.inj (loaded.buffer.symm.trans buffer)
  · have born : w.store.stage x.request ≠ .unborn := by
      intro e
      have begun := ok.begun
      simp [e, Stage.begun] at begun
    have accessible := h.calls.buffer x.request op born
    rw [buffer] at accessible
    simp [World.accessible] at accessible

/-- A message that fits is in the buffer whole. -/
theorem Loaded.deliver (matching : Matching P w) {x : Handle} {q : MpiRequest} {i : Nat}
    {m : Message} (h : Loaded w d x q) : Loaded (w.deliver i m x q) d x { q with
      state := .complete ⟨m.src, m.tag, some m, q.layout.length < m.payload.length⟩ } := by
  have ok := matching.req x q h.req
  have layout := ok.layout (ok.recv.mpr (.inr h.op))
  have buffer : q.buffer = .putRbuf d := ok.buffer.trans h.buffer
  have bytes : (w.deliver i m x q).memory.bytes (.putRbuf d) =
      scatter (w.memory.bytes (.putRbuf d)) q.layout m.payload := by
    simp [World.deliver, World.setReq, buffer]
  refine ⟨by simp [World.deliver, World.setReq], by simp, h.op, h.device, h.own, h.buffer, ?_,
    h.comp, fun st done whole => ?_⟩
  · rw [bytes, length_scatter]
    exact h.size
  · obtain rfl := ReqState.complete.inj done
    have fits : m.payload.length ≤ toSize x.request.posted.length := by
      have room : ¬ q.layout.length < m.payload.length := by simpa using whole
      rw [layout, length_consecutive] at room
      omega
    refine ⟨m, rfl, ?_, ?_⟩
    · rw [bytes, length_scatter, ← h.size]
      exact fits
    · rw [bytes, layout]
      exact take_scatter fits (le_of_eq h.size)

theorem Listening.deliver (h : Books P w) {x : Handle} {q : MpiRequest} {i : Nat} {m : Message}
    (hq : w.net.reqs x = some q) (pending : q.state = .pending) (d : Dev) :
    Listening (w.deliver i m x q) d := by
  have old := h.slots.listening d
  have live : q.state ≠ .consumed := by simp [pending]
  by_cases mine : x.request.posted.op = .putSignal ∧ x.comm.device = d
  · obtain ⟨op, device⟩ := mine
    have only : w.net.phase d = .reposted x ∨ w.net.phase d = .armed ∧
        ∃ e, w.store.slot d = some e ∧ e.mpiReq = some x := old.out x q hq live op device
    refine ⟨fun resting => ?_, fun y out => ?_, fun y r hr live' op' device' => ?_⟩
    · have resting : w.net.phase d = .armed := resting
      obtain ⟨e, x', r, slot, handle, loaded, rest⟩ := old.armed resting
      have same : x' = x := by
        rcases only with out | ⟨-, e₂, slot₂, handle₂⟩
        · simp [resting] at out
        · obtain rfl : e = e₂ := Option.some.inj (slot.symm.trans slot₂)
          exact Option.some.inj (handle.symm.trans handle₂)
      subst same
      obtain rfl : q = r := Option.some.inj (hq.symm.trans loaded.req)
      exact ⟨e, x', _, slot, handle, loaded.deliver h.matching, rest⟩
    · have out : w.net.phase d = .reposted y := out
      have same : y = x := by
        rcases only with out' | ⟨resting, -⟩
        · exact Phase.reposted.inj (out.symm.trans out')
        · simp [resting] at out
      subst same
      obtain ⟨r, loaded⟩ := old.reposted y out
      obtain rfl : q = r := Option.some.inj (hq.symm.trans loaded.req)
      exact ⟨_, loaded.deliver h.matching⟩
    · rcases setReq_cases (w := w) hr with ⟨rfl, rfl⟩ | ⟨-, hr⟩
      · exact only
      · exact old.out y r hr live' op' device'
  · refine old.carry rfl rfl (fun y op device => ?_) (fun _ => ?_) (fun _ => rfl)
      fun _ _ => ⟨rfl, rfl, rfl, rfl⟩
    · refine Function.update_of_ne ?_ _ _
      rintro rfl
      exact mine ⟨op, device⟩
    · refine Function.update_of_ne (fun e => mine ?_) _ _
      exact h.buffer_owner hq live e.symm

end Messages

section Steps

/-- A user operation is started on a fresh handle. -/
theorem Listening.start (h : Listening w d) {x : Handle} {q : MpiRequest} {p : RequestPtr}
    (own : x.request = p) (user : p.posted.op ≠ .putSignal)
    (reqs : w'.net.reqs = w.net.reqs ∨ w'.net.reqs = update w.net.reqs x (some q))
    (phase : w'.net.phase = w.net.phase) (slot : w'.store.slot = w.store.slot)
    (memory : w'.memory = w.memory) (devs : w'.devs = w.devs)
    (others : ∀ r, r ≠ p → SameAt w w' r) (away : w.store.stage p ≠ .armed d) :
    Listening w' d := by
  apply h.touch others away
  · rw [phase]
  · rw [slot]
  · intro y op _
    rcases reqs with reqs | reqs
    · rw [reqs]
    · rw [reqs]
      apply Function.update_of_ne
      rintro rfl
      exact user (own ▸ op)
  · rw [memory]
  · rw [devs]

theorem reqs_start {null : Bool} {comm : Comm} {p : RequestPtr} {q : MpiRequest} :
    (w.start cfg t null comm p q).2.net.reqs = w.net.reqs ∨
      (w.start cfg t null comm p q).2.net.reqs =
        update w.net.reqs (w.freshHandle comm p) (some q) := by
  unfold World.start
  cases null
  · exact .inr rfl
  · exact .inl rfl

theorem phase_start {null : Bool} {comm : Comm} {p : RequestPtr} {q : MpiRequest} :
    (w.start cfg t null comm p q).2.net.phase = w.net.phase := by
  unfold World.start
  cases null <;> rfl

theorem Listening.isend (h : Listening w d) {a : Buffer} {l : List Int} {dest tag : Int}
    {comm : Comm} {p : RequestPtr} (user : p.posted.op ≠ .putSignal)
    (away : w.store.stage p ≠ .armed d) :
    Listening (w.isend cfg t a l dest tag comm p).2 d := by
  have sent : Listening (w.enqueue (w.message t a l dest tag comm p)) d :=
    h.carry rfl rfl (fun _ _ _ => rfl) (fun _ => rfl) (fun _ => rfl) fun _ _ =>
      ⟨rfl, rfl, rfl, rfl⟩
  unfold World.isend
  refine sent.start (x := w.freshHandle comm p) rfl user reqs_start phase_start ?_ ?_ ?_
    (fun r hr => sameAt_start hr) away
  · rw [World.start_eq]
  · rw [World.start_eq]
  · rw [World.start_eq]

theorem Listening.recv (h : Listening w d) {a : Buffer} {l : List Int} {source tag : Int}
    {comm : Comm} {p : RequestPtr} (user : p.posted.op ≠ .putSignal)
    (away : w.store.stage p ≠ .armed d) :
    Listening (w.irecv cfg t a l source tag comm p).2 d := by
  have same : w.expect comm p = w := if_neg user
  unfold World.irecv
  rw [same]
  refine h.start (x := w.freshHandle comm p) rfl user reqs_start phase_start ?_ ?_ ?_
    (fun r hr => sameAt_start hr) away
  · rw [World.start_eq]
  · rw [World.start_eq]
  · rw [World.start_eq]

/-- An operation that a thread owns is in no slot. -/
theorem Token.away {p : RequestPtr} {x : Token} (h : (account t w).token p = some x) (d : Dev) :
    w.store.stage p ≠ .armed d := by
  rw [(tokenOf_eq_some.mp h).1]
  intro e
  cases e

theorem Listening.exec (h : Books P w) (coh : Coherence cfg G w) {o : Op} {r : o.Ret}
    (locks : structurePre cfg G t o (stance t w)) (pre : ledgerPre P t o (account t w))
    (hx : exec cfg t o w = some (r, w')) (d : Dev) : Listening w' d := by
  have listening := h.slots.listening d
  have locks := locks.2
  have pre := pre.2
  cases o with
  | fetchSubPending p =>
    cases hx
    obtain ⟨-, x, token, -⟩ := pre
    exact listening.touch (fun _ hq => sameAt_fetchSub hq) (Token.away token d) rfl rfl
      (fun _ _ _ => rfl) rfl rfl
  | newRequest q c =>
    cases hx
    have unborn := h.filed.fresh q c
    apply listening.touch (fun _ hq => sameAt_newRequest hq)
    · rw [unborn]
      intro e
      cases e
    all_goals rw [World.newRequest_eq]
    exact fun _ _ _ => rfl
  | writeRequest p q =>
    obtain ⟨_, -, e⟩ := Option.map_eq_some_iff.mp hx
    cases e
    obtain ⟨x, token, -⟩ := pre
    exact listening.touch (fun _ hq => sameAt_setHeap hq) (Token.away token d) rfl rfl
      (fun _ _ _ => rfl) rfl rfl
  | deleteRequest p =>
    obtain ⟨_, -, e⟩ := Option.map_eq_some_iff.mp hx
    cases e
    obtain ⟨x, token, -⟩ := pre
    exact listening.touch (fun _ hq => sameAt_delete hq) (Token.away token d) rfl rfl
      (fun _ _ _ => rfl) rfl rfl
  | pushBack m e =>
    cases hx
    obtain ⟨x, token, -⟩ := pre.token
    rw [World.pushBack_eq]
    exact listening.touch (fun _ hq => ⟨Function.update_of_ne hq _ _, rfl, rfl, rfl⟩)
      (Token.away token d) rfl rfl (fun _ _ _ => rfl) rfl rfl
  | «continue» m e f =>
    cases hx
    obtain ⟨x, token, -⟩ := pre.2.token
    rw [World.attach_eq]
    exact listening.touch (fun _ hq => ⟨Function.update_of_ne hq _ _, rfl, rfl, rfl⟩)
      (Token.away token d) rfl rfl (fun _ _ _ => rfl) rfl rfl
  | popFront m =>
    obtain ⟨rest, front, rfl⟩ := exec_popFront hx
    have queued := h.filed.queued_of_mem (front ▸ List.mem_cons_self)
    apply listening.touch (fun _ hq => sameAt_popFront hq) ?_ rfl rfl (fun _ _ _ => rfl) rfl rfl
    rw [queued]
    intro e
    cases e
  | writeSlot d' e =>
    cases hx
    exact Listening.writeSlot h locks pre d
  | clearSlot d' =>
    obtain ⟨_, -, e⟩ := Option.map_eq_some_iff.mp hx
    cases e
    obtain ⟨s, st, hs, taken⟩ := pre
    obtain ⟨-, rfl⟩ := slotOf_eq_some.mp hs
    exact listening.clearSlot taken
  | isend a n ty dest tag comm p =>
    rcases exec_isend hx with ⟨-, rfl⟩ | ⟨-, -, rfl⟩
    · exact listening
    · obtain ⟨x, token, -⟩ := pre.token
      apply listening.isend _ (Token.away token d)
      rcases pre.op with op | op <;> simp [op]
  | irecv a n ty source tag comm p =>
    rcases exec_irecv hx with ⟨-, rfl, -⟩ | ⟨-, rfl⟩
    · exact listening
    · rcases pre with may | may
      · obtain ⟨x, token, -⟩ := may.token
        exact listening.recv (by simp [may.op]) (Token.away token d)
      · exact Listening.irecv h may d
  | test x =>
    cases x with
    | none =>
      cases hx
      exact listening
    | some x =>
      cases exec_test hx with
      | notYet => exact listening
      | failed dead => exact listening
      | taken q st hq done ok op => exact Listening.taken h pre op d
      | done q st hq done ok op =>
        obtain ⟨y, token, -⟩ := pre.held op
        refine listening.touch (p := x.request) (fun r hr => ⟨rfl, rfl, ?_, rfl⟩)
          (Token.away token d) rfl rfl (fun z op' _ => ?_) rfl rfl
        · exact Function.update_of_ne hr _ _
        · apply Function.update_of_ne
          rintro rfl
          exact op op'
  | memcpy dst src n =>
    cases hx
    obtain ⟨d', k, s, st, rfl, rfl, hs, taken, -⟩ := pre
    obtain ⟨-, rfl⟩ := slotOf_eq_some.mp hs
    exact listening.memcpy taken
  | signal c q p =>
    cases hx
    obtain ⟨st, token, -⟩ := pre.token
    apply listening.touch (fun _ hq => sameAt_signal hq) (Token.away token d)
    all_goals rw [World.signal_eq]
    · exact fun _ _ _ => rfl
    · rw [bytes_giveBlock]
  | newDevice =>
    cases hx
    refine listening.carry rfl rfl (fun _ _ _ => rfl) (fun _ => rfl) (fun born => ?_)
      fun _ _ => ⟨rfl, rfl, rfl, rfl⟩
    apply Function.update_of_ne
    rintro rfl
    exact born (h.slots.fresh _ le_rfl).1
  | initDevice d' dev =>
    cases hx
    obtain ⟨s, hs, unborn, -⟩ := pre
    obtain ⟨-, rfl⟩ := slotOf_eq_some.mp hs
    refine listening.carry rfl rfl (fun _ _ _ => rfl) (fun born => ?_) (fun _ => rfl)
      fun _ _ => ⟨rfl, rfl, rfl, rfl⟩
    apply Function.update_of_ne
    intro e
    obtain rfl := Buffer.putRbuf.inj e
    exact born unborn
  | allocate n =>
    simp only [Lcw.Mpi.exec] at hx
    split at hx <;> cases hx
    · exact listening.carry rfl rfl (fun _ _ _ => rfl) (fun _ => rfl) (fun _ => rfl) fun _ _ =>
        ⟨rfl, rfl, rfl, rfl⟩
    · exact listening
  | cqPop c =>
    rcases exec_cqPop hx with ⟨-, rfl⟩ | ⟨x, rest, front, -, rfl⟩
    · exact listening
    · exact listening.carry rfl rfl (fun _ _ _ => rfl) (fun _ => rfl) (fun _ => rfl) fun _ _ =>
        ⟨rfl, rfl, rfl, rfl⟩
  | loadPending | fetchAddPending | commCreate d' | commFree comm | fetchAddNdevices
  | deleteDevice d' =>
    cases hx
    exact listening.carry rfl rfl (fun _ _ _ => rfl) (fun _ => rfl) (fun _ => rfl) fun _ _ =>
      ⟨rfl, rfl, rfl, rfl⟩
  | endCall x =>
    cases hx
    refine listening.carry rfl rfl (fun _ _ _ => rfl) (fun _ => rfl) (fun _ => ?_) fun _ _ =>
      ⟨rfl, rfl, rfl, rfl⟩
    cases x <;> rfl
  | _ =>
    have frame := exec_frame hx
    have store := frame.store rfl
    have net := frame.net rfl
    have pend := frame.pend rfl
    refine listening.carry (by rw [net]) (by rw [store]) (fun _ _ _ => by rw [net])
      (fun _ => by rw [frame.memory rfl]) (fun _ => by rw [frame.devs rfl]) fun p _ => ?_
    exact ⟨by rw [store], by rw [store], by rw [net], by rw [pend]⟩

end Steps

end Lcw.Mpi
