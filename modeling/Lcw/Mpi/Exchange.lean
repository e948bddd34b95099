/- digest: Every message is received once, by a receive it suits, and reported as it was sent. -/

import Lcw.Mpi.Sizes
import Lcw.Mpi.Tracking

set_option autoImplicit false
set_option relaxedAutoImplicit false

namespace Lcw.Mpi

open Interleave System
open Function (update)

variable {cfg : Config} {P : PutRules cfg} {t : Tid} {w w' : World}

/-- The status of a receive that is done, also after MPI has handed it back. -/
def World.got (w : World) (h : Handle) : Option Status :=
  match w.net.reqs h with
  | none => none
  | some q => bif q.isRecv then
      match q.state with
      | .pending => none
      | .complete st => some st
      | .consumed => w.net.result h.request
    else none

variable (cfg) in
/-- A message goes with the receive that got it, and with what the receive reports. -/
structure Suits (h : Handle) (st : Status) (m : Message) : Prop where
  ok : m.Ok (.free cfg)
  message : st.message = some m
  source : st.source = m.src
  tag : st.tag = m.tag
  error : st.error = true ↔ toSize h.request.posted.length < m.payload.length
  receive : h.request.posted.op = .recv ∨ h.request.posted.op = .putSignal
  dst : m.dst = h.request.posted.device.rank
  context : m.context = h.comm.context
  sameTag : m.tag = toInt h.request.posted.tag
  peer : h.request.posted.op = .recv →
    toInt h.request.posted.rank = cfg.anySource ∨ toInt h.request.posted.rank = m.src

variable (cfg) in
/-- The receive a message went to is the one that reports it. -/
structure Routed (w : World) : Prop where
  matched : ∀ p h, w.net.route p = .matched h →
    ∃ st m, w.got h = some st ∧ st.message = some m ∧ m.request = p
  got : ∀ h st, w.got h = some st →
    ∃ m, Suits cfg h st m ∧ w.net.route m.request = .matched h

section Got

theorem got_congr {h : Handle} (reqs : w'.net.reqs h = w.net.reqs h)
    (result : w.net.reqs h ≠ none → w'.net.result h.request = w.net.result h.request) :
    w'.got h = w.got h := by
  unfold World.got
  rw [reqs]
  cases hq : w.net.reqs h with
  | none => rfl
  | some q => simp only [result (by simp [hq])]

theorem got_of_net (net : w'.net = w.net) : w'.got = w.got := by
  unfold World.got
  rw [net]

/-- An operation that is started has got nothing. -/
theorem got_start {null : Bool} {comm : Comm} {p : RequestPtr} {q : MpiRequest}
    (fresh : w.net.reqs (w.freshHandle comm p) = none)
    (first : ∀ x, w.net.reqs x ≠ none → x.request ≠ p) (pending : q.state = .pending) :
    (w.start cfg t null comm p q).2.got = w.got := by
  funext h
  unfold World.start
  cases null with
  | true => exact got_congr rfl fun old => Function.update_of_ne (first h old) _ _
  | false =>
    by_cases e : h = w.freshHandle comm p
    · subst e
      have none : w.got (w.freshHandle comm p) = none := by
        unfold World.got
        rw [fresh]
      rw [none]
      simp [World.got, World.setReq, World.setStage, World.freshHandle, pending]
    · exact got_congr (Function.update_of_ne e _ _) fun _ => rfl

/-- A request that MPI hands back leaves its status. -/
theorem Tracked.got_consume (k : Tracked P w) {x : Handle} {q : MpiRequest} {st : Status}
    (hq : w.net.reqs x = some q) (done : q.state = .complete st) :
    ((w.setReq x { q with state := .consumed }).setResult x.request st).got = w.got := by
  funext h
  by_cases e : h = x
  · subst e
    simp [World.got, World.setReq, World.setResult, hq, done]
  · refine got_congr (Function.update_of_ne e _ _) fun old => Function.update_of_ne ?_ _ _
    exact fun same => e (k.own h x old (by simp [hq]) same)

theorem got_sendDone {x : Handle} {q : MpiRequest} (hq : w.net.reqs x = some q)
    (send : q.isRecv = false) : (w.sendDone cfg x q).got = w.got := by
  funext h
  by_cases e : h = x
  · subst e
    simp [World.got, World.setReq, World.sendDone, hq, send]
  · exact got_congr (Function.update_of_ne e _ _) fun _ => rfl

theorem got_deliver {i : Nat} {m : Message} {x : Handle} {q : MpiRequest}
    (recv : q.isRecv = true) : (w.deliver i m x q).got =
      update w.got x (some ⟨m.src, m.tag, some m, q.layout.length < m.payload.length⟩) := by
  funext h
  by_cases e : h = x
  · subst e
    simp [World.got, World.setReq, World.deliver, recv]
  · rw [Function.update_of_ne e]
    exact got_congr (Function.update_of_ne e _ _) fun _ => rfl

end Got

section Steps

/-- No request has been made for an operation that is not started. -/
theorem Matching.unstarted (h : Matching P w) {p : RequestPtr}
    (unbegun : (w.store.stage p).begun = false) (x : Handle) (hx : w.net.reqs x ≠ none) :
    x.request ≠ p := by
  rintro rfl
  obtain ⟨q, hq⟩ := Option.ne_none_iff_exists'.mp hx
  have begun := (h.req x q hq).begun
  simp [unbegun] at begun

theorem Account.MayStart.unbegun {a : Buffer} {n : Int} {ty : Datatype} {tag : Int} {comm : Comm}
    {p : RequestPtr} (may : (account t w).MayStart a n ty tag comm p) :
    (w.store.stage p).begun = false := by
  obtain ⟨x, hx, kind, -⟩ := may.token
  rw [(tokenOf_eq_some.mp hx).1, kind]
  rfl

variable (w) in
theorem expect_net (comm : Comm) (p : RequestPtr) :
    (w.expect comm p).net.reqs = w.net.reqs ∧ (w.expect comm p).net.result = w.net.result ∧
      (w.expect comm p).net.route = w.net.route ∧
        (w.expect comm p).net.inflight = w.net.inflight := by
  unfold World.expect
  split <;> exact ⟨rfl, rfl, rfl, rfl⟩

variable (w) in
theorem memcpy_net (dst src : Buffer) (n : Nat) :
    (w.memcpy dst src n).net.reqs = w.net.reqs ∧ (w.memcpy dst src n).net.result = w.net.result ∧
      (w.memcpy dst src n).net.route = w.net.route ∧
        (w.memcpy dst src n).net.inflight = w.net.inflight := by
  unfold World.memcpy
  split <;> exact ⟨rfl, rfl, rfl, rfl⟩

variable (cfg t w) in
theorem start_net (null : Bool) (comm : Comm) (p : RequestPtr) (q : MpiRequest) :
    (w.start cfg t null comm p q).2.net.route = w.net.route ∧
      (w.start cfg t null comm p q).2.net.inflight = w.net.inflight := by
  unfold World.start
  cases null <;> exact ⟨rfl, rfl⟩

/-- Threads do not change what receives have got. -/
theorem exec_got (h : Books P w) (k : Tracked P w) {o : Op} {r : o.Ret}
    (pre : ledgerPre P t o (account t w)) (hx : exec cfg t o w = some (r, w')) :
    w'.got = w.got := by
  cases o with
  | isend a n ty dest tag comm p =>
    rcases exec_isend hx with ⟨-, rfl⟩ | ⟨-, -, rfl⟩
    · rfl
    · let m := w.message t a (Datatype.layout n ty) dest tag comm p
      exact got_start (w := w.enqueue m) (h.matching.fresh comm p)
        (h.matching.unstarted pre.2.unbegun) rfl
  | irecv a n ty source tag comm p =>
    rcases exec_irecv hx with ⟨-, rfl, -⟩ | ⟨-, rfl⟩
    · rfl
    · have unbegun : (w.store.stage p).begun = false := by
        rcases pre.2 with may | may
        · exact may.unbegun
        · exact may.unbegun
      obtain ⟨reqs, result, -⟩ := expect_net w comm p
      have expected : (w.expect comm p).got = w.got :=
        funext fun x => got_congr (congrFun reqs x) fun _ => congrFun result _
      refine (got_start ?_ ?_ rfl).trans expected
      · unfold World.expect
        split <;> exact h.matching.fresh comm p
      · rw [reqs]
        exact h.matching.unstarted unbegun
  | test x =>
    cases x with
    | none =>
      cases hx
      rfl
    | some x =>
      cases exec_test hx with
      | notYet => rfl
      | failed dead => rfl
      | taken q st hq done ok op => exact (k.got_consume hq done :)
      | done q st hq done ok op => exact k.got_consume hq done
  | memcpy dst src n =>
    cases hx
    obtain ⟨reqs, result, -⟩ := memcpy_net w dst src n
    exact funext fun x => got_congr (congrFun reqs x) fun _ => congrFun result _
  | writeSlot d e | commCreate d | commFree comm =>
    cases hx
    rfl
  | _ => exact got_of_net ((exec_frame hx).net rfl)

/-- Threads send messages, and take none back. -/
theorem exec_sends {o : Op} {r : o.Ret} (hx : exec cfg t o w = some (r, w')) :
    (w'.net.route = w.net.route ∧ w'.net.inflight = w.net.inflight) ∨
      ∃ a n ty dest tag comm p, o = .isend a n ty dest tag comm p ∧
        w'.net.route = update w.net.route p .flying ∧ w'.net.inflight = w.net.inflight ++
          [w.message t a (Datatype.layout n ty) dest tag comm p] := by
  cases o with
  | isend a n ty dest tag comm p =>
    rcases exec_isend hx with ⟨-, rfl⟩ | ⟨-, -, rfl⟩
    · exact .inl ⟨rfl, rfl⟩
    · obtain ⟨route, inflight⟩ := start_net cfg t
        (w.enqueue (w.message t a (Datatype.layout n ty) dest tag comm p))
        (cfg.nullHandle w.net.nextHandle) comm p
        ⟨false, a, Datatype.layout n ty, dest, tag, .pending⟩
      exact .inr ⟨a, n, ty, dest, tag, comm, p, rfl, route, inflight⟩
  | irecv a n ty source tag comm p =>
    rcases exec_irecv hx with ⟨-, rfl, -⟩ | ⟨-, rfl⟩
    · exact .inl ⟨rfl, rfl⟩
    · obtain ⟨route, inflight⟩ := start_net cfg t (w.expect comm p)
        (cfg.nullHandle w.net.nextHandle && source != cfg.anySource) comm p
        ⟨true, a, Datatype.layout n ty, source, tag, .pending⟩
      obtain ⟨-, -, route', inflight'⟩ := expect_net w comm p
      exact .inl ⟨route.trans route', inflight.trans inflight'⟩
  | test x =>
    cases x with
    | none =>
      cases hx
      exact .inl ⟨rfl, rfl⟩
    | some x => cases exec_test hx <;> exact .inl ⟨rfl, rfl⟩
  | memcpy dst src n =>
    cases hx
    obtain ⟨-, -, route, inflight⟩ := memcpy_net w dst src n
    exact .inl ⟨route, inflight⟩
  | writeSlot d e | commCreate d | commFree comm =>
    cases hx
    exact .inl ⟨rfl, rfl⟩
  | _ =>
    have net := (exec_frame hx).net rfl
    exact .inl ⟨by rw [net], by rw [net]⟩

theorem takeContinuation_net (k : Tracked P w) {o : Op} {m : Manager} {i : Nat} {e : Entry}
    {st : Status} (own : ∀ x, e.mpiReq = some x → x.request = e.request)
    (outcome : w.outcome cfg e = some st) :
    (w.takeContinuation t o m i e st).got = w.got ∧
      (w.takeContinuation t o m i e st).net.route = w.net.route ∧
        (w.takeContinuation t o m i e st).net.inflight = w.net.inflight := by
  have net : (w.takeContinuation t o m i e st).net = (w.consume e.request st e.mpiReq).net := by
    rw [World.takeContinuation_eq]
  have same : (w.takeContinuation t o m i e st).got = (w.consume e.request st e.mpiReq).got :=
    got_of_net net
  rw [same, net]
  unfold World.outcome at outcome
  unfold World.consume
  cases handle : e.mpiReq with
  | none => exact ⟨rfl, rfl, rfl⟩
  | some x =>
    cases hq : w.net.reqs x with
    | none => simp [handle, hq] at outcome
    | some q =>
      obtain ⟨isRecv, buffer, layout, peer, tag, state⟩ := q
      cases state with
      | complete st' =>
        simp only [handle, hq, Option.some.injEq] at outcome
        subst outcome
        have consumed := k.got_consume hq rfl
        rw [own x handle] at consumed
        simp only [hq]
        exact ⟨consumed, rfl, rfl⟩
      | _ => simp [handle, hq] at outcome

theorem Routed.carry (h : Routed cfg w) (got : w'.got = w.got)
    (route : ∀ p x, w'.net.route p = .matched x ↔ w.net.route p = .matched x) :
    Routed cfg w' where
  matched p x hp := by
    rw [got]
    exact h.matched p x ((route p x).mp hp)
  got x st hx := by
    rw [got] at hx
    obtain ⟨m, suits, there⟩ := h.got x st hx
    exact ⟨m, suits, (route _ _).mpr there⟩

theorem Routed.exec (h : Routed cfg w) (books : Books P w) (k : Tracked P w) {o : Op} {r : o.Ret}
    (pre : ledgerPre P t o (account t w)) (hx : exec cfg t o w = some (r, w')) :
    Routed cfg w' := by
  refine h.carry (exec_got books k pre hx) fun p x => ?_
  rcases exec_sends hx with ⟨route, -⟩ | ⟨a, n, ty, dest, tag, comm, p', rfl, route, -⟩
  · rw [route]
  · rw [route]
    by_cases e : p = p'
    · subst e
      have unsent : w.net.route p = .unsent := by
        by_contra sent
        have begun := books.matching.sent p sent
        simp [pre.2.unbegun] at begun
      simp [unsent]
    · rw [Function.update_of_ne e]

/-- A message meets the receive that accepts it. -/
theorem Routed.deliver (h : Routed cfg w) (matching : Matching (.free cfg) w) {i : Nat}
    {m : Message} {x : Handle} {q : MpiRequest} (hm : w.net.inflight[i]? = some m)
    (hq : w.net.reqs x = some q) (pending : q.state = .pending)
    (accepts : World.accepts cfg m x q = true) : Routed cfg (w.deliver i m x q) := by
  simp only [World.accepts, Bool.and_eq_true, Bool.or_eq_true, beq_iff_eq] at accepts
  obtain ⟨⟨⟨⟨recv, dst⟩, context⟩, peer⟩, tag⟩ := accepts
  have ok := matching.req x q hq
  obtain ⟨okm, flying⟩ := matching.flying m (List.mem_of_getElem? hm)
  have nothing : w.got x = none := by simp [World.got, hq, pending]
  have route (p : RequestPtr) (y : Handle) :
      (w.deliver i m x q).net.route p = .matched y ↔
        p = m.request ∧ y = x ∨ w.net.route p = .matched y := by
    show update w.net.route m.request (.matched x) p = .matched y ↔ _
    by_cases e : p = m.request
    · subst e
      simp [flying, eq_comm]
    · simp [e]
  refine ⟨fun p y hp => ?_, fun y st hy => ?_⟩
  · rw [got_deliver recv]
    rcases (route p y).mp hp with ⟨rfl, rfl⟩ | before
    · exact ⟨_, m, Function.update_self .., rfl, rfl⟩
    · obtain ⟨st, m', got, message, own⟩ := h.matched p y before
      have other : y ≠ x := by
        rintro rfl
        simp [nothing] at got
      exact ⟨st, m', (Function.update_of_ne other _ _).trans got, message, own⟩
  · rw [got_deliver recv] at hy
    by_cases e : y = x
    · subst e
      rw [Function.update_self] at hy
      obtain rfl := Option.some.inj hy
      refine ⟨m, ⟨okm, rfl, rfl, rfl, ?_, ok.recv.mp recv, ?_, context.symm, ?_, fun op => ?_⟩,
        (route _ _).mpr (.inl ⟨rfl, rfl⟩)⟩
      · simp [ok.layout recv]
      · rw [← dst, ok.device]
      · rw [← tag, ok.tag]
      · rwa [ok.peer op] at peer
    · rw [Function.update_of_ne e] at hy
      obtain ⟨m', suits, there⟩ := h.got y st hy
      exact ⟨m', suits, (route _ _).mpr (.inr there)⟩

end Steps

section Truncation

theorem reqs_of_got {h : Handle} {st : Status} (got : w.got h = some st) :
    ∃ q, w.net.reqs h = some q ∧ q.isRecv = true ∧
      (q.state = .complete st ∨ q.state = .consumed ∧ w.net.result h.request = some st) := by
  unfold World.got at got
  cases hq : w.net.reqs h with
  | none => simp [hq] at got
  | some q =>
    simp only [hq] at got
    cases recv : q.isRecv with
    | false => simp [recv] at got
    | true =>
      simp only [recv, cond_true] at got
      cases state : q.state with
      | pending => simp [state] at got
      | complete st' =>
        simp only [state, Option.some.injEq] at got
        exact ⟨q, rfl, recv, .inl (by rw [state, got])⟩
      | consumed =>
        simp only [state] at got
        exact ⟨q, rfl, recv, .inr ⟨state, got⟩⟩

/-- `MPI_Test` reports no truncated message. -/
theorem exec_result (h : Books P w) (k : Tracked P w) {o : Op} {r : o.Ret}
    (pre : ledgerPre P t o (account t w)) (hx : exec cfg t o w = some (r, w')) {x : Handle}
    {st : Status} (got : w.got x = some st) (error : st.error = true)
    (result : w'.net.result x.request ≠ none) : w.net.result x.request ≠ none := by
  obtain ⟨q, hq, -, state⟩ := reqs_of_got got
  have old : w.net.reqs x ≠ none := by simp [hq]
  cases o with
  | isend a n ty dest tag comm p =>
    rcases exec_isend hx with ⟨-, rfl⟩ | ⟨-, -, rfl⟩
    · exact result
    · have other := h.matching.unstarted pre.2.unbegun x old
      rwa [World.isend, start_result (.inl other)] at result
  | irecv a n ty source tag comm p =>
    rcases exec_irecv hx with ⟨-, rfl, -⟩ | ⟨-, rfl⟩
    · exact result
    · have unbegun : (w.store.stage p).begun = false := by
        rcases pre.2 with may | may
        · exact may.unbegun
        · exact may.unbegun
      have other := h.matching.unstarted unbegun x old
      rwa [World.irecv, start_result (.inl other), (expect_net w _ _).2.1] at result
  | test y =>
    cases y with
    | none =>
      cases hx
      exact result
    | some y =>
      have tested (q' : MpiRequest) (st' : Status) (hq' : w.net.reqs y = some q')
          (done : q'.state = .complete st') (fine : st'.error = false) : x.request ≠ y.request := by
        intro same
        obtain rfl := k.own x y old (by simp [hq']) same
        obtain rfl := Option.some.inj (hq.symm.trans hq')
        rcases state with state | ⟨state, -⟩
        · obtain rfl := ReqState.complete.inj (state.symm.trans done)
          simp [error] at fine
        · cases state.symm.trans done
      cases exec_test hx with
      | notYet => exact result
      | failed dead => exact result
      | taken q' st' hq' done fine op =>
        have other := tested q' st' hq' done fine
        exact fun none => result ((Function.update_of_ne other _ _).trans none)
      | done q' st' hq' done fine op =>
        have other := tested q' st' hq' done fine
        exact fun none => result ((Function.update_of_ne other _ _).trans none)
  | memcpy dst src n =>
    cases hx
    rwa [(memcpy_net w _ _ _).2.1] at result
  | writeSlot d e | commCreate d | commFree comm =>
    cases hx
    exact result
  | _ => rwa [(exec_frame hx).net rfl] at result

/-- A thread that finds a message truncated has stopped, with the operation in its hands. -/
def Stopped (s : (machine cfg).State) : Prop :=
  ∀ x st, s.shared.got x = some st → st.error = true → s.shared.net.result x.request ≠ none →
    ∃ t f, nextOp s t = some (.abort f) ∧ s.shared.store.stage x.request = .owned t .held

/-- The continuation of a truncated receive stops at once. -/
theorem nextOp_failed {s : (machine cfg).State} {e : Entry} {o : Op} {k : o.Ret → Code Unit} :
    nextOp (⟨w, update s.prog t ((completeCb cfg false e).bind fun _ => .op o k)⟩ :
      (machine cfg).State) t = some (.abort (.continuationFailed e.request)) := by
  show nextOp (⟨w, update s.prog t (.op _ _)⟩ : (machine cfg).State) t = _
  simp [nextOp]

theorem Stopped.step {s s' : (machine cfg).State} {e : (machine cfg).Event} (inv : Stopped s)
    (reached : Reach (Orderly (.free cfg)) (start cfg) s) (step : System.step s e = some s') :
    Stopped s' := by
  have books := books_of_reach reached
  have k := (tracked_of_reach reached).1
  have k' := (tracked_of_reach (.step e reached (orderly_free s e) step)).1
  intro x st got error result
  cases e with
  | exec t =>
    obtain ⟨o, c, r, w, hp, hx, rfl⟩ := System.step_exec step
    have pre := ledgerPre_of_reach reached (nextOp_eq_some.mpr ⟨c, hp⟩)
    have before : s.shared.got x = some st := by rwa [← exec_got books k pre hx]
    obtain ⟨u, f, stuck, held⟩ :=
      inv x st before error (exec_result books k pre hx before error result)
    have other : u ≠ t := by
      rintro rfl
      obtain ⟨c', hp'⟩ := nextOp_eq_some.mp stuck
      cases hp.symm.trans hp'
      cases hx
    refine ⟨u, f, ?_, ?_⟩
    · rw [← stuck]
      show nextOp ⟨w, update s.prog t (c r)⟩ u = nextOp s u
      simp only [nextOp, Function.update_of_ne other]
    · rcases exec_moved books pre hx with same | ⟨p, s', move, stage, -⟩
      · rw [← held]
        exact congrFun same x.request
      · show w.store.stage x.request = _
        rw [stage, ← held]
        refine Function.update_of_ne ?_ _ _
        rintro rfl
        rw [held] at move
        cases move <;> exact other rfl
  | intr t i =>
    obtain ⟨o, c, p, w, hp, hi, rfl⟩ := System.step_intr step
    cases i with
    | call a =>
      obtain ⟨rfl, -, -, rfl⟩ := intr_call hi
      obtain ⟨u, f, stuck, held⟩ := inv x st got error result
      have other : u ≠ t := by
        rintro rfl
        cases (nextOp_eq_some.mpr ⟨c, hp⟩).symm.trans stuck
      refine ⟨u, f, ?_, held⟩
      rw [← stuck]
      simp only [nextOp, Function.update_of_ne other]
    | continuation m i =>
      obtain ⟨mpi, -, -, e, st', found, outcome, rfl, rfl⟩ := intr_continuation hi
      have own := ((coherent_of_reach reached).attached m e (List.mem_of_getElem? found)).coherent
      have here := books.filed.attached_of_mem (List.mem_of_getElem? found)
      obtain ⟨same, -⟩ := takeContinuation_net (t := t) (o := o) (m := m) (i := i) k
        (fun y hy => (own.handle y hy).2) outcome
      have before : s.shared.got x = some st := by rwa [← same]
      by_cases mine : x.request = e.request
      · obtain ⟨q, hq, -, state⟩ := reqs_of_got got
        have reported : (s.shared.takeContinuation t o m i e st').net.result x.request = some st := by
          rcases state with done | ⟨-, reported⟩
          · exact absurd (k'.live x q hq (by simp [done])) result
          · exact reported
        rw [mine, World.takeContinuation_eq] at reported
        rcases consume_result_self (p := e.request) outcome with ⟨old, -⟩ | new
        · have again := inv x st before error (by rw [mine, ← old, reported]; simp)
          obtain ⟨u, f, -, held⟩ := again
          rw [mine, here] at held
          cases held
        · obtain rfl : st' = st := Option.some.inj (new.symm.trans reported)
          refine ⟨t, .continuationFailed e.request, ?_, ?_⟩
          · rw [error]
            exact nextOp_failed
          · rw [World.takeContinuation_eq, mine]
            exact Function.update_self ..
      · rw [World.takeContinuation_eq] at result
        obtain ⟨u, f, stuck, held⟩ := inv x st before error (by rwa [consume_result mine] at result)
        have other : u ≠ t := by
          rintro rfl
          obtain rfl := Option.some.inj ((nextOp_eq_some.mpr ⟨c, hp⟩).symm.trans stuck)
          cases mpi
        refine ⟨u, f, ?_, ?_⟩
        · rw [← stuck]
          simp only [nextOp, Function.update_of_ne other]
        · rw [World.takeContinuation_eq, ← held]
          exact Function.update_of_ne mine _ _
  | env e =>
    obtain ⟨w, he, rfl⟩ := System.step_env step
    cases env_cases he with
    | sendDone y q hq send pending =>
      rw [got_sendDone hq send] at got
      exact inv x st got error result
    | deliver i m y q hm hq pending accepts =>
      have recv : q.isRecv = true := by
        simp only [World.accepts, Bool.and_eq_true] at accepts
        exact accepts.1.1.1.1
      rw [got_deliver recv] at got
      by_cases e : x = y
      · subst e
        exact absurd (k.live x q hq (by simp [pending])) result
      · rw [Function.update_of_ne e] at got
        exact inv x st got error result
    | write b bytes hb => exact inv x st got error result

end Truncation

section Runs

variable {s : (machine cfg).State}

/-- What is known of the messages of a state that is reached without rules. -/
structure Traced (s : (machine cfg).State) : Prop where
  books : Books (.free cfg) s.shared
  tracked : Tracked (.free cfg) s.shared
  routed : Routed cfg s.shared
  stopped : Stopped s

theorem Routed.step {s' : (machine cfg).State} {e : (machine cfg).Event}
    (inv : Routed cfg s.shared) (reached : Reach (Orderly (.free cfg)) (start cfg) s)
    (step : System.step s e = some s') : Routed cfg s'.shared := by
  have books := books_of_reach reached
  have k := (tracked_of_reach reached).1
  cases e with
  | exec t =>
    obtain ⟨o, c, r, w, hp, hx, rfl⟩ := System.step_exec step
    exact inv.exec books k (ledgerPre_of_reach reached (nextOp_eq_some.mpr ⟨c, hp⟩)) hx
  | intr t i =>
    obtain ⟨o, c, p, w, -, hi, rfl⟩ := System.step_intr step
    cases i with
    | call c =>
      obtain ⟨-, -, -, rfl⟩ := intr_call hi
      exact inv.carry rfl fun _ _ => Iff.rfl
    | continuation m i =>
      obtain ⟨-, -, -, e, st, found, outcome, -, rfl⟩ := intr_continuation hi
      have coherent := (coherent_of_reach reached).attached m e (List.mem_of_getElem? found)
      obtain ⟨got, route, -⟩ := takeContinuation_net (t := t) (o := o) (m := m) (i := i) k
        (fun x hx => (coherent.coherent.handle x hx).2) outcome
      exact inv.carry got fun p x => by rw [route]
  | env e =>
    obtain ⟨w, he, rfl⟩ := System.step_env step
    cases env_cases he with
    | sendDone x q hq send pending => exact inv.carry (got_sendDone hq send) fun _ _ => Iff.rfl
    | deliver i m x q hm hq pending accepts =>
      exact inv.deliver books.matching hm hq pending accepts
    | write b bytes hb => exact inv.carry rfl fun _ _ => Iff.rfl

theorem traced_of_reach {ok : (machine cfg).State → (machine cfg).Event → Prop}
    (h : Reach ok (start cfg) s) : Traced s := by
  have free : Reach (Orderly (.free cfg)) (start cfg) s := h.mono fun s e _ => orderly_free s e
  have both : Routed cfg s.shared ∧ Stopped s := by
    refine (free.strengthen fun _ reached => reached).invariant
      (I := fun s : (machine cfg).State => Routed cfg s.shared ∧ Stopped s)
      ⟨⟨fun p x hp => (by cases hp), fun x st hx => (by cases hx)⟩, fun x st hx => (by cases hx)⟩
      fun s e s' inv ok step => ?_
    exact ⟨inv.1.step ok.2 step, inv.2.step ok.2 step⟩
  exact ⟨books_of_reach free, (tracked_of_reach free).1, both.1, both.2⟩

end Runs

section Exchange

variable {s : (machine cfg).State}

/-- The receive `h` got the message of the send or put `p`. -/
def Reaches (w : World) (p : RequestPtr) (h : Handle) : Prop :=
  ∃ st m, w.got h = some st ∧ st.message = some m ∧ m.request = p

variable (cfg) in
/-- What the completion of a receive tells of the operation whose message it got. -/
structure Tells (x : Delivery) (p : RequestPtr) : Prop where
  op : p.posted.op = .send ∨ p.posted.op = .put
  target : (toInt p.posted.rank).toNat = x.origin.posted.device.rank
  sameTag : toInt p.posted.tag = toInt x.origin.posted.tag
  peer : x.origin.posted.op = .recv → toInt x.origin.posted.rank = cfg.anySource ∨
    toInt x.origin.posted.rank = p.posted.device.rank
  fits : toSize p.posted.length ≤ toSize x.origin.posted.length
  reported : cfg.compType = .request ∨ x.origin.posted.op = .putSignal →
    x.request.rank = p.posted.device.rank ∧ x.request.tag = toInt p.posted.tag ∧
      (toSize p.posted.length ≤ intMax → x.request.length = toSize p.posted.length)

variable (cfg) in
/-- Messages are neither lost nor duplicated between posts and completions. -/
structure Exchanged (w : World) : Prop where
  sent : ∀ p, p.posted.op = .send ∨ p.posted.op = .put → (w.store.stage p).begun = true →
    (w.net.inflight.map Message.request).count p = 1 ∧ (∀ h, ¬ Reaches w p h) ∨
      (w.net.inflight.map Message.request).count p = 0 ∧
        ∃ h, Reaches w p h ∧ ∀ h', Reaches w p h' → h' = h
  done : ∀ h q, w.net.reqs h = some q → q.isRecv = true → q.state ≠ .pending →
    ∃ p, Reaches w p h ∧ ∀ p', Reaches w p' h → p' = p
  told : ∀ c, ∀ x ∈ w.store.delivered c,
    x.origin.posted.op = .recv ∨ x.origin.posted.op = .putSignal →
      (∀ h, w.net.reqs h ≠ none → h.request ≠ x.origin) ∨
        ∃ h p, h.request = x.origin ∧ Reaches w p h ∧ Tells cfg x p

theorem Routed.reaches_iff (routed : Routed cfg w) {p : RequestPtr} {h : Handle} :
    Reaches w p h ↔ w.net.route p = .matched h := by
  constructor
  · rintro ⟨st, m, got, message, rfl⟩
    obtain ⟨m', suits, route⟩ := routed.got h st got
    obtain rfl := Option.some.inj (message.symm.trans suits.message)
    exact route
  · exact routed.matched p h

theorem Matching.count_inflight (h : Matching P w) (k : Tracked P w) (p : RequestPtr) :
    (w.net.inflight.map Message.request).count p = if w.net.route p = .flying then 1 else 0 := by
  by_cases flying : w.net.route p = .flying
  · obtain ⟨m, hm, rfl⟩ := k.flying p flying
    rw [if_pos flying]
    exact List.count_eq_one_of_mem h.distinct (List.mem_map_of_mem hm)
  · rw [if_neg flying]
    refine List.count_eq_zero.mpr fun mem => flying ?_
    obtain ⟨m, hm, rfl⟩ := List.mem_map.mp mem
    exact (h.flying m hm).2

/-- The status of a receive that has told its completion object is that of a whole message. -/
theorem Traced.got_told (h : Traced s) {c : Comp} {x : Delivery}
    (told : x ∈ s.shared.store.delivered c) {y : Handle} {q : MpiRequest}
    (hq : s.shared.net.reqs y = some q) (own : y.request = x.origin)
    (receive : x.origin.posted.op = .recv ∨ x.origin.posted.op = .putSignal) :
    ∃ st, s.shared.got y = some st ∧ st.error = false ∧
      s.shared.net.result x.origin = some st := by
  obtain ⟨st, result, -⟩ := (h.books.contents.delivered c x told).reported
  have reported : s.shared.net.result y.request ≠ none := by
    rw [own, result]
    simp
  have gone : q.state = .consumed := by
    by_contra live
    exact reported (h.tracked.live y q hq live)
  have recv := (h.books.matching.req y q hq).recv.mpr (by rwa [own])
  have got : s.shared.got y = some st := by simp [World.got, hq, recv, gone, own, result]
  refine ⟨st, got, ?_, result⟩
  by_contra error
  obtain ⟨t, f, -, held⟩ := h.stopped y st got (by simpa using error) reported
  have place := h.books.filed.told.place_of_mem told
  rw [← own] at place
  simp [toldTo, held, Stage.told] at place

theorem Traced.tells (h : Traced s) {c : Comp} {x : Delivery}
    (told : x ∈ s.shared.store.delivered c) {y : Handle} {q : MpiRequest}
    (hq : s.shared.net.reqs y = some q) (own : y.request = x.origin)
    (receive : x.origin.posted.op = .recv ∨ x.origin.posted.op = .putSignal) :
    ∃ p, Reaches s.shared p y ∧ Tells cfg x p := by
  obtain ⟨st, got, whole, result⟩ := h.got_told told hq own receive
  obtain ⟨m, suits, -⟩ := h.routed.got y st got
  refine ⟨m.request, ⟨st, m, got, suits.message, rfl⟩, suits.ok.op, ?_, ?_, fun op => ?_, ?_,
    fun full => ?_⟩
  · rw [← suits.ok.dst, suits.dst, own]
  · rw [← suits.ok.tag, suits.sameTag, own]
  · have peer := suits.peer (by rw [own, op])
    rwa [own, suits.ok.src] at peer
  · have fits : ¬ toSize y.request.posted.length < m.payload.length := fun long => by
      simp [suits.error.mpr long] at whole
    rw [own, suits.ok.length] at fits
    omega
  · obtain ⟨st', result', user, signal⟩ := (h.books.contents.delivered c x told).reported
    obtain rfl : st' = st := Option.some.inj (result'.symm.trans result)
    have bytes : st'.bytes = toSize m.request.posted.length := by
      simp [Status.bytes, suits.message, suits.ok.length]
    have fields : x.request.rank = st'.source ∧ x.request.tag = st'.tag ∧
        x.request.length = getCount cfg st' := by
      rcases receive with op | op
      · have request : cfg.compType = .request := full.resolve_right (by simp [op])
        rw [user (by simp [op])]
        simp [finalRequest, request, op, received]
      · obtain ⟨k, final, -⟩ := signal op
        rw [final]
        simp [received]
    refine ⟨?_, ?_, fun small => ?_⟩
    · rw [fields.1, suits.source, suits.ok.src]
    · rw [fields.2.1, suits.tag, suits.ok.tag]
    · rw [fields.2.2, getCount, bytes, if_pos small]

/-- In every run each message that was sent is on its way once or was received by one receive, and
each receive that is done got one message, of which its completion tells. -/
theorem messages_exchanged {ok : (machine cfg).State → (machine cfg).Event → Prop}
    (h : Reach ok (start cfg) s) : Exchanged cfg s.shared := by
  have traced := traced_of_reach h
  have matching := traced.books.matching
  refine ⟨fun p op begun => ?_, fun x q hq recv done => ?_, fun c x told receive => ?_⟩
  · rw [matching.count_inflight traced.tracked]
    cases route : s.shared.net.route p with
    | unsent => exact absurd route (traced.tracked.sent p op begun)
    | flying =>
      refine .inl ⟨if_pos rfl, fun x reaches => ?_⟩
      cases route.symm.trans (traced.routed.reaches_iff.mp reaches)
    | matched x =>
      refine .inr ⟨if_neg (by simp), x, traced.routed.reaches_iff.mpr route, fun y reaches => ?_⟩
      exact (Route.matched.inj (route.symm.trans (traced.routed.reaches_iff.mp reaches))).symm
  · have got : ∃ st, s.shared.got x = some st := by
      cases state : q.state with
      | pending => exact absurd state done
      | complete st => exact ⟨st, by simp [World.got, hq, recv, state]⟩
      | consumed =>
        obtain ⟨st, result⟩ := Option.ne_none_iff_exists'.mp (matching.consumed x q hq state)
        exact ⟨st, by simp [World.got, hq, recv, state, result]⟩
    obtain ⟨st, got⟩ := got
    obtain ⟨m, suits, -⟩ := traced.routed.got x st got
    refine ⟨m.request, ⟨st, m, got, suits.message, rfl⟩, ?_⟩
    rintro p ⟨st', m', got', message', rfl⟩
    obtain rfl := Option.some.inj (got.symm.trans got')
    obtain rfl := Option.some.inj (suits.message.symm.trans message')
    rfl
  · by_cases none : ∀ y, s.shared.net.reqs y ≠ none → y.request ≠ x.origin
    · exact .inl none
    · push Not at none
      obtain ⟨y, hy, own⟩ := none
      obtain ⟨q, hq⟩ := Option.ne_none_iff_exists'.mp hy
      obtain ⟨p, reaches, tells⟩ := traced.tells told hq own receive
      exact .inr ⟨y, p, own, reaches, tells⟩

/-- A receive of four bytes has told of the send it got its message from. -/
theorem messages_exchanged_loopback : ∃ s : (machine (smallJob .request false 0)).State,
    ∃ x ∈ s.shared.store.delivered 0, x.origin = (loopbackRecv 4).request ∧
      ∃ h p, Reaches s.shared p h ∧ Tells (smallJob .request false 0) x p := by
  let J := smallJob .request false 0
  have played : (run (start J) (loopback 4 ++ steps J ⟨0, 0⟩ 8)).map (fun s =>
      ((s.shared.store.delivered 0).map Delivery.origin,
        (s.shared.net.reqs (loopbackRecv 4)).isSome)) =
        some ([(loopbackRecv 4).request], true) := by decide +kernel
  obtain ⟨s, reached, found⟩ := reach_probe_any played
  obtain ⟨x, told, origin⟩ := List.map_eq_singleton_iff.mp (congrArg Prod.fst found)
  have here : x ∈ s.shared.store.delivered 0 := by simp [told]
  have made : s.shared.net.reqs (loopbackRecv 4) ≠ none :=
    Option.isSome_iff_ne_none.mp (congrArg Prod.snd found)
  refine ⟨s, x, here, origin, ?_⟩
  rcases (messages_exchanged reached).told 0 x here (.inl (by rw [origin]; rfl)) with none | some
  · exact absurd origin.symm (none _ made)
  · obtain ⟨h, p, -, reaches, tells⟩ := some
    exact ⟨h, p, reaches, tells⟩

end Exchange

end Lcw.Mpi
