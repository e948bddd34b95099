/- digest: Requests, messages and statuses keep to the operations they were made for. -/

import Lcw.Mpi.LedgerSteps
import Mathlib.Data.List.Nodup

set_option autoImplicit false
set_option relaxedAutoImplicit false

namespace Lcw.Mpi

open Interleave
open Function (update)

variable {cfg : Config} {P : PutRules cfg} {t : Tid} {w w' : World}

section Carry

theorem MpiRequest.Ok.mono {h : Handle} {q : MpiRequest} (ok : q.Ok P w h)
    (begun : ∀ p, (w.store.stage p).begun = true → (w'.store.stage p).begun = true)
    (next : w.net.nextHandle ≤ w'.net.nextHandle) : q.Ok P w' h where
  id := Nat.lt_of_lt_of_le ok.id next
  begun := begun _ ok.begun
  buffer := ok.buffer
  recv := ok.recv
  peer := ok.peer
  tag := ok.tag
  layout := ok.layout
  admitted := ok.admitted
  device := ok.device
  recvTag := ok.recvTag
  putTag := ok.putTag
  put := ok.put

theorem MpiRequest.Ok.same {x : Handle} {q : MpiRequest} (ok : q.Ok P w x)
    (next : w'.net.nextHandle = w.net.nextHandle) (stage : w'.store.stage = w.store.stage) :
    q.Ok P w' x :=
  ok.mono (by rw [stage]; exact fun _ e => e) (by rw [next])

theorem Message.For.mono {h : Handle} {q : MpiRequest} {st : Status} {m : Message}
    (hm : Message.For P w h q st m)
    (route : ∀ p, w.net.route p = .matched h → w'.net.route p = .matched h) :
    Message.For P w' h q st m where
  ok := hm.ok
  source := hm.source
  tag := hm.tag
  message := hm.message
  sameTag := hm.sameTag
  peer := hm.peer
  dst := hm.dst
  context := hm.context
  error := hm.error
  route := route _ hm.route

theorem Status.Ok.mono {h : Handle} {q : MpiRequest} {st : Status} (ok : st.Ok P w h q)
    (route : ∀ p, w.net.route p = .matched h → w'.net.route p = .matched h) : st.Ok P w' h q where
  send := ok.send
  recv isRecv := by
    obtain ⟨m, hm⟩ := ok.recv isRecv
    exact ⟨m, hm.mono route⟩

/-- A status stays reported while consumed requests and matched messages stay as they are. -/
theorem Reported.mono {p : RequestPtr} {st : Status} (h : Reported P w p st)
    (reqs : ∀ x q, w.net.reqs x = some q → q.state = .consumed → w'.net.reqs x = some q)
    (route : ∀ p x, w.net.route p = .matched x → w'.net.route p = .matched x) :
    Reported P w' p st := by
  rcases h with null | ⟨x, q, request, hq, consumed, ok⟩
  · exact .inl null
  · exact .inr ⟨x, q, request, reqs x q hq consumed, consumed, ok.mono (route · x)⟩

/-- Stages move on and MPI keeps what it has. -/
theorem Matching.carry (h : Matching P w)
    (begun : ∀ p, (w.store.stage p).begun = true → (w'.store.stage p).begun = true) (reqs : w'.net.reqs = w.net.reqs)
    (nextHandle : w'.net.nextHandle = w.net.nextHandle)
    (inflight : w'.net.inflight = w.net.inflight) (result : w'.net.result = w.net.result)
    (route : w'.net.route = w.net.route) : Matching P w' where
  req x q hq := by
    rw [reqs] at hq
    exact (h.req x q hq).mono begun (by rw [nextHandle])
  complete x q st hq done := by
    rw [reqs] at hq
    exact (h.complete x q st hq done).mono (by rw [route]; exact fun _ e => e)
  consumed x q hq gone := by
    rw [reqs] at hq
    rw [result]
    exact h.consumed x q hq gone
  result p st hp := by
    rw [result] at hp
    refine (h.result p st hp).mono ?_ ?_
    · rw [reqs]
      exact fun _ _ e _ => e
    · rw [route]
      exact fun _ _ e => e
  resultBegun p hp := by
    rw [result] at hp
    exact begun p (h.resultBegun p hp)
  flying := by
    rw [inflight, route]
    exact h.flying
  distinct := by
    rw [inflight]
    exact h.distinct
  sent p hp := by
    rw [route] at hp
    exact begun p (h.sent p hp)

end Carry

section Starting

theorem Matching.fresh (h : Matching P w) (comm : Comm) (p : RequestPtr) :
    w.net.reqs (w.freshHandle comm p) = none := by
  cases hq : w.net.reqs (w.freshHandle comm p) with
  | none => rfl
  | some q =>
    have bound := (h.req _ q hq).id
    simp [World.freshHandle] at bound

/-- A started operation gets a request of its own, or is complete at once. -/
theorem Matching.start (h : Matching P w) {null : Bool} {comm : Comm} {p : RequestPtr}
    {q : MpiRequest} (unbegun : (w.store.stage p).begun = false)
    (ok : q.Ok P (w.start cfg t null comm p q).2 (w.freshHandle comm p))
    (pending : q.state = .pending) (atOnce : null = true → p.posted.op ≠ .putSignal) :
    Matching P (w.start cfg t null comm p q).2 := by
  have stage : (w.start cfg t null comm p q).2.store.stage =
      update w.store.stage p (.owned t .started) := by
    rw [World.start_eq]
  have begun (r : RequestPtr) (hr : (w.store.stage r).begun = true) :
      ((w.start cfg t null comm p q).2.store.stage r).begun = true := by
    rw [stage]
    by_cases e : r = p
    · subst e
      simp [unbegun] at hr
    · rwa [Function.update_of_ne e]
  have mine : ((w.start cfg t null comm p q).2.store.stage p).begun = true := by
    rw [stage, Function.update_self]
    rfl
  have noResult : w.net.result p = none := by
    by_contra result
    have early := h.resultBegun p result
    simp [unbegun] at early
  have free := h.fresh comm p
  cases null with
  | true =>
    refine ⟨fun x y hy => (h.req x y hy).mono begun (Nat.le_succ _), ?_, ?_, ?_, ?_, h.flying,
      h.distinct, fun r hr => begun r (h.sent r hr)⟩
    · exact fun x y st hy done => (h.complete x y st hy done).mono fun _ e => e
    · intro x y hy gone
      have before := h.consumed x y hy gone
      have other : x.request ≠ p := by
        intro e
        rw [e, noResult] at before
        exact before rfl
      exact fun none => before ((Function.update_of_ne other _ _).symm.trans none)
    · intro r st hr
      by_cases e : r = p
      · subst e
        have value : update w.net.result r (some cfg.indeterminate) r = some st := hr
        rw [Function.update_self] at value
        exact .inl ⟨(Option.some.inj value).symm, atOnce rfl⟩
      · have before : w.net.result r = some st := (Function.update_of_ne e _ _).symm.trans hr
        exact (h.result r st before).mono (fun _ _ e _ => e) fun _ _ e => e
    · intro r hr
      by_cases e : r = p
      · subst e
        exact mine
      · exact begun r (h.resultBegun r fun none => hr ((Function.update_of_ne e _ _).trans none))
  | false =>
    have old {x : Handle} {y : MpiRequest}
        (hy : (w.start cfg t false comm p q).2.net.reqs x = some y) :
        x = w.freshHandle comm p ∧ y = q ∨ w.net.reqs x = some y := by
      by_cases e : x = w.freshHandle comm p
      · subst e
        have value : update w.net.reqs (w.freshHandle comm p) (some q) (w.freshHandle comm p) =
            some y := hy
        rw [Function.update_self] at value
        exact .inl ⟨rfl, (Option.some.inj value).symm⟩
      · exact .inr ((Function.update_of_ne e _ _).symm.trans hy)
    refine ⟨?_, ?_, ?_, ?_, fun r hr => begun r (h.resultBegun r hr), h.flying, h.distinct,
      fun r hr => begun r (h.sent r hr)⟩
    · intro x y hy
      rcases old hy with ⟨rfl, rfl⟩ | hy
      · exact ok
      · exact (h.req x y hy).mono begun (Nat.le_succ _)
    · intro x y st hy done
      rcases old hy with ⟨rfl, rfl⟩ | hy
      · simp [pending] at done
      · exact (h.complete x y st hy done).mono fun _ e => e
    · intro x y hy gone
      rcases old hy with ⟨rfl, rfl⟩ | hy
      · simp [pending] at gone
      · exact h.consumed x y hy gone
    · intro r st hr
      refine (h.result r st hr).mono (fun x y hy _ => ?_) fun _ _ e => e
      have other : x ≠ w.freshHandle comm p := by
        rintro rfl
        simp [free] at hy
      exact (Function.update_of_ne other _ _).trans hy

theorem Matching.enqueue (h : Matching P w) {m : Message} (ok : m.Ok P)
    (unsent : w.net.route m.request = .unsent) (begun : (w.store.stage m.request).begun = true) :
    Matching P (w.enqueue m) := by
  have route (p : RequestPtr) (x : Handle) (hp : w.net.route p = .matched x) :
      (w.enqueue m).net.route p = .matched x := by
    have other : p ≠ m.request := by
      rintro rfl
      simp [unsent] at hp
    exact (Function.update_of_ne other _ _).trans hp
  refine ⟨?_, ?_, h.consumed, ?_, h.resultBegun, ?_, ?_, ?_⟩
  · intro x q hq
    exact (h.req x q hq).same rfl rfl
  · exact fun x q st hq done => (h.complete x q st hq done).mono (route · x)
  · exact fun p st hp => (h.result p st hp).mono (fun _ _ e _ => e) route
  · intro m' hm
    have cases : m' ∈ w.net.inflight ∨ m' = m := by simpa [World.enqueue] using hm
    rcases cases with hm | rfl
    · obtain ⟨ok', flying⟩ := h.flying m' hm
      refine ⟨ok', ?_⟩
      by_cases e : m'.request = m.request
      · simp [World.enqueue, e]
      · exact (Function.update_of_ne e _ _).trans flying
    · exact ⟨ok, by simp [World.enqueue]⟩
  · have new : m.request ∉ w.net.inflight.map Message.request := by
      intro mem
      obtain ⟨m', hm, e⟩ := List.mem_map.mp mem
      have flying := (h.flying m' hm).2
      rw [e, unsent] at flying
      cases flying
    have nodup : (w.net.inflight.map Message.request ++ [m.request]).Nodup :=
      List.nodup_append_comm.mp (List.nodup_cons.mpr ⟨new, h.distinct⟩)
    simpa [World.enqueue] using nodup
  · intro p hp
    by_cases e : p = m.request
    · subst e
      exact begun
    · exact h.sent p fun unsent' => hp ((Function.update_of_ne e _ _).trans unsent')

end Starting

section Completing

theorem MpiRequest.Ok.settle {x : Handle} {q : MpiRequest} (ok : q.Ok P w x) (s : ReqState) :
    MpiRequest.Ok P w x { q with state := s } :=
  ⟨ok.id, ok.begun, ok.buffer, ok.recv, ok.peer, ok.tag, ok.layout, ok.admitted, ok.device,
    ok.recvTag, ok.putTag, ok.put⟩

theorem Status.Ok.settle {x : Handle} {q : MpiRequest} {st : Status} (ok : st.Ok P w x q)
    (s : ReqState) : st.Ok P w x { q with state := s } where
  send := ok.send
  recv isRecv := by
    obtain ⟨m, hm⟩ := ok.recv isRecv
    exact ⟨m, hm.ok, hm.source, hm.tag, hm.message, hm.sameTag, hm.peer, hm.dst, hm.context,
      hm.error, hm.route⟩

theorem setReq_cases {x y : Handle} {q r : MpiRequest}
    (hy : (w.setReq x q).net.reqs y = some r) :
    y = x ∧ r = q ∨ y ≠ x ∧ w.net.reqs y = some r := by
  have hy : update w.net.reqs x (some q) y = some r := hy
  by_cases e : y = x
  · subst e
    rw [Function.update_self] at hy
    exact .inl ⟨rfl, (Option.some.inj hy).symm⟩
  · rw [Function.update_of_ne e] at hy
    exact .inr ⟨e, hy⟩

/-- A request that MPI has not handed back changes its state. -/
theorem Matching.settle (h : Matching P w) {x : Handle} {q : MpiRequest} {s : ReqState}
    (hq : w.net.reqs x = some q) (live : q.state ≠ .consumed) (unspent : s ≠ .consumed)
    (ok : ∀ st, s = .complete st → st.Ok P w x q) :
    Matching P (w.setReq x { q with state := s }) := by
  refine ⟨?_, ?_, ?_, ?_, h.resultBegun, h.flying, h.distinct, h.sent⟩
  · intro y r hy
    rcases setReq_cases hy with ⟨rfl, rfl⟩ | ⟨-, hy⟩
    · exact ((h.req y q hq).settle s).same rfl rfl
    · exact (h.req y r hy).same rfl rfl
  · intro y r st hy done
    rcases setReq_cases hy with ⟨rfl, rfl⟩ | ⟨-, hy⟩
    · exact ((ok st done).settle s).mono fun _ e => e
    · exact (h.complete y r st hy done).mono fun _ e => e
  · intro y r hy gone
    rcases setReq_cases hy with ⟨rfl, rfl⟩ | ⟨-, hy⟩
    · exact absurd gone unspent
    · exact h.consumed y r hy gone
  · intro p st hp
    refine (h.result p st hp).mono (fun y r hy gone => ?_) fun _ _ e => e
    have other : y ≠ x := by
      rintro rfl
      rw [hq] at hy
      obtain rfl := Option.some.inj hy
      exact live gone
    exact (Function.update_of_ne other _ _).trans hy

/-- MPI has finished with a request, and hands its status back. -/
theorem Matching.consume (h : Matching P w) {x : Handle} {q : MpiRequest} {st : Status}
    (hq : w.net.reqs x = some q) (done : q.state = .complete st) :
    Matching P ((w.setReq x { q with state := .consumed }).setResult x.request st) := by
  have ok := h.req x q hq
  have complete := h.complete x q st hq done
  refine ⟨?_, ?_, ?_, ?_, ?_, h.flying, h.distinct, h.sent⟩
  · intro y r hy
    rcases setReq_cases hy with ⟨rfl, rfl⟩ | ⟨-, hy⟩
    · exact (ok.settle .consumed).same rfl rfl
    · exact (h.req y r hy).same rfl rfl
  · intro y r st' hy done'
    rcases setReq_cases hy with ⟨rfl, rfl⟩ | ⟨-, hy⟩
    · cases done'
    · exact (h.complete y r st' hy done').mono fun _ e => e
  · intro y r hy gone
    by_cases e : y.request = x.request
    · simp [World.setResult, World.setReq, e]
    · rcases setReq_cases hy with ⟨rfl, rfl⟩ | ⟨-, hy⟩
      · exact absurd rfl e
      · have before := h.consumed y r hy gone
        exact fun none => before ((Function.update_of_ne e _ _).symm.trans none)
  · intro p st' hp
    by_cases e : p = x.request
    · subst e
      have value : update w.net.result x.request (some st) x.request = some st' := hp
      rw [Function.update_self] at value
      obtain rfl := Option.some.inj value
      refine .inr ⟨x, { q with state := .consumed }, rfl, ?_, rfl, ?_⟩
      · simp [World.setResult, World.setReq]
      · exact (complete.settle .consumed).mono fun _ e => e
    · have before : w.net.result p = some st' := (Function.update_of_ne e _ _).symm.trans hp
      refine (h.result p st' before).mono (fun y r hy gone => ?_) fun _ _ e => e
      have other : y ≠ x := by
        rintro rfl
        rw [hq] at hy
        obtain rfl := Option.some.inj hy
        rw [done] at gone
        cases gone
      exact (Function.update_of_ne other _ _).trans hy
  · intro p hp
    by_cases e : p = x.request
    · subst e
      exact ok.begun
    · exact h.resultBegun p fun none => hp ((Function.update_of_ne e _ _).trans none)

theorem Matching.sendDone (h : Matching P w) {x : Handle} {q : MpiRequest}
    (hq : w.net.reqs x = some q) (send : q.isRecv = false) (pending : q.state = .pending) :
    Matching P (w.sendDone cfg x q) := by
  refine h.settle hq (by simp [pending]) (by simp) fun st e => ?_
  cases e
  exact ⟨fun _ => rfl, fun recv => absurd recv (by simp [send])⟩

/-- A message meets the receive that accepts it. -/
theorem Matching.deliver (h : Matching P w) {i : Nat} {m : Message} {x : Handle} {q : MpiRequest}
    (hm : w.net.inflight[i]? = some m) (hq : w.net.reqs x = some q) (pending : q.state = .pending)
    (accepts : World.accepts cfg m x q = true) : Matching P (w.deliver i m x q) := by
  simp only [World.accepts, Bool.and_eq_true, Bool.or_eq_true, beq_iff_eq] at accepts
  obtain ⟨⟨⟨⟨isRecv, dst⟩, context⟩, peer⟩, tag⟩ := accepts
  have mem := List.mem_of_getElem? hm
  obtain ⟨okm, flying⟩ := h.flying m mem
  have route (p : RequestPtr) (y : Handle) (hp : w.net.route p = .matched y) :
      (w.deliver i m x q).net.route p = .matched y := by
    have other : p ≠ m.request := by
      rintro rfl
      simp [flying] at hp
    exact (Function.update_of_ne other _ _).trans hp
  have new : Status.Ok P (w.deliver i m x q) x q
      ⟨m.src, m.tag, some m, q.layout.length < m.payload.length⟩ := by
    refine ⟨fun send => by simp [isRecv] at send, fun _ => ⟨m, okm, rfl, rfl, rfl, tag.symm, peer,
      dst.symm, context.symm, by simp, ?_⟩⟩
    simp [World.deliver]
  refine ⟨?_, ?_, ?_, ?_, h.resultBegun, ?_, ?_, ?_⟩
  · intro y r hy
    rcases setReq_cases hy with ⟨rfl, rfl⟩ | ⟨-, hy⟩
    · exact ((h.req y q hq).settle _).same rfl rfl
    · exact (h.req y r hy).same rfl rfl
  · intro y r st hy done
    rcases setReq_cases hy with ⟨rfl, rfl⟩ | ⟨-, hy⟩
    · cases done
      exact new.settle _
    · exact (h.complete y r st hy done).mono (route · y)
  · intro y r hy gone
    rcases setReq_cases hy with ⟨rfl, rfl⟩ | ⟨-, hy⟩
    · cases gone
    · exact h.consumed y r hy gone
  · intro p st hp
    refine (h.result p st hp).mono (fun y r hy gone => ?_) route
    have other : y ≠ x := by
      rintro rfl
      rw [hq] at hy
      obtain rfl := Option.some.inj hy
      rw [pending] at gone
      cases gone
    exact (Function.update_of_ne other _ _).trans hy
  · intro m' hm'
    have kept : m' ∈ w.net.inflight := List.mem_of_mem_eraseIdx hm'
    obtain ⟨ok', flying'⟩ := h.flying m' kept
    refine ⟨ok', ?_⟩
    have other : m'.request ≠ m.request := by
      obtain ⟨hi, rfl⟩ := List.getElem?_eq_some_iff.mp hm
      have perm := (List.getElem_cons_eraseIdx_perm hi).map Message.request
      have alone := (List.nodup_cons.mp (perm.nodup_iff.mpr h.distinct)).1
      exact fun e => alone (List.mem_map.mpr ⟨m', hm', e⟩)
    exact (Function.update_of_ne other _ _).trans flying'
  · exact h.distinct.sublist ((List.eraseIdx_sublist _ _).map _)
  · intro p hp
    by_cases e : p = m.request
    · subst e
      exact h.sent _ (by simp [flying])
    · exact h.sent p fun unsent => hp ((Function.update_of_ne e _ _).trans unsent)

end Completing

section Steps

variable {a : Buffer} {n : Int} {ty : Datatype} {tag : Int} {comm : Comm} {p : RequestPtr}

theorem start_enqueue {m : Message} {null : Bool} {q : MpiRequest} :
    ((w.enqueue m).start cfg t null comm p q).2 = (w.start cfg t null comm p q).2.enqueue m := by
  unfold World.start
  cases null <;> rfl

/-- What the start of an operation records of its request. -/
theorem Account.MayStart.ok {v : Account} (may : v.MayStart a n ty tag comm p) {null : Bool}
    {isRecv : Bool} {peer : Int} {s : ReqState}
    (recv : isRecv = true ↔ p.posted.op = .recv ∨ p.posted.op = .putSignal)
    (named : p.posted.op = .recv → peer = toInt p.posted.rank)
    (recvTag : P.tagged = true → p.posted.op = .recv → UserTag cfg p.posted.tag)
    (putTag : p.posted.op = .putSignal → p.posted.tag = cfg.maxTag)
    (put : P.on = true → p.posted.op = .putSignal →
      toSize p.posted.length = P.size comm.device.rank comm.context) :
    MpiRequest.Ok P
      (w.start cfg t null comm p ⟨isRecv, a, Datatype.layout n ty, peer, tag, s⟩).2
      (w.freshHandle comm p) ⟨isRecv, a, Datatype.layout n ty, peer, tag, s⟩ where
  id := by
    unfold World.start
    cases null <;> exact Nat.lt_succ_self _
  begun := by
    rw [World.start_eq]
    simp [World.freshHandle, Stage.begun]
  buffer := may.buffer
  recv := recv
  peer := named
  tag := may.narrowed
  layout _ := may.layout
  admitted := may.admitted
  device := may.device
  recvTag := recvTag
  putTag := putTag
  put := put

theorem Matching.isend (h : Matching P w) {dest : Int} (rank : t.rank < cfg.nranks)
    (may : (account t w).MaySend P t a n ty dest tag comm p) :
    Matching P (w.isend cfg t a (Datatype.layout n ty) dest tag comm p).2 := by
  obtain ⟨x, hx, kind, -⟩ := may.token
  have stage := (tokenOf_eq_some.mp hx).1
  rw [kind] at stage
  have unbegun : (w.store.stage p).begun = false := by simp [stage, Stage.begun]
  have user : ¬ (p.posted.op = .recv ∨ p.posted.op = .putSignal) := by
    rcases may.op with op | op <;> simp [op]
  have ok : MpiRequest.Ok P (w.start cfg t (cfg.nullHandle w.net.nextHandle) comm p
      ⟨false, a, Datatype.layout n ty, dest, tag, .pending⟩).2 (w.freshHandle comm p)
      ⟨false, a, Datatype.layout n ty, dest, tag, .pending⟩ :=
    may.ok (by simp [user]) (fun op => absurd (.inl op) user)
      (fun _ op => absurd (.inl op) user) (fun op => absurd (.inr op) user)
      fun _ op => absurd (.inr op) user
  have started := h.start unbegun ok rfl fun _ op => user (.inr op)
  have unsent : w.net.route p = .unsent := by
    by_contra sent
    have early := h.sent p sent
    simp [unbegun] at early
  unfold World.isend
  rw [start_enqueue]
  have length : (gather (w.memory.bytes a) (Datatype.layout n ty)).length =
      toSize p.posted.length := by
    rw [length_gather, may.layout, length_consecutive]
  refine started.enqueue ⟨may.op, may.rank.symm, rank, ?_, may.narrowed, length, ?_, may.putTag,
    may.put, may.send⟩ ?_ ok.begun
  · simp only [World.message, may.target]
  · simp only [World.message]
    rw [length]
    exact may.admitted
  · unfold World.start
    cases cfg.nullHandle w.net.nextHandle <;> exact unsent

theorem Matching.irecv (h : Matching P w) {source : Int}
    (may : (account t w).MayRecv P a n ty source tag comm p ∨
      (account t w).MayListen P a n ty source tag comm p) :
    Matching P (w.irecv cfg t a (Datatype.layout n ty) source tag comm p).2 := by
  have start : (account t w).MayStart a n ty tag comm p := by
    rcases may with may | may
    · exact may.toMayStart
    · exact may.toMayStart
  obtain ⟨x, hx, kind, -⟩ := start.token
  have stage := (tokenOf_eq_some.mp hx).1
  rw [kind] at stage
  have unbegun : ((w.expect comm p).store.stage p).begun = false := by
    unfold World.expect
    split <;> simp [World.setPhase, stage, Stage.begun]
  have expected : Matching P (w.expect comm p) := by
    unfold World.expect
    split
    · exact h.carry (fun _ e => e) rfl rfl rfl rfl rfl
    · exact h
  refine expected.start unbegun (start.ok ?_ ?_ ?_ ?_ ?_) rfl ?_
  · rcases may with may | may <;> simp [may.op]
  · intro op
    rcases may with may | may
    · exact may.peer
    · simp [may.op] at op
  · intro on op
    rcases may with may | may
    · exact may.recvTag on
    · simp [may.op] at op
  · intro op
    rcases may with may | may
    · simp [may.op] at op
    · exact may.putTag
  · intro on op
    rcases may with may | may
    · simp [may.op] at op
    · exact may.put on
  · intro null op
    rcases may with may | may
    · simp [may.op] at op
    · simp [may.peer] at null

theorem Matching.exec (h : Books P w) {o : Op} {r : o.Ret} (pre : ledgerPre P t o (account t w))
    (hx : exec cfg t o w = some (r, w')) : Matching P w' := by
  have moved := exec_moved h pre hx
  have matching := h.matching
  have begun (p : RequestPtr) (hp : (w.store.stage p).begun = true) :
      (w'.store.stage p).begun = true := moved.begun hp
  cases o with
  | isend a n ty dest tag comm p =>
    rcases exec_isend hx with ⟨-, rfl⟩ | ⟨-, -, rfl⟩
    · exact matching
    · exact matching.isend pre.1.1 pre.2
  | irecv a n ty source tag comm p =>
    rcases exec_irecv hx with ⟨-, rfl, -⟩ | ⟨-, rfl⟩
    · exact matching
    · exact matching.irecv pre.2
  | test x =>
    cases x with
    | none =>
      cases hx
      exact matching
    | some x =>
      cases exec_test hx with
      | notYet => exact matching
      | failed dead => exact matching
      | taken q st hq done ok op =>
        have consumed := matching.consume hq done
        exact consumed.carry begun rfl rfl rfl rfl rfl
      | done q st hq done ok op => exact matching.consume hq done
  | writeSlot d e =>
    cases hx
    exact matching.carry begun rfl rfl rfl rfl rfl
  | memcpy dst src n =>
    cases hx
    refine matching.carry begun ?_ ?_ ?_ ?_ ?_
    all_goals
      unfold World.memcpy
      split <;> rfl
  | commCreate d | commFree comm =>
    cases hx
    exact matching.carry begun rfl rfl rfl rfl rfl
  | _ =>
    have net := (exec_frame hx).net rfl
    exact matching.carry begun (by rw [net]) (by rw [net]) (by rw [net]) (by rw [net])
      (by rw [net])

/-- A continuation is run for an operation whose request MPI has completed. -/
theorem Matching.takeContinuation (h : Matching P w) {o : Op} {m : Manager} {i : Nat} {e : Entry}
    {st : Status} (attached : w.store.stage e.request = .attached m)
    (own : ∀ x, e.mpiReq = some x → x.request = e.request)
    (outcome : w.outcome cfg e = some st) : Matching P (w.takeContinuation t o m i e st) := by
  have consumed : Matching P (w.consume e.request st e.mpiReq) := by
    unfold World.outcome at outcome
    unfold World.consume
    cases he : e.mpiReq with
    | none => exact h
    | some x =>
      cases hq : w.net.reqs x with
      | none => simp [he, hq] at outcome
      | some q =>
        obtain ⟨isRecv, buffer, layout, peer, tag, state⟩ := q
        cases state with
        | complete st' =>
          simp only [he, hq, Option.some.injEq] at outcome
          subst outcome
          have done := h.consume hq rfl
          rw [own x he] at done
          simp only [hq]
          exact done
        | _ => simp [he, hq] at outcome
  have stage : (w.consume e.request st e.mpiReq).store.stage = w.store.stage := by
    rw [World.consume_eq]
  have moved : Moved t (w.consume e.request st e.mpiReq) (w.takeContinuation t o m i e st) := by
    refine .inr ⟨e.request, .owned t .held, ?_, ?_, nofun⟩
    · rw [stage, attached]
      exact .take m
    · rw [stage, World.takeContinuation_eq]
  refine consumed.carry (fun _ hp => moved.begun hp) ?_ ?_ ?_ ?_ ?_
  all_goals rw [World.takeContinuation_eq]

end Steps

end Lcw.Mpi
