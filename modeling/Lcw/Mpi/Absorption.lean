/- digest: Which puts the target's `do_progress` can handle. -/

import Lcw.Mpi.Puts

set_option autoImplicit false
set_option relaxedAutoImplicit false

namespace Lcw.Mpi

open Interleave System

variable {cfg : Config} {P : PutRules cfg} {s : (machine cfg).State}

/-- A put whose call returned true is on its way, or was received in full and answered, and
`do_progress` stops for no put. -/
structure Absorbed (s : (machine cfg).State) : Prop where
  received : ∀ p, s.shared.client.accepted p = true → p.posted.op = .put →
    (∃ m ∈ s.shared.net.inflight, m.request = p) ∨
      ∃ h q, s.shared.net.route p = .matched h ∧ s.shared.net.reqs h = some q ∧
        h.request.posted.op = .putSignal ∧ (∀ st, q.state = .complete st → st.error = false) ∧
          (q.state = .consumed → ∃ m, m.request = p ∧ Answered s.shared h m)
  handled : ∀ t d a rest f, s.shared.client.acts t = ⟨.doProgress d, a⟩ :: rest →
    nextOp s t = some (.abort f) → f.OfUser

/-- In every run in which devices have a completion object for puts and puts are within the limits
of the device they go to, every accepted put is absorbed. -/
theorem puts_absorbed (on : P.on = true) (h : Reach (Orderly P) (start cfg) s) : Absorbed s := by
  have b := books_of_reach h
  obtain ⟨k, -⟩ := tracked_of_reach h
  have protocol := put_protocol on h
  refine ⟨fun p accepted put => ?_, fun t d a rest f top next => ?_⟩
  · obtain ⟨handed, -⟩ := b.calls.accepted p accepted
    have begun : (s.shared.store.stage p).begun = true := by
      cases stage : s.shared.store.stage p with
      | owned t k => cases k <;> simp_all [Stage.handed, Stage.begun]
      | _ => simp_all [Stage.handed, Stage.begun]
    cases route : s.shared.net.route p with
    | unsent => exact absurd route (k.sent p (.inr put) begun)
    | flying => exact .inl (k.flying p route)
    | matched x =>
      obtain ⟨q, st, m, met⟩ := k.met p x route
      have op := met.put (P.both on) put
      refine .inr ⟨x, q, rfl, met.req, op, fun st' done => ?_, fun gone => ?_⟩
      · exact b.matching.not_truncated on met.req op done
      · obtain ⟨m', own, -, -, -, answered⟩ := protocol.answered p x q put route met.req gone
        exact ⟨m', own, answered⟩
  · exact (ledgerPre_of_reach h next).2 on d a rest top

section Loopback

/-- A put of two bytes has been absorbed. -/
theorem puts_absorbed_loopback : ∃ s p,
    Reach (Orderly fourBytes) (start (smallJob .request false 0)) s ∧
      s.shared.client.accepted p = true ∧ p.posted.op = .put ∧ Absorbed s := by
  let J := smallJob .request false 0
  let p : RequestPtr := ⟨1, ⟨.put, ⟨0, 0⟩, 0, 32767, .user 0, 2, 0⟩, some 5⟩
  have admitted : System.Admitted (Orderly fourBytes) (start J) (putLoopback 23) := by
    decide +kernel
  have played : (run (start J) (putLoopback 23)).map (fun s => s.shared.client.accepted p) =
      some true := by decide +kernel
  obtain ⟨s, reached, accepted⟩ := reach_probe admitted played
  exact ⟨s, p, reached, accepted, rfl, puts_absorbed rfl reached⟩

/-- A process allocates its only device, puts to itself, and makes progress. -/
def putOnce (putComp : Option Comp) (len : Int) (n : Nat) :
    List (machine (smallJob .request false 0)).Event :=
  let J := smallJob .request false 0
  let t : Tid := ⟨0, 0⟩
  let p : RequestPtr := { firstPutRecv.request with completion := putComp }
  .intr t (.call (.allocDevice 4 putComp)) :: steps J t 10 ++
    .intr t (.call (.put ⟨0, 0⟩ 0 (.user 0) len (some 5) 0)) :: steps J t 8 ++
    .env (.deliver 0 { firstPutRecv with request := p }) ::
      .intr t (.call (.doProgress ⟨0, 0⟩)) :: steps J t n

/-- The failure an operation stops the process with. -/
def Op.failure : Op → Option Failure
  | .abort f => some f
  | _ => none

theorem not_absorbed {t : Tid} {d : Dev} {a : Option RequestPtr} {f : Failure}
    (inside : s.shared.client.acts t = [⟨.doProgress d, a⟩])
    (stops : (nextOp s t).bind Op.failure = some f) (own : ¬ f.OfUser) : ¬ Absorbed s := by
  intro absorbed
  obtain ⟨o, next, failure⟩ := Option.bind_eq_some_iff.mp stops
  cases o with
  | abort g =>
    obtain rfl := Option.some.inj failure
    exact own (absorbed.handled t d a [] g inside next)
  | _ => cases failure

/-- Without a completion object `do_progress` stops at the signal of a put, and with one at the
test of a put of five bytes into four; `put` has returned true for both. -/
theorem unfit_puts_accepted :
    (∃ s p, Reach (fun _ _ => True) (start (smallJob .request false 0)) s ∧
      s.shared.client.accepted p = true ∧ p.posted.op = .put ∧ p.posted.length = 2 ∧
        s.shared.devs.putComp p.posted.device = none ∧ ¬ Absorbed s) ∧
    ∃ s p, Reach (fun _ _ => True) (start (smallJob .request false 0)) s ∧
      s.shared.client.accepted p = true ∧ p.posted.op = .put ∧ p.posted.length = 5 ∧
        s.shared.devs.putComp p.posted.device = some 7 ∧ ¬ Absorbed s := by
  let J := smallJob .request false 0
  let t : Tid := ⟨0, 0⟩
  let p (len : Int) : RequestPtr := ⟨1, ⟨.put, ⟨0, 0⟩, 0, 32767, .user 0, len, 0⟩, some 5⟩
  let shows (len : Int) (s : (machine J).State) := (s.shared.client.accepted (p len),
    s.shared.devs.putComp ⟨0, 0⟩, s.shared.client.acts t, (nextOp s t).bind Op.failure)
  have unnamed : (run (start J) (putOnce none 2 22)).map (shows 2) = some (true, none,
      [⟨.doProgress ⟨0, 0⟩, none⟩],
      some (.nullCompletion { firstPutRecv.request with completion := none })) := by
    decide +kernel
  have long : (run (start J) (putOnce (some 7) 5 7)).map (shows 5) = some (true, some 7,
      [⟨.doProgress ⟨0, 0⟩, none⟩], some (.mpiTestFailed (some firstPutRecv))) := by
    decide +kernel
  constructor
  · obtain ⟨s, reached, found⟩ := reach_probe_any unnamed
    simp only [shows, Prod.mk.injEq] at found
    obtain ⟨accepted, comp, inside, stops⟩ := found
    exact ⟨s, p 2, reached, accepted, rfl, rfl, comp,
      not_absorbed inside stops (by simp [Failure.OfUser, firstPutRecv])⟩
  · obtain ⟨s, reached, found⟩ := reach_probe_any long
    simp only [shows, Prod.mk.injEq] at found
    obtain ⟨accepted, comp, inside, stops⟩ := found
    exact ⟨s, p 5, reached, accepted, rfl, rfl, comp,
      not_absorbed inside stops (by simp [Failure.OfUser, firstPutRecv])⟩

end Loopback

end Lcw.Mpi
