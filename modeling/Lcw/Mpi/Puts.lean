/- digest: The one-sided put protocol: one receive a device, one PUT_SIGNAL a put. -/

import Lcw.Mpi.Tracking

set_option autoImplicit false
set_option relaxedAutoImplicit false

namespace Lcw.Mpi

open Interleave System

variable {cfg : Config} {P : PutRules cfg} {w : World} {d : Dev} {h : Handle} {q : MpiRequest}

/-- A receive into `put_rbuf` that MPI has not handed back. -/
structure Receiving (w : World) (d : Dev) (h : Handle) (q : MpiRequest) : Prop where
  req : w.net.reqs h = some q
  live : q.state ≠ .consumed
  recv : q.isRecv = true
  buffer : q.buffer = .putRbuf d

/-- A completion reports a message that was put: who sent it, its length, and in a block allocated
for it its bytes. -/
structure Reports (w : World) (x : Delivery) (d : Dev) (m : Message) : Prop where
  op : x.request.op = .putSignal
  device : x.request.device = d
  rank : x.request.rank = m.src
  length : x.request.length = m.payload.length
  block : ∃ k, x.request.buffer = .heap k ∧ w.memory.given k = some x.origin
  contents : x.contents = m.payload

/-- A put receive that MPI handed back waits with a thread inside a call for its signal, or has
told the completion object of its device, once. -/
def Answered (w : World) (h : Handle) (m : Message) : Prop :=
  (∃ t, w.store.stage h.request = .owned t .held ∧ w.client.acts t ≠ []) ∨
    ∃ c, w.devs.putComp h.comm.device = some c ∧
      (∀ c', (w.store.delivered c').countP (fun x => x.origin = h.request) =
        if c = c' then 1 else 0) ∧
      ∃ x ∈ w.store.delivered c, x.origin = h.request ∧ Reports w x h.comm.device m

/-- The message of the put `p` was received by the put receive a delivery completes. -/
def ComesFrom (w : World) (x : Delivery) (p : RequestPtr) : Prop :=
  ∃ h, w.net.route p = .matched h ∧ h.request = x.origin

variable (P) in
/-- The put protocol between any processes and devices. -/
structure PutProtocol (w : World) : Prop where
  listening : ∀ d, w.devs.published d = true → w.sync.owner (.put d) = none →
    ∃ e h q, w.store.slot d = some e ∧ e.mpiReq = some h ∧ Receiving w d h q
  alone : ∀ d h q h' q', Receiving w d h q → Receiving w d h' q' → h = h'
  copied : ∀ d h q, Receiving w d h q → ∀ st, w.net.phase d ≠ .taken st
  answered : ∀ p h q, p.posted.op = .put → w.net.route p = .matched h →
    w.net.reqs h = some q → q.state = .consumed → ∃ m, m.request = p ∧ m.Ok P ∧
      m.dst = h.comm.device.rank ∧ m.context = h.comm.context ∧ Answered w h m
  origin : ∀ c, ∀ x ∈ w.store.delivered c, x.request.op = .putSignal →
    ∃ p, p.posted.op = .put ∧ ComesFrom w x p ∧ ∀ p', ComesFrom w x p' → p' = p
  distinct : ∀ c c' x x' p, x ∈ w.store.delivered c → x' ∈ w.store.delivered c' →
    ComesFrom w x p → ComesFrom w x' p → x.origin = x'.origin

section Slot

/-- Only put receives go into a device's `put_rbuf`. -/
theorem Books.receiving (b : Books P w) (hr : Receiving w d h q) :
    h.request.posted.op = .putSignal ∧ h.comm.device = d ∧
      (w.net.phase d = .reposted h ∨ w.net.phase d = .armed ∧
        ∃ e, w.store.slot d = some e ∧ e.mpiReq = some h) := by
  have ok := b.matching.req h q hr.req
  have buffer : h.request.posted.buffer = .putRbuf d := ok.buffer.symm.trans hr.buffer
  have op : h.request.posted.op = .putSignal := by
    by_contra user
    have born : w.store.stage h.request ≠ .unborn := by
      intro unborn
      have begun := ok.begun
      simp [unborn, Stage.begun] at begun
    have open_to_user := b.calls.buffer h.request user born
    rw [buffer] at open_to_user
    cases open_to_user
  have out := (b.slots.listening h.comm.device).out h q hr.req hr.live op rfl
  have loaded : ∃ q', Loaded w h.comm.device h q' := by
    rcases out with reposted | ⟨armed, e, slot, handle⟩
    · exact (b.slots.listening _).reposted h reposted
    · obtain ⟨e', x, q', slot', handle', loaded, -⟩ := (b.slots.listening _).armed armed
      obtain rfl : e = e' := Option.some.inj (slot.symm.trans slot')
      obtain rfl : h = x := Option.some.inj (handle.symm.trans handle')
      exact ⟨q', loaded⟩
  obtain ⟨q', loaded⟩ := loaded
  have device : h.comm.device = d := Buffer.putRbuf.inj (loaded.buffer.symm.trans buffer)
  subst device
  exact ⟨op, rfl, out⟩

theorem Books.receiving_alone (b : Books P w) {h' : Handle} {q' : MpiRequest}
    (hr : Receiving w d h q) (hr' : Receiving w d h' q') : h = h' := by
  obtain ⟨-, -, out⟩ := b.receiving hr
  obtain ⟨-, -, out'⟩ := b.receiving hr'
  rcases out with phase | ⟨phase, e, slot, handle⟩
  · rcases out' with phase' | ⟨phase', -⟩
    · exact Phase.reposted.inj (phase.symm.trans phase')
    · cases phase.symm.trans phase'
  · rcases out' with phase' | ⟨-, e', slot', handle'⟩
    · cases phase.symm.trans phase'
    · obtain rfl : e = e' := Option.some.inj (slot.symm.trans slot')
      exact Option.some.inj (handle.symm.trans handle')

theorem Books.receiving_copied (b : Books P w) (hr : Receiving w d h q) (st : Status) :
    w.net.phase d ≠ .taken st := by
  intro taken
  obtain ⟨-, -, reposted | ⟨armed, -⟩⟩ := b.receiving hr
  · cases taken.symm.trans reposted
  · cases taken.symm.trans armed

theorem Books.slot_receiving (b : Books P w) (ready : w.devs.published d = true)
    (idle : w.sync.owner (.put d) = none) :
    ∃ e h q, w.store.slot d = some e ∧ e.mpiReq = some h ∧ Receiving w d h q := by
  obtain ⟨built, born⟩ := b.slots.published d ready
  have armed : w.net.phase d = .armed := (b.slots.free d idle built).resolve_left born
  obtain ⟨e, h, q, slot, handle, loaded, -⟩ := (b.slots.listening d).armed armed
  have ok := b.matching.req h q loaded.req
  exact ⟨e, h, q, slot, handle, loaded.req, loaded.live, ok.recv.mpr (.inr loaded.op),
    ok.buffer.trans loaded.buffer⟩

end Slot

section Answers

variable {st : Status} {m : Message} {x : Delivery} {c : Comp} {p : RequestPtr}

theorem finalRequest_op (p : RequestPtr) (st : Status) :
    (finalRequest cfg p st).op = p.posted.op := by
  unfold finalRequest
  split <;> rfl

/-- The status of a put receive is about the message that was put to it. -/
theorem Books.put_status (b : Books P w) (k : Tracked P w)
    (hq : w.net.reqs h = some q) (op : h.request.posted.op = .putSignal)
    (result : w.net.result h.request = some st) :
    q.state = .consumed ∧ ∃ m, Message.For P w h q st m := by
  rcases b.matching.result _ st result with ⟨-, user⟩ | ⟨h', q', same, hq', gone, ok⟩
  · exact absurd op user
  · obtain rfl := k.own h' h (by simp [hq']) (by simp [hq]) same
    obtain rfl := Option.some.inj (hq'.symm.trans hq)
    have recv := (b.matching.req h' q' hq').recv.mpr (.inr op)
    exact ⟨gone, ok.recv recv⟩

/-- What a put receive told a completion object. -/
theorem Books.reports (b : Books P w) (on : P.on = true) (hq : w.net.reqs h = some q)
    (op : h.request.posted.op = .putSignal) (result : w.net.result h.request = some st)
    (got : Message.For P w h q st m) (told : x ∈ w.store.delivered c)
    (own : x.origin = h.request) : Reports w x h.comm.device m := by
  obtain ⟨st', result', -, signal⟩ := (b.contents.delivered c x told).reported
  rw [own] at result' signal
  obtain rfl := Option.some.inj (result'.symm.trans result)
  obtain ⟨k, request, given, payload⟩ := signal op
  obtain ⟨m', message, contents⟩ := payload on
  obtain rfl : m' = m := Option.some.inj (message.symm.trans got.message)
  have ok := b.matching.req h q hq
  obtain ⟨-, small, -⟩ := got.fits on ok op
  have bytes : st'.bytes = m'.payload.length := by simp [Status.bytes, message]
  refine ⟨?_, ?_, ?_, ?_, ⟨k, ?_, own ▸ given⟩, contents⟩
  · rw [request]
    exact op
  · rw [request]
    exact ok.device.symm
  · rw [request]
    exact got.source
  · rw [request]
    show getCount cfg st' = _
    rw [getCount, bytes, if_pos small]
  · rw [request]

theorem Books.answered (b : Books P w) (g : Signalling w) (on : P.on = true)
    (named : ∀ p, (w.store.stage p).told = true → p.completion ≠ none)
    (hq : w.net.reqs h = some q) (op : h.request.posted.op = .putSignal)
    (result : w.net.result h.request = some st) (got : Message.For P w h q st m) :
    Answered w h m := by
  rcases g.taken h.request op (by simp [result]) with told | ⟨t, held⟩
  · have ok := b.matching.req h q hq
    have born : w.store.stage h.request ≠ .unborn := by
      intro unborn
      simp [unborn, Stage.told] at told
    obtain ⟨c, completion⟩ := Option.ne_none_iff_exists'.mp (named _ told)
    have home := g.home h.request op born
    rw [completion, ← ok.device] at home
    have place : toldTo w h.request = some c := by rw [toldTo, if_pos told, completion]
    refine .inr ⟨c, home.symm, fun c' => ?_, ?_⟩
    · have count := b.filed.told c' h.request
      rw [place] at count
      rw [count]
      by_cases e : c = c' <;> simp [e]
    · obtain ⟨x, hx, own⟩ := b.filed.told.exists_mem place
      exact ⟨x, hx, own, b.reports on hq op result got hx own⟩
  · exact .inl ⟨t, held, b.calls.owned _ t _ held⟩

/-- A PUT_SIGNAL was received for a put. -/
theorem Books.origin (b : Books P w) (k : Tracked P w) (on : P.on = true)
    (told : x ∈ w.store.delivered c) (signal : x.request.op = .putSignal) :
    ∃ p, p.posted.op = .put ∧ ComesFrom w x p ∧ ∀ p', ComesFrom w x p' → p' = p := by
  obtain ⟨st, result, user, -⟩ := (b.contents.delivered c x told).reported
  have op : x.origin.posted.op = .putSignal := by
    by_contra other
    rw [user other, finalRequest_op] at signal
    exact other signal
  rcases b.matching.result _ st result with ⟨-, other⟩ | ⟨h, q, own, hq, gone, ok⟩
  · exact absurd op other
  · have opHandle : h.request.posted.op = .putSignal := own ▸ op
    have okq := b.matching.req h q hq
    obtain ⟨m, got⟩ := ok.recv (okq.recv.mpr (.inr opHandle))
    refine ⟨m.request, got.isPut (P.both on) okq opHandle, ⟨h, got.route, own⟩, ?_⟩
    rintro p' ⟨h', route, own'⟩
    obtain ⟨q', st', m', met⟩ := k.met p' h' route
    obtain rfl := k.own h' h (by simp [met.req]) (by simp [hq]) (own'.trans own.symm)
    obtain rfl := Option.some.inj (met.req.symm.trans hq)
    rcases met.done with done | ⟨-, reported⟩
    · simp [gone] at done
    · rw [own, result] at reported
      obtain rfl := Option.some.inj reported
      obtain rfl := Option.some.inj (met.message.symm.trans got.message)
      exact met.sender.symm

end Answers

/-- In every run whose puts are within the limits of their devices, the put protocol holds. -/
theorem put_protocol {s : (machine cfg).State} (on : P.on = true)
    (h : Reach (Orderly P) (start cfg) s) : PutProtocol P s.shared := by
  have b := books_of_reach h
  obtain ⟨k, g⟩ := tracked_of_reach h
  refine
    { listening := fun d ready idle => b.slot_receiving ready idle
      alone := fun d h q h' q' => b.receiving_alone
      copied := fun d h q hr => b.receiving_copied hr
      answered := fun p x q put route hq gone => ?_
      origin := fun c x told => b.origin k on told
      distinct := fun c c' x x' p _ _ ⟨y, hy, own⟩ ⟨y', hy', own'⟩ => ?_ }
  · obtain ⟨q', st, m, met⟩ := k.met p x route
    obtain rfl := Option.some.inj (met.req.symm.trans hq)
    have op := met.put (P.both on) put
    rcases met.done with done | ⟨-, result⟩
    · simp [gone] at done
    obtain ⟨-, m', got⟩ := b.put_status k hq op result
    obtain rfl := Option.some.inj (met.message.symm.trans got.message)
    exact ⟨m, met.sender, got.ok, got.dst, got.context,
      b.answered g on (named_of_reach h) hq op result got⟩
  · obtain rfl := Route.matched.inj (hy.symm.trans hy')
    exact own.symm.trans own'

section Loopback

instance PutFits.decidable (len : Int) (dest : Rank) (context : Nat) :
    Decidable (PutFits P len dest context) :=
  @decidable_of_iff _ (-2 ^ 63 ≤ len ∧ len ≤ (intMax : Int) ∧ len ≤ (P.size dest context : Int))
    ⟨fun ⟨a, b, c⟩ => ⟨a, b, c⟩, fun h => ⟨h.typed, h.small, h.size⟩⟩
    (@instDecidableAnd _ _ (Int.decLe _ _) (@instDecidableAnd _ _ (Int.decLe _ _) (Int.decLe _ _)))

instance UserTag.decidable (tag : Int) : Decidable (UserTag cfg tag) :=
  @instDecidableAnd _ _ (Int.decLe _ _) (Int.decLt _ _)

/-- The device an operation writes. -/
def Op.initialised : Op → Option (Dev × Device)
  | .initDevice d dev => some (d, dev)
  | _ => none

theorem orderly_exec_iff (s : (machine cfg).State) (t : Tid) :
    (∀ x ∈ (nextOp s t).bind Op.initialised, P.on = true →
      x.2.putRbufSize = P.size x.1.rank x.2.comm.context) ↔ Orderly P s (.exec t) := by
  simp only [Orderly]
  cases nextOp s t with
  | none => simp
  | some o => cases o <;> simp [Op.initialised]

instance Orderly.decidable (s : (machine cfg).State) :
    (e : (machine cfg).Event) → Decidable (Orderly P s e)
  | .exec t => decidable_of_iff _ (orderly_exec_iff s t)
  | .intr _ (.call (.send _ _ tag ..)) | .intr _ (.call (.recv _ _ tag ..)) =>
    inferInstanceAs (Decidable (P.tagged = true → UserTag cfg tag))
  | .intr _ (.call (.put d rank _ len ..)) =>
    inferInstanceAs (Decidable (P.on = true → ∀ dev ∈ s.shared.devs.table d,
      PutFits P len (toInt rank).toNat dev.comm.context))
  | .intr _ (.call (.allocDevice _ c)) => inferInstanceAs (Decidable (P.on = true → c ≠ none))
  | .intr _ (.call (.doProgress _)) | .intr _ (.call (.pollCq _)) | .intr _ (.call (.barrier _))
  | .intr _ (.call (.freeDevice _)) | .intr _ (.continuation ..) | .env _ => .isTrue trivial

/-- One device on each context, with four bytes for puts. -/
def fourBytes : PutRules (smallJob .request false 0) where
  on := true
  tagged := true
  size _ _ := 4
  both _ := rfl
  tags _ := by decide

/-- A process puts two bytes to itself and makes progress. -/
def putLoopback (n : Nat) : List (machine (smallJob .request false 0)).Event :=
  let J := smallJob .request false 0
  let t : Tid := ⟨0, 0⟩
  .intr t (.call (.allocDevice 4 (some 7))) :: steps J t 10 ++
    .intr t (.call (.put ⟨0, 0⟩ 0 (.user 0) 2 (some 5) 0)) :: steps J t 8 ++
    .env (.deliver 0 firstPutRecv) :: .intr t (.call (.doProgress ⟨0, 0⟩)) :: steps J t n

/-- A put of two bytes has been signalled. -/
theorem put_protocol_loopback : ∃ s, Reach (Orderly fourBytes) (start (smallJob .request false 0)) s ∧
    (s.shared.store.delivered 7).length = 1 ∧ PutProtocol fourBytes s.shared := by
  let J := smallJob .request false 0
  have admitted : System.Admitted (Orderly fourBytes) (start J) (putLoopback 23) := by
    decide +kernel
  have played : (run (start J) (putLoopback 23)).map
      (fun s => (s.shared.store.delivered 7).length) = some 1 := by decide +kernel
  obtain ⟨s, reached, told⟩ := reach_probe admitted played
  exact ⟨s, reached, told, put_protocol rfl reached⟩

end Loopback

end Lcw.Mpi
