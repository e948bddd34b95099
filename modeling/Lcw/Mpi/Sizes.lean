/- digest: The sizes that completions report, over the whole range that the wrapper admits. -/

import Lcw.Mpi.LedgerApi

set_option autoImplicit false
set_option relaxedAutoImplicit false

namespace Lcw.Mpi

open Interleave Interleave.System
open Function (update)

variable {cfg : Config} {s : (machine cfg).State}

section Count

/-- `MPI_Get_count` is exact for what fits an `int`. -/
theorem getCount_eq_iff (negative : cfg.undefined < 0) (st : Status) :
    getCount cfg st = st.bytes ↔ st.bytes ≤ intMax := by
  unfold getCount
  split
  · rename_i small
    exact ⟨fun _ => small, fun _ => rfl⟩
  · rename_i large
    constructor
    · intro same
      omega
    · intro small
      exact absurd small large

theorem toSize_getCount (negative : cfg.undefined < 0) (int : -2 ^ 31 ≤ cfg.undefined)
    {st : Status} (admitted : st.bytes / intMax < intMax) :
    toSize (getCount cfg st) = st.bytes ↔ st.bytes ≤ intMax := by
  unfold getCount toSize intMax at *
  split <;> omega

end Count

section Reports

/-- The message that MPI reported for the receive that a completion is for. -/
def Received (w : World) (x : Delivery) (m : Message) : Prop :=
  ∃ st, w.net.result x.origin = some st ∧ st.message = some m

theorem delivered_length (h : Reach (fun _ _ => True) (start cfg) s)
    (request : cfg.compType = .request) {c : Comp} {x : Delivery}
    (told : x ∈ s.shared.store.delivered c)
    (op : x.origin.posted.op = .recv ∨ x.origin.posted.op = .putSignal) {m : Message}
    (received : Received s.shared x m) :
    ∃ st : Status, st.bytes = m.payload.length ∧ x.request.length = getCount cfg st := by
  have books := (ledgered_of_reach h).books
  obtain ⟨st, result, user, signal⟩ := (books.contents.delivered c x told).reported
  obtain ⟨st', result', message⟩ := received
  have same : st' = st := Option.some.inj (result'.symm.trans result)
  subst same
  refine ⟨st', by simp [Status.bytes, message], ?_⟩
  rcases op with op | op
  · have final := user (by simp [op])
    simp only [final, finalRequest, request, op, Lcw.Mpi.received]
  · obtain ⟨k, final, -⟩ := signal op
    simp only [final, Lcw.Mpi.received]

theorem allocated_size (h : Reach (fun _ _ => True) (start cfg) s) {t : Tid} {n : Nat}
    (next : nextOp s t = some (.allocate n)) : ∃ d st m, Controls t s.shared d ∧
      s.shared.net.phase d = .taken st ∧ st.message = some m ∧
        m.payload.length / intMax < intMax ∧ n = toSize (getCount cfg st) := by
  obtain ⟨d, v, st, own, took, size⟩ :=
    ((ledgered_of_reach h).pre t _ next).2
  obtain ⟨m, message, ok, -⟩ := took.stored
  have own : slotOf t s.shared d = some v := own
  unfold slotOf at own
  split at own
  · rename_i controls
    cases own
    exact ⟨d, st, m, controls, took.phase, message, ok.admitted, size⟩
  · cases own

/-- A completed receive reports the size of its message, and `do_progress` allocates that many
bytes for a put, exactly when the size fits an `int`. -/
theorem reported_sizes_iff (request : cfg.compType = .request) (negative : cfg.undefined < 0)
    (int : -2 ^ 31 ≤ cfg.undefined) (h : Reach (fun _ _ => True) (start cfg) s) :
    (∀ c, ∀ x ∈ s.shared.store.delivered c, ∀ m, Received s.shared x m →
      x.origin.posted.op = .recv ∨ x.origin.posted.op = .putSignal →
        (x.request.length = m.payload.length ↔ m.payload.length ≤ intMax)) ∧
    ∀ t n, nextOp s t = some (.allocate n) → ∃ d st m, Controls t s.shared d ∧
      s.shared.net.phase d = .taken st ∧ st.message = some m ∧
        (n = m.payload.length ↔ m.payload.length ≤ intMax) := by
  constructor
  · intro c x told m received op
    obtain ⟨st, bytes, length⟩ := delivered_length h request told op received
    have exact_iff := getCount_eq_iff negative st
    rw [bytes] at exact_iff
    rw [length]
    exact exact_iff
  · intro t n next
    obtain ⟨d, st, m, controls, taken, message, admitted, size⟩ := allocated_size h next
    have bytes : st.bytes = m.payload.length := by simp [Status.bytes, message]
    have small : st.bytes / intMax < intMax := bytes ▸ admitted
    have exact_iff := toSize_getCount negative int small
    rw [bytes] at exact_iff
    refine ⟨d, st, m, controls, taken, message, ?_⟩
    rw [size]
    exact exact_iff

end Reports

section Loopback

/-- A thread's successful test of a request other than a put receive. -/
def passTest (t : Tid) (h : Handle) (s : (machine cfg).State) : (machine cfg).State :=
  match s.prog t, (s.shared.net.reqs h).map MpiRequest.state with
  | .op (.test (some _)) k, some (.complete st) =>
    match s.shared.net.reqs h with
    | some q => ⟨(s.shared.setReq h { q with state := .consumed }).setResult h.request st,
        update s.prog t (k (.done st))⟩
    | none => s
  | _, _ => s

theorem step_passTest {t : Tid} {h : Handle} {q : MpiRequest} {st : Status}
    (next : nextOp s t = some (.test (some h))) (hq : s.shared.net.reqs h = some q)
    (complete : q.state = .complete st) (ok : st.error = false)
    (op : h.request.posted.op ≠ .putSignal) :
    System.step s (.exec t) = some (passTest t h s) := by
  obtain ⟨k, hk⟩ := nextOp_eq_some.mp next
  simp only [System.step, passTest, hk, hq, Option.map_some, complete, exec, World.test, ok,
    if_neg op]
  rfl

/-- The receive of `n` bytes that `loopback` posts. -/
def loopbackRecv (n : Int) : Handle :=
  ⟨1, ⟨⟨0, 0⟩, 0⟩, ⟨1, ⟨.recv, ⟨0, 0⟩, 0, 5, .user 1, n, 0⟩, some 0⟩⟩

/-- A process posts a receive of `n` bytes and sends itself as many; the message is delivered, and
`do_progress` is about to test the receive. -/
def loopback (n : Int) : List (machine (smallJob .request false 0)).Event :=
  let J := smallJob .request false 0
  let d : Dev := ⟨0, 0⟩
  let t : Tid := ⟨0, 0⟩
  .intr t (.call (.allocDevice 4 (some 7))) :: steps J t 10 ++
    .intr t (.call (.recv d 0 5 (.user 1) n (some 0) 0)) :: steps J t 8 ++
    .intr t (.call (.send d 0 5 (.user 0) n (some 0) 0)) :: steps J t 8 ++
    .env (.deliver 0 (loopbackRecv n)) :: .intr t (.call (.doProgress d)) :: steps J t 12


/-- The length of the send whose message a status is about. -/
def Status.sentLength (st : Status) : Option Int :=
  st.message.map fun m => m.request.posted.length

/-- The length of the send whose message a receive has got. -/
def MpiRequest.gotLength (q : MpiRequest) : Option Int :=
  match q.isRecv, q.state with
  | true, .complete st => st.sentLength
  | _, _ => none

def Op.tested : Op → Option Handle
  | .test h => h
  | _ => none

theorem MpiRequest.gotLength_eq_some {q : MpiRequest} {n : Int} (h : q.gotLength = some n) :
    q.isRecv = true ∧ ∃ st, q.state = .complete st ∧ st.sentLength = some n := by
  unfold gotLength at h
  split at h
  · rename_i st recv complete
    exact ⟨recv, st, complete, h⟩
  · cases h

section Measured

variable {P : PutRules cfg} {w : World}

/-- The message of a receive's status has the length of the send it was made by. -/
theorem Status.Ok.measured {h : Handle} {q : MpiRequest} {st : Status} (ok : st.Ok P w h q)
    (recv : q.isRecv = true) {n : Int} (sent : st.sentLength = some n) :
    (st.error = true ↔ q.layout.length < toSize n) ∧
      ∃ m, st.message = some m ∧ m.payload.length = toSize n := by
  obtain ⟨m, reported⟩ := ok.recv recv
  have length := reported.ok.length
  unfold Status.sentLength at sent
  rw [reported.message, Option.map_some, Option.some.injEq] at sent
  rw [sent] at length
  exact ⟨length ▸ reported.error, m, reported.message, length⟩

end Measured

/-- A receive of four bytes is completed with length four. -/
theorem reported_sizes_iff_four : ∃ s,
    Reach (fun _ _ => True) (start (smallJob .request false 0)) s ∧ ∃ x m,
      x ∈ s.shared.store.delivered 0 ∧ Received s.shared x m ∧ m.payload.length = 4 ∧
        x.request.length = 4 := by
  let J := smallJob .request false 0
  let p := (loopbackRecv 4).request
  have played : (run (start J) (loopback 4 ++ steps J ⟨0, 0⟩ 8)).map (fun s =>
      ((s.shared.store.delivered 0).map Delivery.origin,
        ((s.shared.net.result p).bind Status.message).map fun m => m.payload.length)) =
        some ([p], some 4) := by
    decide +kernel
  obtain ⟨s, reached, found⟩ := reach_probe_any played
  obtain ⟨x, told, origin⟩ := List.map_eq_singleton_iff.mp (congrArg Prod.fst found)
  obtain ⟨m, reported, size⟩ := Option.map_eq_some_iff.mp (congrArg Prod.snd found)
  obtain ⟨st, result, message⟩ := Option.bind_eq_some_iff.mp reported
  have here : x ∈ s.shared.store.delivered 0 := by simp [told]
  have received : Received s.shared x m := ⟨st, by rw [origin]; exact result, message⟩
  have op : x.origin.posted.op = .recv := by rw [origin]; rfl
  have exact_iff := (reported_sizes_iff rfl (by decide) (by decide) reached).1 0 x here m received
    (.inl op)
  refine ⟨s, reached, x, m, here, received, size, ?_⟩
  rw [size] at exact_iff
  exact exact_iff.mpr (by decide)

/-- The receive of `2 ^ 31` bytes is completed with another length. -/
theorem large_receive_misreported : ∃ s,
    Reach (fun _ _ => True) (start (smallJob .request false 0)) s ∧ ∃ x m,
      x ∈ s.shared.store.delivered 0 ∧ x.origin.posted.op = .recv ∧
        x.origin.posted.length = 2 ^ 31 ∧ Received s.shared x m ∧ m.payload.length = 2 ^ 31 ∧
          x.request.length ≠ 2 ^ 31 := by
  let J := smallJob .request false 0
  let t : Tid := ⟨0, 0⟩
  let large := loopbackRecv 2147483648
  have before : (run (start J) (loopback 2147483648)).map (fun s =>
      ((nextOp s t).bind Op.tested, (s.shared.net.reqs large).bind MpiRequest.gotLength)) =
        some (some large, some 2147483648) := by
    decide +kernel
  have after : (run (start J) (loopback 2147483648)).bind (fun s =>
      (run (passTest t large s) (steps J t 7)).map fun s =>
        ((s.shared.store.delivered 0).map Delivery.origin,
          (s.shared.net.result large.request).bind Status.sentLength)) =
        some ([large.request], some 2147483648) := by
    decide +kernel
  obtain ⟨s, played, found⟩ := Option.map_eq_some_iff.mp before
  have reached := reach_run played (admitted_of_forall (fun _ _ => trivial) _ _)
  obtain ⟨o, next, tested⟩ := Option.bind_eq_some_iff.mp (congrArg Prod.fst found)
  obtain ⟨q, hq, got⟩ := Option.bind_eq_some_iff.mp (congrArg Prod.snd found)
  obtain ⟨recv, st, complete, sent⟩ := MpiRequest.gotLength_eq_some got
  have test : nextOp s t = some (.test (some large)) := by
    cases o with
    | test h => exact next.trans (congrArg (fun h => some (Op.test h)) tested)
    | _ => cases tested
  -- The message is as long as the receive, so the test succeeds.
  have books := (ledgered_of_reach reached).books
  have error := ((books.matching.complete large q st hq complete).measured recv sent).1
  rw [(books.matching.req large q hq).layout recv, length_consecutive] at error
  have fits : st.error = false := by
    rw [← Bool.not_eq_true, error]
    decide
  have step := step_passTest test hq complete fits (by decide)
  rw [played, Option.bind_some] at after
  obtain ⟨s', played', found'⟩ := Option.map_eq_some_iff.mp after
  have reached' := (reached.step _ trivial step).trans
    (reach_run played' (admitted_of_forall (fun _ _ => trivial) _ _))
  have books' := (ledgered_of_reach reached').books
  obtain ⟨x, told, origin⟩ := List.map_eq_singleton_iff.mp (congrArg Prod.fst found')
  obtain ⟨st', result, sent'⟩ := Option.bind_eq_some_iff.mp (congrArg Prod.snd found')
  have here : x ∈ s'.shared.store.delivered 0 := by simp [told]
  have op : x.origin.posted.op = .recv := by rw [origin]; rfl
  rcases books'.matching.result _ _ result with ⟨rfl, -⟩ | ⟨h, q', request, hq', -, ok⟩
  · cases sent'
  · have recv' := (books'.matching.req h q' hq').recv.mpr (by rw [request]; exact .inl rfl)
    obtain ⟨m, message, size⟩ := (ok.measured recv' sent').2
    have received : Received s'.shared x m := ⟨st', by rw [origin]; exact result, message⟩
    obtain ⟨st'', bytes, length⟩ := delivered_length reached' rfl here (.inl op) received
    refine ⟨s', reached', x, m, here, op, by rw [origin]; rfl, received, size, ?_⟩
    rw [length, getCount, if_neg (by rw [bytes, size]; decide)]
    decide

end Loopback

end Lcw.Mpi
