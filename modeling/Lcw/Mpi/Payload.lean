/- digest: The bytes a receive holds when its completion is told are the bytes that were sent. -/

import Lcw.Mpi.Exchange
import Lcw.Mpi.Safety

set_option autoImplicit false
set_option relaxedAutoImplicit false

namespace Lcw.Mpi

open Interleave System
open Function (update)

variable {cfg : Config} {P : PutRules cfg} {t : Tid} {w w' : World} {p : RequestPtr}

/-- An operation of the client MPI has been given, until its completion is told. -/
structure InProgress (w : World) (p : RequestPtr) : Prop where
  user : p.posted.op ≠ .putSignal
  begun : (w.store.stage p).begun = true
  untold : (w.store.stage p).told = false

/-- MPI's rule for buffers, which the client keeps: a buffer is as long as the operation says, and
while a receive into it is in progress no other operation is started on it, nor a receive while
any is; and the client does not write it meanwhile. -/
def HandsOff (s : (machine cfg).State) : (machine cfg).Event → Prop
  | .exec t => match nextOp s t with
    | some (.isend a _ _ _ _ _ p) =>
      toSize p.posted.length ≤ (s.shared.memory.bytes a).length ∧
        ∀ p', InProgress s.shared p' → p'.posted.op = .recv → p'.posted.buffer ≠ a
    | some (.irecv a _ _ _ _ _ p) => p.posted.op = .recv →
      toSize p.posted.length ≤ (s.shared.memory.bytes a).length ∧
        ∀ p', InProgress s.shared p' → p'.posted.buffer ≠ a
    | _ => True
  | .env (.write b _) => ∀ p, InProgress s.shared p → p.posted.buffer ≠ b
  | _ => True

/-- A message that is on its way or has been received. -/
def Afoot (w : World) (m : Message) : Prop :=
  m ∈ w.net.inflight ∨ ∃ h st, w.got h = some st ∧ st.message = some m

/-- A receive got a whole message. -/
structure Whole (w : World) (h : Handle) (m : Message) : Prop where
  got : ∃ st, w.got h = some st ∧ st.message = some m ∧ st.error = false
  op : h.request.posted.op = .recv

/-- The bytes of every message are where its send and its receive have them, and were there when
their completions were told. -/
structure Intact (w : World) : Prop where
  apart : ∀ p p', InProgress w p → InProgress w p' → p.posted.op = .recv → p ≠ p' →
    p.posted.buffer ≠ p'.posted.buffer
  room : ∀ p, InProgress w p → toSize p.posted.length ≤ (w.memory.bytes p.posted.buffer).length
  source : ∀ m, Afoot w m → InProgress w m.request →
    m.payload <+: w.memory.bytes m.request.posted.buffer
  target : ∀ h m, Whole w h m → InProgress w h.request →
    m.payload <+: w.memory.bytes h.request.posted.buffer
  sent : ∀ m, Afoot w m → ∀ c, ∀ x ∈ w.store.delivered c, x.origin = m.request →
    m.payload <+: x.contents
  taken : ∀ h m, Whole w h m → ∀ c, ∀ x ∈ w.store.delivered c, x.origin = h.request →
    m.payload <+: x.contents

section Frames

/-- Threads do not write what the client can. -/
theorem exec_bytes (h : Books P w) {o : Op} {r : o.Ret} (pre : ledgerPre P t o (account t w))
    (hx : exec cfg t o w = some (r, w')) {b : Buffer} (open_to_user : w.accessible b = true) :
    w'.memory.bytes b = w.memory.bytes b := by
  cases o with
  | memcpy dst src n =>
    cases hx
    obtain ⟨d, k, s, st, rfl, rfl, -, -, bytes, block⟩ := pre.2
    have own : blockOf t w k = some bytes := block
    unfold blockOf at own
    split at own
    · rename_i mine
      obtain ⟨free, -⟩ := h.slots.block k (by simp [mine])
      rw [World.memcpy_eq]
      refine Function.update_of_ne ?_ _ _
      rintro rfl
      simp [World.accessible, free] at open_to_user
    · cases own
  | initDevice d dev =>
    cases hx
    refine Function.update_of_ne ?_ _ _
    rintro rfl
    cases open_to_user
  | allocate n =>
    simp only [exec] at hx
    split at hx <;> cases hx <;> rfl
  | signal c q p =>
    cases hx
    rw [World.signal_eq, bytes_giveBlock]
  | _ => rw [(exec_frame hx).memory rfl]

/-- The operation a thread starts. -/
def Op.starts : Op → Option RequestPtr
  | .isend _ _ _ _ _ _ p | .irecv _ _ _ _ _ _ p => some p
  | _ => none

theorem exec_inProgress (h : Books P w) {o : Op} {r : o.Ret}
    (pre : ledgerPre P t o (account t w)) (hx : exec cfg t o w = some (r, w'))
    (after : InProgress w' p) : InProgress w p ∨ o.starts = some p := by
  have moved := exec_moved h pre hx
  have untold : (w.store.stage p).told = false := by
    by_contra told
    have still := moved.told (p := p) (by simpa using told)
    simp [after.untold] at still
  have before (begun : (w.store.stage p).begun = true) : InProgress w p :=
    ⟨after.user, begun, untold⟩
  by_cases same : w.store.stage p = w'.store.stage p
  · refine .inl (before ?_)
    rw [same]
    exact after.begun
  · cases begins : o.begins with
    | false =>
      refine .inl (before ?_)
      exact moved.begun_of_late (fun k early p => exec_early hx begins early) same
    | true =>
      cases o with
      | newRequest q c =>
        cases hx
        rw [World.newRequest_eq] at same
        have e : p = w.freshPtr q c := by
          by_contra other
          exact same (Function.update_of_ne other _ _).symm
        have begun := after.begun
        rw [World.newRequest_eq, e] at begun
        simp [Stage.begun] at begun
      | isend a n ty dest tag comm p' =>
        rcases exec_isend hx with ⟨-, rfl⟩ | ⟨-, -, rfl⟩
        · exact absurd rfl same
        · rw [World.isend_eq] at same
          have e : p = p' := by
            by_contra other
            exact same (Function.update_of_ne other _ _).symm
          exact .inr (by rw [e]; rfl)
      | irecv a n ty source tag comm p' =>
        rcases exec_irecv hx with ⟨-, rfl, -⟩ | ⟨-, rfl⟩
        · exact absurd rfl same
        · rw [World.irecv_eq] at same
          have e : p = p' := by
            by_contra other
            exact same (Function.update_of_ne other _ _).symm
          exact .inr (by rw [e]; rfl)
      | _ => cases begins

theorem finalRequest_buffer (p : RequestPtr) (st : Status) :
    (finalRequest cfg p st).buffer = p.posted.buffer := by
  unfold finalRequest
  split <;> rfl

theorem InProgress.accessible (busy : InProgress w p) (h : Books P w) :
    w.accessible p.posted.buffer = true := by
  refine h.calls.buffer p busy.user fun unborn => ?_
  have begun := busy.begun
  simp [unborn, Stage.begun] at begun

/-- Put receives that are out have the buffer of their device. -/
theorem Books.listening_buffer (h : Books P w) {x : Handle} {q : MpiRequest}
    (hq : w.net.reqs x = some q) (live : q.state ≠ .consumed)
    (op : x.request.posted.op = .putSignal) : q.buffer = .putRbuf x.comm.device := by
  refine (h.matching.req x q hq).buffer.trans ?_
  rcases (h.slots.listening x.comm.device).out x q hq live op rfl with reposted |
    ⟨armed, e, slot, handle⟩
  · obtain ⟨q', loaded⟩ := (h.slots.listening _).reposted x reposted
    exact loaded.buffer
  · obtain ⟨e', y, q', slot', handle', loaded, -⟩ := (h.slots.listening _).armed armed
    obtain rfl : e = e' := Option.some.inj (slot.symm.trans slot')
    obtain rfl : x = y := Option.some.inj (handle.symm.trans handle')
    exact loaded.buffer

end Frames

section Steps

variable {m : Message}

theorem Afoot.sent (afoot : Afoot w m) (matching : Matching P w) (routed : Routed cfg w) :
    w.net.route m.request ≠ .unsent ∧
      (m.request.posted.op = .send ∨ m.request.posted.op = .put) := by
  rcases afoot with mem | ⟨h, st, got, message⟩
  · obtain ⟨ok, flying⟩ := matching.flying m mem
    exact ⟨by simp [flying], ok.op⟩
  · obtain ⟨m', suits, route⟩ := routed.got h st got
    obtain rfl := Option.some.inj (message.symm.trans suits.message)
    exact ⟨by simp [route], suits.ok.op⟩

theorem Whole.begun {h : Handle} (whole : Whole w h m) (matching : Matching P w) :
    (w.store.stage h.request).begun = true := by
  obtain ⟨st, got, -⟩ := whole.got
  obtain ⟨q, hq, -⟩ := reqs_of_got got
  exact (matching.req h q hq).begun

/-- No operation starts, and no buffer in use changes; what is told is what the buffer holds. -/
theorem Intact.carry (h : Intact w) (matching : Matching P w) (routed : Routed cfg w)
    (progress : ∀ p, InProgress w' p → InProgress w p)
    (bytes : ∀ p, InProgress w p →
      w'.memory.bytes p.posted.buffer = w.memory.bytes p.posted.buffer)
    (got : w'.got = w.got) (inflight : w'.net.inflight = w.net.inflight)
    (delivered : ∀ c, ∀ x ∈ w'.store.delivered c, x ∈ w.store.delivered c ∨
      x.origin.posted.op = .putSignal ∨
        InProgress w x.origin ∧ x.contents = w.memory.bytes x.origin.posted.buffer) :
    Intact w' := by
  have afoot (m : Message) (hm : Afoot w' m) : Afoot w m := by
    unfold Afoot at hm
    rwa [inflight, got] at hm
  have whole (x : Handle) (m : Message) (hm : Whole w' x m) : Whole w x m := by
    refine ⟨?_, hm.op⟩
    rw [← got]
    exact hm.got
  refine ⟨fun p p' hp hp' => h.apart p p' (progress p hp) (progress p' hp'), fun p hp => ?_,
    fun m hm hp => ?_, fun x m hm hp => ?_, fun m hm c x hx own => ?_,
    fun y m hm c x hx own => ?_⟩
  · rw [bytes p (progress p hp)]
    exact h.room p (progress p hp)
  · rw [bytes _ (progress _ hp)]
    exact h.source m (afoot m hm) (progress _ hp)
  · rw [bytes _ (progress _ hp)]
    exact h.target x m (whole x m hm) (progress _ hp)
  · rcases delivered c x hx with old | signal | ⟨busy, contents⟩
    · exact h.sent m (afoot m hm) c x old own
    · have op := ((afoot m hm).sent matching routed).2
      simp [← own, signal] at op
    · rw [own] at busy contents
      rw [contents]
      exact h.source m (afoot m hm) busy
  · rcases delivered c x hx with old | signal | ⟨busy, contents⟩
    · exact h.taken y m (whole y m hm) c x old own
    · have op := hm.op
      simp [← own, signal] at op
    · rw [own] at busy contents
      rw [contents]
      exact h.target y m (whole y m hm) busy

/-- An operation starts on a buffer it may use, and sends what the buffer holds if it sends. -/
theorem Intact.posted (h : Intact w) (books : Books P w) (routed : Routed cfg w)
    (unbegun : (w.store.stage p).begun = false)
    (progress : ∀ p', InProgress w' p' → InProgress w p' ∨ p' = p)
    (bytes : w'.memory.bytes = w.memory.bytes) (got : w'.got = w.got)
    (inflight : ∀ m ∈ w'.net.inflight, m ∈ w.net.inflight ∨
      m.request = p ∧ m.payload <+: w.memory.bytes p.posted.buffer)
    (delivered : w'.store.delivered = w.store.delivered)
    (room : toSize p.posted.length ≤ (w.memory.bytes p.posted.buffer).length)
    (alone : ∀ p', InProgress w p' → p.posted.op = .recv ∨ p'.posted.op = .recv →
      p'.posted.buffer ≠ p.posted.buffer) : Intact w' := by
  have afoot (m : Message) (hm : Afoot w' m) : Afoot w m ∧ m.request ≠ p ∨
      m.request = p ∧ m.payload <+: w.memory.bytes p.posted.buffer := by
    have cases : Afoot w m ∨ m.request = p ∧ m.payload <+: w.memory.bytes p.posted.buffer := by
      rcases hm with mem | ⟨x, st, hx, message⟩
      · exact (inflight m mem).imp_left .inl
      · rw [got] at hx
        exact .inl (.inr ⟨x, st, hx, message⟩)
    refine cases.imp_left fun old => ⟨old, ?_⟩
    rintro rfl
    have begun := books.matching.sent _ (old.sent books.matching routed).1
    simp [unbegun] at begun
  have whole (x : Handle) (m : Message) (hm : Whole w' x m) : Whole w x m ∧ x.request ≠ p := by
    have old : Whole w x m := by
      refine ⟨?_, hm.op⟩
      rw [← got]
      exact hm.got
    refine ⟨old, ?_⟩
    rintro rfl
    have begun := old.begun books.matching
    simp [unbegun] at begun
  refine ⟨fun r r' hr hr' op other => ?_, fun r hr => ?_, fun m hm hr => ?_, fun x m hm hr => ?_,
    fun m hm c x hx own => ?_, fun y m hm c x hx own => ?_⟩
  · rcases progress r hr with old | rfl
    · rcases progress r' hr' with old' | rfl
      · exact h.apart r r' old old' op other
      · exact alone r old (.inr op)
    · rcases progress r' hr' with old' | rfl
      · exact (alone r' old' (.inl op)).symm
      · exact absurd rfl other
  · rw [bytes]
    rcases progress r hr with old | rfl
    · exact h.room r old
    · exact room
  · rw [bytes]
    rcases afoot m hm with ⟨old, other⟩ | ⟨rfl, payload⟩
    · exact h.source m old ((progress _ hr).resolve_right other)
    · exact payload
  · rw [bytes]
    obtain ⟨old, other⟩ := whole x m hm
    exact h.target x m old ((progress _ hr).resolve_right other)
  · rw [delivered] at hx
    rcases afoot m hm with ⟨old, -⟩ | ⟨rfl, -⟩
    · exact h.sent m old c x hx own
    · have told := books.filed.told_of_mem hx
      rw [own] at told
      cases stage : w.store.stage m.request with
      | owned u k => cases k <;> simp [stage, Stage.told, Stage.begun] at told unbegun
      | _ => simp [stage, Stage.told, Stage.begun] at told unbegun
  · rw [delivered] at hx
    exact h.taken y m (whole y m hm).1 c x hx own

theorem exec_memory {o : Op} {r : o.Ret} (hx : exec cfg t o w = some (r, w'))
    (starts : o.starts = some p) : w'.memory = w.memory ∧ w'.store.delivered = w.store.delivered := by
  cases o with
  | isend a n ty dest tag comm p' =>
    exact ⟨(exec_frame hx).memory rfl, (exec_same hx rfl).delivered⟩
  | irecv a n ty source tag comm p' =>
    exact ⟨(exec_frame hx).memory rfl, (exec_same hx rfl).delivered⟩
  | _ => cases starts

theorem Intact.isend (h : Intact w) (books : Books (.free cfg) w) (k : Tracked (.free cfg) w)
    (routed : Routed cfg w) {a : Buffer} {n : Int} {ty : Datatype} {dest tag : Int} {comm : Comm}
    {r : Option (Option Handle)}
    (pre : ledgerPre (.free cfg) t (.isend a n ty dest tag comm p) (account t w))
    (hx : exec cfg t (.isend a n ty dest tag comm p) w = some (r, w'))
    (room : toSize p.posted.length ≤ (w.memory.bytes a).length)
    (alone : ∀ p', InProgress w p' → p'.posted.op = .recv → p'.posted.buffer ≠ a) : Intact w' := by
  obtain ⟨memory, delivered⟩ := exec_memory (p := p) hx rfl
  have buffer := pre.2.buffer
  subst buffer
  refine h.posted (p := p) books routed pre.2.unbegun (fun p' hp' => ?_) (by rw [memory])
    (exec_got books k pre hx) (fun m hm => ?_) delivered room fun p' hp' op => ?_
  · exact (exec_inProgress books pre hx hp').imp_right fun e => (Option.some.inj e).symm
  · rcases exec_sends hx with ⟨-, inflight⟩ | ⟨a', n', ty', dest', tag', comm', p', e, -, inflight⟩
    · rw [inflight] at hm
      exact .inl hm
    · cases e
      rw [inflight] at hm
      rcases List.mem_append.mp hm with old | new
      · exact .inl old
      · obtain rfl := List.mem_singleton.mp new
        refine .inr ⟨rfl, ?_⟩
        simp only [World.message, pre.2.layout]
        rw [gather_consecutive room]
        exact List.take_prefix _ _
  · refine alone p' hp' (op.resolve_left fun recv => ?_)
    rcases pre.2.op with send | put
    · simp [recv] at send
    · simp [recv] at put

theorem Intact.irecv (h : Intact w) (books : Books (.free cfg) w) (k : Tracked (.free cfg) w)
    (routed : Routed cfg w) {a : Buffer} {n : Int} {ty : Datatype} {source tag : Int} {comm : Comm}
    {r : Option (Option Handle)}
    (pre : ledgerPre (.free cfg) t (.irecv a n ty source tag comm p) (account t w))
    (hx : exec cfg t (.irecv a n ty source tag comm p) w = some (r, w'))
    (rule : p.posted.op = .recv → toSize p.posted.length ≤ (w.memory.bytes a).length ∧
      ∀ p', InProgress w p' → p'.posted.buffer ≠ a) : Intact w' := by
  obtain ⟨memory, delivered⟩ := exec_memory (p := p) hx rfl
  have inflight : w'.net.inflight = w.net.inflight := by
    rcases exec_sends hx with ⟨-, same⟩ | ⟨_, _, _, _, _, _, _, e, -⟩
    · exact same
    · cases e
  have got := exec_got books k pre hx
  have progress (p' : RequestPtr) (hp' : InProgress w' p') : InProgress w p' ∨ p' = p :=
    (exec_inProgress books pre hx hp').imp_right fun e => (Option.some.inj e).symm
  rcases pre.2 with may | may
  · have buffer := may.buffer
    subst buffer
    obtain ⟨room, alone⟩ := rule may.op
    refine h.posted (p := p) books routed may.unbegun progress (by rw [memory]) got
      (fun m hm => ?_) delivered room fun p' hp' _ => alone p' hp'
    rw [inflight] at hm
    exact .inl hm
  · refine h.carry books.matching routed (fun p' hp' => ?_) (fun _ _ => by rw [memory]) got inflight
      fun c x hx => ?_
    · refine (progress p' hp').resolve_right ?_
      rintro rfl
      exact hp'.user may.op
    · rw [delivered] at hx
      exact .inl hx

theorem Intact.exec (h : Intact w) (books : Books (.free cfg) w) (k : Tracked (.free cfg) w)
    (routed : Routed cfg w) {o : Op} {r : o.Ret} (plain : o.starts = none)
    (pre : ledgerPre (.free cfg) t o (account t w)) (hx : exec cfg t o w = some (r, w')) :
    Intact w' := by
  refine h.carry books.matching routed (fun p hp => ?_)
    (fun p hp => exec_bytes books pre hx (hp.accessible books)) (exec_got books k pre hx) ?_
    fun c x told => ?_
  · refine (exec_inProgress books pre hx hp).resolve_right fun starts => ?_
    simp [plain] at starts
  · rcases exec_sends hx with ⟨-, same⟩ | ⟨_, _, _, _, _, _, _, rfl, -⟩
    · exact same
    · cases plain
  · rcases exec_delivered hx with same | ⟨c', q, p, rfl, delivered⟩
    · rw [same] at told
      exact .inl told
    · have here : x ∈ w.store.delivered c ∨ x = w.delivery q p := by
        rw [delivered] at told
        by_cases e : c = c'
        · subst e
          rw [Function.update_self] at told
          simpa using told
        · rw [Function.update_of_ne e] at told
          exact .inl told
      refine here.imp_right ?_
      rintro rfl
      obtain ⟨st, token, user, -⟩ := pre.2.token
      have stage := (tokenOf_eq_some.mp token).1
      by_cases op : p.posted.op = .putSignal
      · exact .inl op
      · refine .inr ⟨⟨op, ?_, ?_⟩, ?_⟩
        · simp [World.delivery, stage, Stage.begun]
        · simp [World.delivery, stage, Stage.told]
        · rw [user op]
          simp only [World.delivery, finalRequest_buffer]

/-- What MPI still works on has not been told of. -/
theorem Books.untold (h : Books P w) (k : Tracked P w)
    (named : ∀ p, (w.store.stage p).told = true → p.completion ≠ none) {x : Handle}
    {q : MpiRequest} (hq : w.net.reqs x = some q) (live : q.state ≠ .consumed) :
    (w.store.stage x.request).told = false := by
  by_contra told
  have told : (w.store.stage x.request).told = true := by simpa using told
  obtain ⟨c, completion⟩ := Option.ne_none_iff_exists'.mp (named _ told)
  obtain ⟨d, hd, own⟩ := h.filed.told.exists_mem (i := c) (k := x.request) (by
    rw [toldTo, if_pos told, completion])
  obtain ⟨st, result, -⟩ := (h.contents.delivered c d hd).reported
  rw [own, k.live x q hq live] at result
  cases result

/-- A message arrives in the buffer of its receive, and in no other that is in use. -/
theorem Intact.deliver (h : Intact w) (books : Books (.free cfg) w) (k : Tracked (.free cfg) w)
    (routed : Routed cfg w) (named : ∀ p, (w.store.stage p).told = true → p.completion ≠ none)
    {i : Nat} {x : Handle} {q : MpiRequest} (hm : w.net.inflight[i]? = some m) (hq : w.net.reqs x = some q)
    (pending : q.state = .pending) (accepts : World.accepts cfg m x q = true) :
    Intact (w.deliver i m x q) := by
  have recv : q.isRecv = true := by
    simp only [World.accepts, Bool.and_eq_true] at accepts
    exact accepts.1.1.1.1
  have ok := books.matching.req x q hq
  have live : q.state ≠ .consumed := by simp [pending]
  have untold := books.untold k named hq live
  have before (p : RequestPtr) (hp : InProgress (w.deliver i m x q) p) : InProgress w p :=
    ⟨hp.user, hp.begun, hp.untold⟩
  -- the buffer of the receive is its own, be it the client's or a device's
  have others (p : RequestPtr) (hp : InProgress w p) (other : p ≠ x.request) :
      p.posted.buffer ≠ q.buffer := by
    by_cases op : x.request.posted.op = .putSignal
    · intro same
      have open_to_user := hp.accessible books
      rw [same, books.listening_buffer hq live op] at open_to_user
      cases open_to_user
    · rw [ok.buffer]
      exact (h.apart x.request p ⟨op, ok.begun, untold⟩ hp
        ((ok.recv.mp recv).resolve_right op) other.symm).symm
  have bytes (p : RequestPtr) (hp : InProgress w p) (other : p ≠ x.request) :
      (w.deliver i m x q).memory.bytes p.posted.buffer = w.memory.bytes p.posted.buffer :=
    Function.update_of_ne (others p hp other) _ _
  have stored (mine : x.request.posted.buffer = q.buffer) :
      (w.deliver i m x q).memory.bytes x.request.posted.buffer =
        scatter (w.memory.bytes q.buffer) q.layout m.payload := by
    rw [mine]
    exact Function.update_self ..
  have afoot (m' : Message) (hm' : Afoot (w.deliver i m x q) m') : Afoot w m' := by
    rcases hm' with mem | ⟨y, st, got, message⟩
    · exact .inl (List.mem_of_mem_eraseIdx mem)
    · rw [got_deliver recv] at got
      by_cases e : y = x
      · subst e
        rw [Function.update_self] at got
        obtain rfl := Option.some.inj got
        obtain rfl := Option.some.inj message
        exact .inl (List.mem_of_getElem? hm)
      · rw [Function.update_of_ne e] at got
        exact .inr ⟨y, st, got, message⟩
  have whole (y : Handle) (m' : Message) (hy : Whole (w.deliver i m x q) y m') :
      y = x ∧ m' = m ∧ m.payload.length ≤ q.layout.length ∨ y ≠ x ∧ Whole w y m' := by
    obtain ⟨st, got, message, error⟩ := hy.got
    rw [got_deliver recv] at got
    by_cases e : y = x
    · subst e
      rw [Function.update_self] at got
      obtain rfl := Option.some.inj got
      obtain rfl := Option.some.inj message
      exact .inl ⟨rfl, rfl, by simpa using error⟩
    · rw [Function.update_of_ne e] at got
      exact .inr ⟨e, ⟨st, got, message, error⟩, hy.op⟩
  refine ⟨fun p p' hp hp' => h.apart p p' (before p hp) (before p' hp'), fun p hp => ?_,
    fun m' hm' hp => ?_, fun y m' hy hp => ?_, fun m' hm' => h.sent m' (afoot m' hm'),
    fun y m' hy c d hd own => ?_⟩
  · by_cases mine : p = x.request
    · subst mine
      rw [stored ok.buffer.symm, length_scatter, ok.buffer]
      exact h.room _ (before _ hp)
    · rw [bytes p (before p hp) mine]
      exact h.room p (before p hp)
  · by_cases mine : m'.request = x.request
    · have op := ok.recv.mp recv
      have sends := ((afoot m' hm').sent books.matching routed).2
      rw [mine] at sends
      rcases sends with send | put
      · simp [send] at op
      · simp [put] at op
    · rw [bytes _ (before _ hp) mine]
      exact h.source m' (afoot m' hm') (before _ hp)
  · rcases whole y m' hy with ⟨rfl, rfl, fits⟩ | ⟨other, old⟩
    · rw [stored ok.buffer.symm]
      have room := h.room _ (before _ hp)
      rw [ok.layout recv] at fits ⊢
      rw [length_consecutive] at fits
      rw [← ok.buffer] at room
      exact List.prefix_iff_eq_take.mpr (take_scatter fits room).symm
    · have mine : y.request ≠ x.request := by
        obtain ⟨st, got, -⟩ := old.got
        obtain ⟨r, hr, -⟩ := reqs_of_got got
        exact fun same => other (k.own y x (by simp [hr]) (by simp [hq]) same)
      rw [bytes _ (before _ hp) mine]
      exact h.target y m' old (before _ hp)
  · rcases whole y m' hy with ⟨rfl, rfl, -⟩ | ⟨-, old⟩
    · have told := books.filed.told_of_mem hd
      rw [own] at told
      exact absurd (told.symm.trans untold) (by simp)
    · exact h.taken y m' old c d hd own

end Steps

section Runs

variable {s s' : (machine cfg).State}

theorem intact_initial : Intact World.initial where
  apart p _ hp := by cases hp.begun
  room p hp := by cases hp.begun
  source m _ hp := by cases hp.begun
  target h _ _ hp := by cases hp.begun
  sent _ _ _ _ hx := by cases hx
  taken _ _ _ _ _ hx := by cases hx

/-- Only the client's own writes are on a buffer it chooses. -/
theorem env_written {e : Env} (he : env cfg e w = some w') :
    (∃ b bytes, e = .write b bytes ∧
      w' = { w with memory := { w.memory with bytes := update w.memory.bytes b bytes } }) ∨
    (∃ x q, w.net.reqs x = some q ∧ q.isRecv = false ∧ w' = w.sendDone cfg x q) ∨
    ∃ i m x q, w.net.inflight[i]? = some m ∧ w.net.reqs x = some q ∧ q.state = .pending ∧
      World.accepts cfg m x q = true ∧ w' = w.deliver i m x q := by
  cases e with
  | write b bytes =>
    simp only [env] at he
    split at he
    · cases he
      exact .inl ⟨b, bytes, rfl, rfl⟩
    · cases he
  | sendDone x =>
    obtain ⟨q, hq, he⟩ := Option.bind_eq_some_iff.mp he
    split at he
    · cases he
    · rename_i pending
      cases he
      exact .inr (.inl ⟨x, q, hq, by simpa using fun recv => pending (.inl recv), rfl⟩)
  | deliver i x =>
    obtain ⟨m, hm, he⟩ := Option.bind_eq_some_iff.mp he
    obtain ⟨q, hq, he⟩ := Option.bind_eq_some_iff.mp he
    split at he
    · rename_i meets
      cases he
      exact .inr (.inr ⟨i, m, x, q, hm, hq, meets.1, meets.2, rfl⟩)
    · cases he

theorem Intact.step {ok : (machine cfg).State → (machine cfg).Event → Prop}
    {e : (machine cfg).Event} (inv : Intact s.shared) (reached : Reach ok (start cfg) s)
    (rule : HandsOff s e) (step : System.step s e = some s') : Intact s'.shared := by
  obtain ⟨books, k, routed, -⟩ := traced_of_reach reached
  cases e with
  | exec t =>
    obtain ⟨o, c, r, w, hp, hx, rfl⟩ := System.step_exec step
    have next : nextOp s t = some o := nextOp_eq_some.mpr ⟨c, hp⟩
    have pre := (ledgered_of_reach reached).pre t o next
    simp only [HandsOff, next] at rule
    cases o with
    | isend a n ty dest tag comm p => exact inv.isend books k routed pre hx rule.1 rule.2
    | irecv a n ty source tag comm p => exact inv.irecv books k routed pre hx rule
    | _ => exact inv.exec books k routed rfl pre hx
  | intr t i =>
    obtain ⟨o, c, p, w, -, hi, rfl⟩ := System.step_intr step
    cases i with
    | call a =>
      obtain ⟨-, -, -, rfl⟩ := intr_call hi
      exact inv.carry books.matching routed (fun p hp => ⟨hp.user, hp.begun, hp.untold⟩)
        (fun _ _ => rfl) rfl rfl fun _ _ hx => .inl hx
    | continuation m i =>
      obtain ⟨-, -, -, e, st, found, outcome, -, rfl⟩ := intr_continuation hi
      have free : Reach (Orderly (.free cfg)) (start cfg) s :=
        reached.mono fun s e _ => orderly_free s e
      have coherent := (coherent_of_reach free).attached m e (List.mem_of_getElem? found)
      have here := books.filed.attached_of_mem (List.mem_of_getElem? found)
      obtain ⟨got, -, inflight⟩ := takeContinuation_net (t := t) (o := o) (m := m) (i := i) k
        (fun x hx => (coherent.coherent.handle x hx).2) outcome
      refine inv.carry books.matching routed (fun p hp => ?_) (fun p _ => ?_) got inflight
        fun c x hx => ?_
      · by_cases e' : p = e.request
        · subst e'
          exact ⟨hp.user, by rw [here]; rfl, by rw [here]; rfl⟩
        · have stage : (s.shared.takeContinuation t o m i e st).store.stage p =
              s.shared.store.stage p := by
            rw [World.takeContinuation_eq]
            exact Function.update_of_ne e' _ _
          exact ⟨hp.user, stage ▸ hp.begun, stage ▸ hp.untold⟩
      · rw [World.takeContinuation_eq]
      · rw [World.takeContinuation_eq] at hx
        exact .inl hx
  | env e =>
    obtain ⟨w, he, rfl⟩ := System.step_env step
    have still (same : w.store = s.shared.store) (p : RequestPtr) (hp : InProgress w p) :
        InProgress s.shared p := ⟨hp.user, same ▸ hp.begun, same ▸ hp.untold⟩
    rcases env_written he with ⟨b, bytes, rfl, rfl⟩ | ⟨x, q, hq, send, rfl⟩ |
      ⟨i, m, x, q, hm, hq, pending, accepts, rfl⟩
    · exact inv.carry books.matching routed (still rfl)
        (fun p hp => Function.update_of_ne (rule p hp) _ _) rfl rfl fun _ _ hx => .inl hx
    · exact inv.carry books.matching routed (still rfl) (fun _ _ => rfl) (got_sendDone hq send) rfl
        fun _ _ hx => .inl hx
    · exact inv.deliver books k routed (named_of_reach reached) hm hq pending accepts

theorem intact_of_reach (h : Reach HandsOff (start cfg) s) : Intact s.shared := by
  refine (h.strengthen fun _ reached => reached).invariant
    (I := fun s : (machine cfg).State => Intact s.shared) intact_initial
    fun s e s' inv ok step => ?_
  exact inv.step ok.2 ok.1 step

end Runs

section Listing

variable {s s' : (machine cfg).State}

/-- Operations are born when their request is made. -/
theorem exec_born (h : Books P w) {o : Op} {r : o.Ret} (pre : ledgerPre P t o (account t w))
    (hx : exec cfg t o w = some (r, w')) (born : w'.store.stage p ≠ .unborn) :
    w.store.stage p ≠ .unborn ∨ ∃ q c, o = .newRequest q c ∧ p = w.freshPtr q c := by
  by_cases before : w.store.stage p = .unborn
  · have posting : w'.store.stage p = .owned t .posting := by
      rcases exec_moved h pre hx with same | ⟨p', s, move, stage, -⟩
      · exact absurd ((congrFun same p).trans before) born
      · by_cases e : p = p'
        · subst e
          rw [before] at move
          rw [stage, Function.update_self]
          cases move
          rfl
        · exact absurd (by rw [stage, Function.update_of_ne e, before]) born
    rcases exec_stage hx with same | ⟨p', s, brings, stage⟩
    · exact absurd ((congrFun same p).trans before) born
    · have e : p = p' := by
        by_contra other
        rw [stage, Function.update_of_ne other, before] at posting
        cases posting
      subst e
      rw [stage, Function.update_self] at posting
      subst posting
      cases o with
      | newRequest q c =>
        refine .inr ⟨q, c, rfl, ?_⟩
        by_contra other
        cases hx
        rw [World.newRequest_eq] at born
        exact born ((Function.update_of_ne other _ _).trans before)
      | _ => simp [Op.brings] at brings
  · exact .inl before

/-- `InProgress`, as a check. -/
def busy (w : World) (p : RequestPtr) : Bool :=
  p.posted.op != .putSignal && (w.store.stage p).begun && !(w.store.stage p).told

/-- The rule `HandsOff` for a run with the given operations only, as a check. -/
def handsOff (ps : List RequestPtr) (s : (machine cfg).State) : (machine cfg).Event → Bool
  | .exec t => match nextOp s t with
    | some (.newRequest q c) => ps.contains (s.shared.freshPtr q c)
    | some (.isend a _ _ _ _ _ p) => toSize p.posted.length ≤ (s.shared.memory.bytes a).length &&
        ps.all fun p' => !(busy s.shared p' && p'.posted.op == .recv) || p'.posted.buffer != a
    | some (.irecv a _ _ _ _ _ p) => p.posted.op != .recv ||
      toSize p.posted.length ≤ (s.shared.memory.bytes a).length &&
        ps.all fun p' => !busy s.shared p' || p'.posted.buffer != a
    | _ => true
  | .env (.write b _) => ps.all fun p => !busy s.shared p || p.posted.buffer != b
  | _ => true

theorem InProgress.busy (h : InProgress w p) : busy w p = true := by
  simp [Mpi.busy, h.user, h.begun, h.untold]

theorem handsOff_sound {ps : List RequestPtr} (listed : ∀ p, s.shared.store.stage p ≠ .unborn → p ∈ ps)
    {e : (machine cfg).Event} (check : handsOff ps s e = true) : HandsOff s e := by
  have known (p : RequestPtr) (hp : InProgress s.shared p) : p ∈ ps := by
    refine listed p fun unborn => ?_
    have begun := hp.begun
    simp [unborn, Stage.begun] at begun
  cases e with
  | exec t =>
    simp only [handsOff] at check
    simp only [HandsOff]
    cases next : nextOp s t with
    | none => trivial
    | some o =>
      simp only [next] at check
      cases o with
      | isend a n ty dest tag comm p =>
        simp only [Bool.and_eq_true, decide_eq_true_eq, List.all_eq_true] at check
        refine ⟨check.1, fun p' hp recv => ?_⟩
        simpa [hp.busy, recv] using check.2 p' (known p' hp)
      | irecv a n ty source tag comm p =>
        intro op
        simp only [op, bne_self_eq_false, Bool.false_or, Bool.and_eq_true, decide_eq_true_eq,
          List.all_eq_true] at check
        refine ⟨check.1, fun p' hp => ?_⟩
        simpa [hp.busy] using check.2 p' (known p' hp)
      | _ => trivial
  | env e =>
    cases e with
    | write b bytes =>
      simp only [handsOff, List.all_eq_true] at check
      intro p hp
      simpa [hp.busy] using check p (known p hp)
    | _ => trivial
  | intr t i => trivial

/-- A run that passes the check keeps the rule. -/
theorem handsOff_of_check {ps : List RequestPtr}
    (h : Reach (fun s e => handsOff ps s e = true) (start cfg) s) : Reach HandsOff (start cfg) s := by
  have listed {s : (machine cfg).State} (h : Reach (fun s e => handsOff ps s e = true) (start cfg) s) :
      ∀ p, s.shared.store.stage p ≠ .unborn → p ∈ ps := by
    refine (h.strengthen fun _ reached => ledgered_of_reach reached).invariant
      (I := fun s : (machine cfg).State => ∀ p, s.shared.store.stage p ≠ .unborn → p ∈ ps)
      (fun p hp => absurd rfl hp) fun s e s' inv ok step p hp => ?_
    obtain ⟨check, books, pre⟩ := ok
    cases e with
    | exec t =>
      obtain ⟨o, c, r, w, next, hx, rfl⟩ := System.step_exec step
      have next := nextOp_eq_some.mpr ⟨c, next⟩
      rcases exec_born books (pre t o next) hx hp with before | ⟨q, c, rfl, rfl⟩
      · exact inv p before
      · simpa [handsOff, next] using check
    | intr t i =>
      obtain ⟨o, c, p', w, -, hi, rfl⟩ := System.step_intr step
      cases i with
      | call a =>
        obtain ⟨-, -, -, rfl⟩ := intr_call hi
        exact inv p hp
      | continuation m i =>
        obtain ⟨-, -, -, e, st, found, -, -, rfl⟩ := intr_continuation hi
        refine inv p fun unborn => hp ?_
        have attached := books.filed.attached_of_mem (List.mem_of_getElem? found)
        rw [World.takeContinuation_eq]
        refine (Function.update_of_ne ?_ _ _).trans unborn
        rintro rfl
        simp [attached] at unborn
    | env e =>
      obtain ⟨w, he, rfl⟩ := System.step_env step
      cases env_cases he <;> exact inv p hp
  exact (h.strengthen fun _ reached => listed reached).mono fun s e ok => handsOff_sound ok.2 ok.1

end Listing

section Arrival

variable {s : (machine cfg).State}

/-- In every run in which the client keeps its hands off the buffers of operations in progress,
the completion of a receive finds the bytes of one message in its buffer: those which the
operation that sent it has in its buffer while it is in progress and when it is completed. -/
theorem bytes_arrive (h : Reach HandsOff (start cfg) s) {c : Comp} {x : Delivery}
    (told : x ∈ s.shared.store.delivered c) (receive : x.origin.posted.op = .recv) {y : Handle}
    (own : y.request = x.origin) {p : RequestPtr} (reaches : Reaches s.shared p y) :
    ∃ bytes : List Byte, bytes.length = toSize p.posted.length ∧ bytes <+: x.contents ∧
      (InProgress s.shared p → bytes <+: s.shared.memory.bytes p.posted.buffer) ∧
        ∀ c', ∀ z ∈ s.shared.store.delivered c', z.origin = p → bytes <+: z.contents := by
  have traced := traced_of_reach h
  have intact := intact_of_reach h
  obtain ⟨st, m, got, message, rfl⟩ := reaches
  obtain ⟨q, hq, -⟩ := reqs_of_got got
  obtain ⟨st', got', error, -⟩ := traced.got_told told hq own (.inl receive)
  obtain rfl := Option.some.inj (got'.symm.trans got)
  obtain ⟨m', suits, -⟩ := traced.routed.got y st' got
  obtain rfl := Option.some.inj (message.symm.trans suits.message)
  have whole : Whole s.shared y m := ⟨⟨st', got, message, error⟩, by rw [own, receive]⟩
  have afoot : Afoot s.shared m := .inr ⟨y, st', got, message⟩
  exact ⟨m.payload, suits.ok.length, intact.taken y m whole c x told own.symm,
    intact.source m afoot, fun c' z hz mine => intact.sent m afoot c' z hz mine⟩

/-- A receive of four bytes has got the four bytes that were sent. -/
theorem bytes_arrive_loopback : ∃ s : (machine (smallJob .request false 0)).State,
    ∃ x ∈ s.shared.store.delivered 0, x.origin = (loopbackRecv 4).request ∧
      ∃ bytes : List Byte, bytes.length = 4 ∧ bytes <+: x.contents := by
  let J := smallJob .request false 0
  let send : RequestPtr := ⟨2, ⟨.send, ⟨0, 0⟩, 0, 5, .user 0, 4, 0⟩, some 0⟩
  let ps : List RequestPtr := [firstPutRecv.request, (loopbackRecv 4).request, send]
  let es := .env (.write (.user 0) [1, 2, 3, 4]) :: .env (.write (.user 1) [0, 0, 0, 0]) ::
    loopback 4 ++ steps J ⟨0, 0⟩ 8
  have admitted : System.Admitted (fun s e => handsOff ps s e = true) (start J) es := by
    decide +kernel
  have played : (run (start J) es).map (fun s => ((s.shared.store.delivered 0).map Delivery.origin,
      ((s.shared.got (loopbackRecv 4)).bind Status.message).map Message.request)) =
        some ([(loopbackRecv 4).request], some send) := by decide +kernel
  obtain ⟨s, reached, found⟩ := reach_probe admitted played
  obtain ⟨x, told, origin⟩ := List.map_eq_singleton_iff.mp (congrArg Prod.fst found)
  have here : x ∈ s.shared.store.delivered 0 := by simp [told]
  obtain ⟨m, got, sender⟩ := Option.map_eq_some_iff.mp (congrArg Prod.snd found)
  obtain ⟨st, got, message⟩ := Option.bind_eq_some_iff.mp got
  have reaches : Reaches s.shared send (loopbackRecv 4) := ⟨st, m, got, message, sender⟩
  obtain ⟨bytes, length, arrived, -⟩ :=
    bytes_arrive (handsOff_of_check reached) here (by rw [origin]; rfl) origin.symm reaches
  exact ⟨s, x, here, origin, bytes, length, arrived⟩

end Arrival

end Lcw.Mpi
