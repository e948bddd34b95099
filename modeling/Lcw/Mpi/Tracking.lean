/- digest: What becomes of every message that was sent, and of every put that was received. -/

import Lcw.Mpi.LedgerApi

set_option autoImplicit false
set_option relaxedAutoImplicit false

namespace Lcw.Mpi

open Interleave System
open Function (update)

variable {cfg : Config} {P : PutRules cfg} {t : Tid} {w w' : World} {p : RequestPtr}

variable (P) in
/-- A receive got the message of a send or put, and reports it; puts are got by put receives. -/
structure Met (w : World) (p : RequestPtr) (h : Handle) (q : MpiRequest) (st : Status)
    (m : Message) : Prop where
  req : w.net.reqs h = some q
  done : q.state = .complete st ∨ q.state = .consumed ∧ w.net.result h.request = some st
  message : st.message = some m
  sender : m.request = p
  put : P.tagged = true → p.posted.op = .put → h.request.posted.op = .putSignal

variable (cfg) in
/-- What the status of a receive says of the message. -/
structure Got (q : MpiRequest) (st : Status) : Prop where
  source : 0 ≤ st.source ∧ st.source < cfg.nranks
  tag : st.tag = q.tag
  peer : q.peer = cfg.anySource ∨ q.peer = st.source

variable (P) in
/-- A message that was sent is in flight or was received, and an operation has one request. -/
structure Tracked (w : World) : Prop where
  own : ∀ h h', w.net.reqs h ≠ none → w.net.reqs h' ≠ none → h.request = h'.request → h = h'
  sent : ∀ p, p.posted.op = .send ∨ p.posted.op = .put → (w.store.stage p).begun = true →
    w.net.route p ≠ .unsent
  flying : ∀ p, w.net.route p = .flying → ∃ m ∈ w.net.inflight, m.request = p
  met : ∀ p h, w.net.route p = .matched h → ∃ q st m, Met P w p h q st m
  live : ∀ h q, w.net.reqs h = some q → q.state ≠ .consumed → w.net.result h.request = none
  got : ∀ h q, w.net.reqs h = some q → q.isRecv = true → q.state = .consumed →
    ∃ st, w.net.result h.request = some st ∧ Got cfg q st

/-- A put receive tells the completion object of its device, and once MPI has reported it, it is
in the hands of a thread until it has told. -/
structure Signalling (w : World) : Prop where
  taken : ∀ p, p.posted.op = .putSignal → w.net.result p ≠ none →
    (w.store.stage p).told = true ∨ ∃ t, w.store.stage p = .owned t .held
  known : ∀ p, p.posted.op = .putSignal → w.store.stage p ≠ .unborn →
    p.posted.device.addr < w.devs.nextAddr p.posted.device.rank
  home : ∀ p, p.posted.op = .putSignal → w.store.stage p ≠ .unborn →
    p.completion = w.devs.putComp p.posted.device

section Messages

theorem Met.same {h : Handle} {q : MpiRequest} {st : Status} {m : Message} (met : Met P w p h q st m)
    (req : w'.net.reqs h = w.net.reqs h)
    (result : q.state = .consumed → w'.net.result h.request = w.net.result h.request) :
    Met P w' p h q st m where
  req := req.trans met.req
  done := met.done.imp_right fun ⟨gone, reported⟩ => ⟨gone, (result gone).trans reported⟩
  message := met.message
  sender := met.sender
  put := met.put

/-- MPI keeps what it has, and no operation begins. -/
theorem Tracked.carry (h : Tracked P w)
    (begun : ∀ p, (w'.store.stage p).begun = true → (w.store.stage p).begun = true)
    (reqs : w'.net.reqs = w.net.reqs) (inflight : w'.net.inflight = w.net.inflight)
    (result : w'.net.result = w.net.result) (route : w'.net.route = w.net.route) : Tracked P w' where
  own := by
    rw [reqs]
    exact h.own
  sent p op hp := by
    rw [route]
    exact h.sent p op (begun p hp)
  flying p hp := by
    rw [route] at hp
    rw [inflight]
    exact h.flying p hp
  met p x hp := by
    rw [route] at hp
    obtain ⟨q, st, m, met⟩ := h.met p x hp
    exact ⟨q, st, m, met.same (by rw [reqs]) fun _ => by rw [result]⟩
  live := by
    rw [reqs, result]
    exact h.live
  got := by
    rw [reqs, result]
    exact h.got

theorem Tracked.enqueue (h : Tracked P w) (m : Message) : Tracked P (w.enqueue m) := by
  have route (p : RequestPtr) (x : Route) (hp : (w.enqueue m).net.route p = x) :
      p = m.request ∧ x = .flying ∨ p ≠ m.request ∧ w.net.route p = x := by
    have hp : update w.net.route m.request .flying p = x := hp
    by_cases e : p = m.request
    · subst e
      rw [Function.update_self] at hp
      exact .inl ⟨rfl, hp.symm⟩
    · rw [Function.update_of_ne e] at hp
      exact .inr ⟨e, hp⟩
  refine ⟨h.own, fun p op begun hp => ?_, fun p hp => ?_, fun p x hp => ?_, h.live, h.got⟩
  · rcases route p _ hp with ⟨-, never⟩ | ⟨-, before⟩
    · cases never
    · exact h.sent p op begun before
  · rcases route p _ hp with ⟨rfl, -⟩ | ⟨-, before⟩
    · exact ⟨m, by simp [World.enqueue], rfl⟩
    · obtain ⟨m', hm, own⟩ := h.flying p before
      exact ⟨m', by simp [World.enqueue, hm], own⟩
  · rcases route p _ hp with ⟨-, never⟩ | ⟨-, before⟩
    · cases never
    · obtain ⟨q, st, m', met⟩ := h.met p x before
      exact ⟨q, st, m', met.same rfl fun _ => rfl⟩

/-- An operation is started that has sent its message, if it has one. -/
theorem Tracked.start (h : Tracked P w) {null : Bool} {comm : Comm} {q : MpiRequest}
    (fresh : w.net.reqs (w.freshHandle comm p) = none) (unreported : w.net.result p = none)
    (first : ∀ x, w.net.reqs x ≠ none → x.request ≠ p)
    (sent : p.posted.op = .send ∨ p.posted.op = .put → w.net.route p ≠ .unsent)
    (pending : q.state = .pending) : Tracked P (w.start cfg t null comm p q).2 := by
  have begun (r : RequestPtr) (other : r ≠ p)
      (hr : ((w.start cfg t null comm p q).2.store.stage r).begun = true) :
      (w.store.stage r).begun = true := by
    rw [World.start_eq] at hr
    exact (congrArg Stage.begun (Function.update_of_ne other _ _)).symm.trans hr
  have route : (w.start cfg t null comm p q).2.net.route = w.net.route := by
    unfold World.start
    cases null <;> rfl
  have inflight : (w.start cfg t null comm p q).2.net.inflight = w.net.inflight := by
    unfold World.start
    cases null <;> rfl
  have reqs (x : Handle) (hx : w.net.reqs x ≠ none) :
      (w.start cfg t null comm p q).2.net.reqs x = w.net.reqs x := by
    unfold World.start
    cases null with
    | true => rfl
    | false =>
      refine Function.update_of_ne ?_ _ _
      rintro rfl
      exact hx fresh
  have result (r : RequestPtr) (other : r ≠ p) :
      (w.start cfg t null comm p q).2.net.result r = w.net.result r := by
    unfold World.start
    cases null with
    | true => exact Function.update_of_ne other _ _
    | false => rfl
  have old (x : Handle) (hx : (w.start cfg t null comm p q).2.net.reqs x ≠ none) :
      x = w.freshHandle comm p ∨ w.net.reqs x ≠ none := by
    unfold World.start at hx
    cases null with
    | true => exact .inr hx
    | false =>
      by_cases e : x = w.freshHandle comm p
      · exact .inl e
      · exact .inr fun none => hx ((Function.update_of_ne e _ _).trans none)
  have kept (x : Handle) (y : MpiRequest)
      (hy : (w.start cfg t null comm p q).2.net.reqs x = some y) :
      x.request ≠ p ∧ w.net.reqs x = some y ∨
        null = false ∧ x = w.freshHandle comm p ∧ y = q := by
    by_cases e : w.net.reqs x = none
    · unfold World.start at hy
      cases null with
      | true => exact absurd (e.symm.trans hy) (by simp)
      | false =>
        have hy : update w.net.reqs (w.freshHandle comm p) (some q) x = some y := hy
        by_cases same : x = w.freshHandle comm p
        · subst same
          rw [Function.update_self] at hy
          exact .inr ⟨rfl, rfl, (Option.some.inj hy).symm⟩
        · rw [Function.update_of_ne same, e] at hy
          cases hy
    · exact .inl ⟨first x e, (reqs x e).symm.trans hy⟩
  refine ⟨fun x y hx hy same => ?_, fun r op hr => ?_, fun r hr => ?_, fun r x hr => ?_,
    fun x y hy live => ?_, fun x y hy recv gone => ?_⟩
  · rcases old x hx with rfl | hx
    · rcases old y hy with rfl | hy
      · rfl
      · exact absurd same.symm (first y hy)
    · rcases old y hy with rfl | hy
      · exact absurd same (first x hx)
      · exact h.own x y hx hy same
  · rw [route]
    by_cases e : r = p
    · subst e
      exact sent op
    · exact h.sent r op (begun r e hr)
  · rw [route] at hr
    rw [inflight]
    exact h.flying r hr
  · rw [route] at hr
    obtain ⟨y, st, m, met⟩ := h.met r x hr
    have old : w.net.reqs x ≠ none := by simp [met.req]
    exact ⟨y, st, m, met.same (reqs x old) fun _ => result _ (first x old)⟩
  · rcases kept x y hy with ⟨other, hy⟩ | ⟨rfl, rfl, -⟩
    · exact (result _ other).trans (h.live x y hy live)
    · exact unreported
  · rcases kept x y hy with ⟨other, hy⟩ | ⟨-, -, rfl⟩
    · obtain ⟨st, reported, got⟩ := h.got x y hy recv gone
      exact ⟨st, (result _ other).trans reported, got⟩
    · simp [pending] at gone

/-- A request changes its state. -/
theorem Tracked.own_setReq (h : Tracked P w) {x : Handle} {q q' : MpiRequest}
    (hq : w.net.reqs x = some q) (y y' : Handle) (hy : (w.setReq x q').net.reqs y ≠ none)
    (hy' : (w.setReq x q').net.reqs y' ≠ none) (same : y.request = y'.request) : y = y' := by
  have old (z : Handle) (hz : update w.net.reqs x (some q') z ≠ none) : w.net.reqs z ≠ none := by
    by_cases e : z = x
    · subst e
      simp [hq]
    · rwa [Function.update_of_ne e] at hz
  exact h.own y y' (old y hy) (old y' hy') same

/-- A request that MPI has not handed back changes its state. -/
theorem Tracked.settle (h : Tracked P w) {x y : Handle} {q q' r : MpiRequest}
    (hq : w.net.reqs x = some q) (live : q.state ≠ .consumed) (unspent : q'.state ≠ .consumed)
    (hy : (w.setReq x q').net.reqs y = some r) :
    (r.state ≠ .consumed → w.net.result y.request = none) ∧
      (r.isRecv = true → r.state = .consumed →
        ∃ st, w.net.result y.request = some st ∧ Got cfg r st) := by
  rcases setReq_cases hy with ⟨rfl, rfl⟩ | ⟨-, hy⟩
  · exact ⟨fun _ => h.live y q hq live, fun _ gone => absurd gone unspent⟩
  · exact ⟨h.live y r hy, h.got y r hy⟩

theorem Tracked.deliver (h : Tracked P w) {i : Nat} {m : Message} {x : Handle} {q : MpiRequest}
    (hm : w.net.inflight[i]? = some m) (hq : w.net.reqs x = some q) (pending : q.state = .pending)
    (put : P.tagged = true → m.request.posted.op = .put → x.request.posted.op = .putSignal) :
    Tracked P (w.deliver i m x q) := by
  have route (p : RequestPtr) (y : Route) (hp : (w.deliver i m x q).net.route p = y) :
      p = m.request ∧ y = .matched x ∨ p ≠ m.request ∧ w.net.route p = y := by
    have hp : update w.net.route m.request (.matched x) p = y := hp
    by_cases e : p = m.request
    · subst e
      rw [Function.update_self] at hp
      exact .inl ⟨rfl, hp.symm⟩
    · rw [Function.update_of_ne e] at hp
      exact .inr ⟨e, hp⟩
  refine ⟨h.own_setReq hq, fun p op begun hp => ?_, fun p hp => ?_, fun p y hp => ?_,
    fun y r hy => (h.settle hq (by simp [pending]) (by simp) hy).1,
    fun y r hy => (h.settle hq (by simp [pending]) (by simp) hy).2⟩
  · rcases route p _ hp with ⟨-, never⟩ | ⟨-, before⟩
    · cases never
    · exact h.sent p op begun before
  · rcases route p _ hp with ⟨-, never⟩ | ⟨other, before⟩
    · cases never
    · obtain ⟨m', hm', rfl⟩ := h.flying p before
      obtain ⟨hi, rfl⟩ := List.getElem?_eq_some_iff.mp hm
      have still := (List.getElem_cons_eraseIdx_perm hi).mem_iff.mpr hm'
      rcases List.mem_cons.mp still with rfl | still
      · exact absurd rfl other
      · exact ⟨m', still, rfl⟩
  · rcases route p _ hp with ⟨rfl, here⟩ | ⟨-, before⟩
    · obtain rfl := Route.matched.inj here
      exact ⟨_, _, m, Function.update_self .., .inl rfl, rfl, rfl, put⟩
    · obtain ⟨r, st, m', met⟩ := h.met p y before
      have other : y ≠ x := by
        rintro rfl
        obtain rfl := Option.some.inj (met.req.symm.trans hq)
        rcases met.done with done | ⟨gone, -⟩
        · simp [pending] at done
        · simp [pending] at gone
      exact ⟨r, st, m', met.same (Function.update_of_ne other _ _) fun _ => rfl⟩

theorem Tracked.sendDone (h : Tracked P w) {x : Handle} {q : MpiRequest}
    (hq : w.net.reqs x = some q) (pending : q.state = .pending) :
    Tracked P (w.sendDone cfg x q) := by
  refine ⟨h.own_setReq hq, h.sent, h.flying, fun p y hp => ?_,
    fun y r hy => (h.settle hq (by simp [pending]) (by simp) hy).1,
    fun y r hy => (h.settle hq (by simp [pending]) (by simp) hy).2⟩
  obtain ⟨r, st, m, met⟩ := h.met p y hp
  have other : y ≠ x := by
    rintro rfl
    obtain rfl := Option.some.inj (met.req.symm.trans hq)
    rcases met.done with done | ⟨gone, -⟩
    · simp [pending] at done
    · simp [pending] at gone
  exact ⟨r, st, m, met.same (Function.update_of_ne other _ _) fun _ => rfl⟩

/-- MPI hands the status of a request back. -/
theorem Tracked.consume (h : Tracked P w) {x : Handle} {q : MpiRequest} {st : Status}
    (hq : w.net.reqs x = some q) (done : q.state = .complete st)
    (got : q.isRecv = true → Got cfg q st) :
    Tracked P ((w.setReq x { q with state := .consumed }).setResult x.request st) := by
  have others (y : Handle) (r : MpiRequest) (hy : w.net.reqs y = some r) (e : y ≠ x) :
      update w.net.result x.request (some st) y.request = w.net.result y.request := by
    refine Function.update_of_ne (fun same => e ?_) _ _
    exact h.own y x (by simp [hy]) (by simp [hq]) same
  refine ⟨h.own_setReq hq, h.sent, h.flying, fun p y hp => ?_, fun y r hy live => ?_,
    fun y r hy recv gone => ?_⟩
  · obtain ⟨r, st', m, met⟩ := h.met p y hp
    by_cases e : y = x
    · subst e
      obtain rfl := Option.some.inj (met.req.symm.trans hq)
      have same : st' = st := by
        rcases met.done with done' | ⟨gone, -⟩
        · exact ReqState.complete.inj (done'.symm.trans done)
        · simp [done] at gone
      subst same
      refine ⟨{ r with state := .consumed }, st', m, ?_, .inr ⟨rfl, ?_⟩, met.message, met.sender,
        met.put⟩
      · exact Function.update_self ..
      · exact Function.update_self ..
    · exact ⟨r, st', m, met.same (Function.update_of_ne e _ _) fun _ => others y r met.req e⟩
  · rcases setReq_cases hy with ⟨rfl, rfl⟩ | ⟨e, hy⟩
    · exact absurd rfl live
    · exact (others y r hy e).trans (h.live y r hy live)
  · rcases setReq_cases hy with ⟨rfl, rfl⟩ | ⟨e, hy⟩
    · exact ⟨st, Function.update_self .., (got recv).source, (got recv).tag, (got recv).peer⟩
    · obtain ⟨st', reported, got'⟩ := h.got y r hy recv gone
      exact ⟨st', (others y r hy e).trans reported, got'⟩

end Messages

section Stages

/-- Operations that take a `request_t` through its first two stages. -/
def Op.begins : Op → Bool
  | .newRequest .. | .isend .. | .irecv .. => true
  | _ => false

/-- Other operations bring no `request_t` into an early stage. -/
theorem exec_early {o : Op} {r : o.Ret} (hx : exec cfg t o w = some (r, w'))
    (plain : o.begins = false) {u : Tid} {k : Owning} (early : k = .posting ∨ k = .started)
    (hp : w'.store.stage p = .owned u k) : w.store.stage p = .owned u k := by
  have past {q : RequestPtr} {s : Stage} (other : s ≠ .owned u k)
      (hs : update w.store.stage q s p = .owned u k) : w.store.stage p = .owned u k := by
    by_cases e : p = q
    · subst e
      rw [Function.update_self] at hs
      exact absurd hs other
    · rwa [Function.update_of_ne e] at hs
  have late {v : Tid} {k' : Owning} (hk : k' ≠ .posting ∧ k' ≠ .started) :
      Stage.owned v k' ≠ .owned u k := by
    rintro ⟨⟩
    rcases early with rfl | rfl
    · exact hk.1 rfl
    · exact hk.2 rfl
  cases o with
  | newRequest q c => cases plain
  | isend a n ty dest tag comm p => cases plain
  | irecv a n ty source tag comm p => cases plain
  | deleteRequest q =>
    obtain ⟨_, -, e⟩ := Option.map_eq_some_iff.mp hx
    cases e
    exact past (by simp) hp
  | pushBack m e =>
    cases hx
    rw [World.pushBack_eq] at hp
    exact past (by simp) hp
  | «continue» m e f =>
    cases hx
    rw [World.attach_eq] at hp
    exact past (by simp) hp
  | popFront m =>
    obtain ⟨rest, -, rfl⟩ := exec_popFront hx
    exact past (late (by simp)) hp
  | writeSlot d e =>
    cases hx
    exact past (by simp) hp
  | test x =>
    cases x with
    | none =>
      cases hx
      exact hp
    | some x =>
      cases exec_test hx with
      | taken q st hq done ok op => exact past (late (by simp)) hp
      | _ => exact hp
  | signal c q p' =>
    cases hx
    rw [World.signal_eq] at hp
    exact past (late (by simp)) hp
  | writeRequest q x | clearSlot d =>
    obtain ⟨_, -, e⟩ := Option.map_eq_some_iff.mp hx
    cases e
    exact hp
  | cqPop c =>
    rcases exec_cqPop hx with ⟨-, rfl⟩ | ⟨x, rest, -, -, rfl⟩ <;> exact hp
  | _ => rwa [(exec_frame hx).store rfl] at hp

/-- A move that does not begin an operation is of one that has begun. -/
theorem Moved.begun_of_late (h : Moved t w w')
    (late : ∀ k, k = .posting ∨ k = .started → ∀ p, w'.store.stage p = .owned t k →
      w.store.stage p = .owned t k) (hp : w.store.stage p ≠ w'.store.stage p) :
    (w.store.stage p).begun = true := by
  rcases h with same | ⟨p', s, move, stage, -⟩
  · exact absurd (congrFun same p).symm hp
  · by_cases e : p = p'
    · subst e
      have after : w'.store.stage p = s := by rw [stage, Function.update_self]
      generalize before : w.store.stage p = x at move
      cases move with
      | post =>
        have early := late .posting (.inl rfl) p after
        rw [before] at early
        cases early
      | start =>
        have early := late .started (.inr rfl) p after
        rw [before] at early
        cases early
      | queue k m hk | attach k m hk => rcases hk with rfl | rfl <;> rfl
      | _ => rfl
    · exact absurd (by rw [stage, Function.update_of_ne e]) hp

theorem Moved.told (h : Moved t w w') (hp : (w.store.stage p).told = true) :
    (w'.store.stage p).told = true :=
  h.keeps (Q := fun s => s.told = true) (fun _ _ move => move.told) hp

/-- Managers keep no put receives. -/
theorem Filed.unmanaged (h : Filed cfg w) {G : Guard} (coh : Coherence cfg G w)
    (op : p.posted.op = .putSignal) (m : Manager) :
    w.store.stage p ≠ .queued m ∧ w.store.stage p ≠ .attached m := by
  constructor
  · intro stage
    obtain ⟨e, he, rfl⟩ := h.deque.exists_mem (show (Stage.deque ∘ w.store.stage) p = some m by
      simp [stage, Stage.deque])
    exact (coh.entries m e he).op op
  · intro stage
    obtain ⟨e, he, rfl⟩ := h.conts.exists_mem (show (Stage.conts ∘ w.store.stage) p = some m by
      simp [stage, Stage.conts])
    exact (coh.attached m e he).op op

/-- A put receive in the hands of a thread goes nowhere but to its completion object. -/
theorem Moved.signal (h : Moved t w w')
    (unmanaged : ∀ m, w'.store.stage p ≠ .queued m ∧ w'.store.stage p ≠ .attached m)
    (hp : (w.store.stage p).told = true ∨ ∃ u, w.store.stage p = .owned u .held) :
    (w'.store.stage p).told = true ∨ ∃ u, w'.store.stage p = .owned u .held := by
  rcases hp with told | ⟨u, held⟩
  · exact .inl (h.told told)
  · rcases h with same | ⟨p', s, move, stage, -⟩
    · exact .inr ⟨u, (congrFun same p).trans held⟩
    · by_cases e : p = p'
      · subst e
        have after : w'.store.stage p = s := by rw [stage, Function.update_self]
        rw [held] at move
        cases move with
        | queue k m hk => exact absurd after (unmanaged m).1
        | attach k m hk => exact absurd after (unmanaged m).2
        | tell =>
          rw [after]
          exact .inl rfl
      · refine .inr ⟨u, ?_⟩
        rw [stage, Function.update_of_ne e, held]

end Stages

section Signals

variable {G : Guard}

theorem Signalling.carry (h : Signalling w) (moved : Moved t w w') (books : Books P w')
    (coh : Coherence cfg G w') (born : ∀ p, w'.store.stage p ≠ .unborn → w.store.stage p ≠ .unborn)
    (result : ∀ p, p.posted.op = .putSignal → w'.net.result p ≠ none → w.net.result p ≠ none)
    (nextAddr : w'.devs.nextAddr = w.devs.nextAddr) (putComp : w'.devs.putComp = w.devs.putComp) :
    Signalling w' where
  taken p op hp := moved.signal (books.filed.unmanaged coh op) (h.taken p op (result p op hp))
  known p op hp := by
    rw [nextAddr]
    exact h.known p op (born p hp)
  home p op hp := by
    rw [putComp]
    exact h.home p op (born p hp)

/-- The request of a put receive names what the puts of its device go to. -/
theorem Signalling.newRequest (h : Signalling w) (books : Books P w) {q : Request}
    {c : Option Comp} (may : (account t w).MayPost cfg t q c ∨ (account t w).MayArm q c) :
    Signalling (w.newRequest t q c) := by
  have stage (p : RequestPtr) : p = w.freshPtr q c ∧ w.net.result p = none ∨
      p ≠ w.freshPtr q c ∧ (w.newRequest t q c).store.stage p = w.store.stage p := by
    by_cases e : p = w.freshPtr q c
    · refine .inl ⟨e, ?_⟩
      by_contra result
      have begun := books.matching.resultBegun p result
      rw [e, books.filed.fresh q c] at begun
      cases begun
    · refine .inr ⟨e, ?_⟩
      rw [World.newRequest_eq]
      exact Function.update_of_ne e _ _
  have home (op : q.op = .putSignal) : q.device.addr < w.devs.nextAddr q.device.rank ∧
      c = w.devs.putComp q.device := by
    rcases may with may | may
    · exact absurd op may.op
    · obtain ⟨s, hs, comp⟩ := may.slot
      obtain ⟨controls, rfl⟩ := slotOf_eq_some.mp hs
      refine ⟨?_, comp⟩
      by_contra fresh
      obtain ⟨phase, builder, -⟩ := books.slots.fresh q.device (by omega)
      rcases controls with owner | building
      · exact (books.slots.locked q.device (by simp [owner])).2 phase
      · simp [builder] at building
  have same : (w.newRequest t q c).net = w.net ∧ (w.newRequest t q c).devs = w.devs := by
    rw [World.newRequest_eq]
    exact ⟨rfl, rfl⟩
  refine ⟨fun p op hp => ?_, fun p op hp => ?_, fun p op hp => ?_⟩
  · rw [same.1] at hp
    rcases stage p with ⟨-, unreported⟩ | ⟨-, as_before⟩
    · exact absurd unreported hp
    · rw [as_before]
      exact h.taken p op hp
  · rw [same.2]
    rcases stage p with ⟨rfl, -⟩ | ⟨-, as_before⟩
    · exact (home op).1
    · exact h.known p op (as_before ▸ hp)
  · rw [same.2]
    rcases stage p with ⟨rfl, -⟩ | ⟨-, as_before⟩
    · exact (home op).2
    · exact h.home p op (as_before ▸ hp)

theorem Signalling.newDevice (h : Signalling w) : Signalling (w.newDevice t).2 where
  taken := h.taken
  known p op hp := by
    have old := h.known p op hp
    show p.posted.device.addr < update w.devs.nextAddr t.rank _ p.posted.device.rank
    by_cases e : p.posted.device.rank = t.rank
    · rw [e] at old ⊢
      rw [Function.update_self]
      omega
    · rwa [Function.update_of_ne e]
  home p op hp := by
    have old := h.known p op hp
    refine (h.home p op hp).trans (Function.update_of_ne ?_ _ _).symm
    intro e
    rw [e] at old
    exact Nat.lt_irrefl _ old

end Signals

section Steps

variable {G : Guard}

/-- No operation sets a result but the two that start one and the test. -/
theorem start_result {null : Bool} {comm : Comm} {q : MpiRequest} {r : RequestPtr}
    (other : r ≠ p ∨ null = false) :
    (w.start cfg t null comm p q).2.net.result r = w.net.result r := by
  unfold World.start
  cases null with
  | true => exact Function.update_of_ne (other.resolve_right (by simp)) _ _
  | false => rfl

theorem start_stage {null : Bool} {comm : Comm} {q : MpiRequest} {r : RequestPtr}
    (born : w.store.stage p ≠ .unborn)
    (hr : (w.start cfg t null comm p q).2.store.stage r ≠ .unborn) :
    w.store.stage r ≠ .unborn := by
  by_cases e : r = p
  · subst e
    exact born
  · rw [World.start_eq] at hr
    exact fun unborn => hr ((Function.update_of_ne e _ _).trans unborn)

theorem Account.MayStart.unreported {a : Buffer} {n : Int} {ty : Datatype} {tag : Int}
    {comm : Comm} (may : (account t w).MayStart a n ty tag comm p) : w.net.result p = none := by
  obtain ⟨x, hx, -, result⟩ := may.token
  exact (tokenOf_eq_some.mp hx).2.2.1.trans result

/-- The status of a complete receive is about the message it got. -/
theorem Matching.got (h : Matching P w) {x : Handle} {q : MpiRequest} {st : Status}
    (hq : w.net.reqs x = some q) (done : q.state = .complete st) (recv : q.isRecv = true) :
    Got cfg q st := by
  obtain ⟨m, hm⟩ := (h.complete x q st hq done).recv recv
  refine ⟨?_, hm.tag.trans hm.sameTag, ?_⟩
  · rw [hm.source]
    exact ⟨Int.natCast_nonneg _, Int.ofNat_lt.mpr hm.ok.rank⟩
  · rw [hm.source]
    exact hm.peer

theorem exec_tracked (h : Books P w) (tracked : Tracked P w) {o : Op} {r : o.Ret}
    (pre : ledgerPre P t o (account t w)) (hx : exec cfg t o w = some (r, w')) : Tracked P w' := by
  have first {v : Buffer} {n : Int} {ty : Datatype} {tag : Int} {comm : Comm} {p : RequestPtr}
      (may : (account t w).MayStart v n ty tag comm p) (x : Handle) (hx : w.net.reqs x ≠ none) :
      x.request ≠ p := by
    rintro rfl
    obtain ⟨q, hq⟩ := Option.ne_none_iff_exists'.mp hx
    obtain ⟨y, hy, kind, -⟩ := may.token
    have started := (h.matching.req x q hq).begun
    rw [(tokenOf_eq_some.mp hy).1, kind] at started
    cases started
  have begun (plain : o.begins = false) (p : RequestPtr)
      (hp : (w'.store.stage p).begun = true) : (w.store.stage p).begun = true := by
    by_cases same : w.store.stage p = w'.store.stage p
    · rwa [same]
    · exact (exec_moved h pre hx).begun_of_late
        (fun k early p => exec_early hx plain early) same
  cases o with
  | newRequest q c =>
    cases hx
    refine tracked.carry (fun p hp => ?_) ?_ ?_ ?_ ?_
    · rw [World.newRequest_eq] at hp
      by_cases e : p = w.freshPtr q c
      · subst e
        simp [Stage.begun] at hp
      · exact (congrArg Stage.begun (Function.update_of_ne e _ _)).symm.trans hp
    all_goals rw [World.newRequest_eq]
  | isend a n ty dest tag comm p =>
    rcases exec_isend hx with ⟨-, rfl⟩ | ⟨-, -, rfl⟩
    · exact tracked
    · refine (tracked.enqueue _).start (h.matching.fresh comm p) pre.2.unreported
        (first pre.2.toMayStart) (fun _ => ?_) rfl
      simp [World.enqueue, World.message]
  | irecv a n ty source tag comm p =>
    rcases exec_irecv hx with ⟨-, rfl, -⟩ | ⟨-, rfl⟩
    · exact tracked
    · have expected : Tracked P (w.expect comm p) := by
        unfold World.expect
        split
        · exact tracked.carry (fun _ hp => hp) rfl rfl rfl rfl
        · exact tracked
      have may : (account t w).MayStart a n ty tag comm p := by
        rcases pre.2 with may | may
        · exact may.toMayStart
        · exact may.toMayStart
      have recv : ¬ (p.posted.op = .send ∨ p.posted.op = .put) := by
        rcases pre.2 with may | may <;> simp [may.op]
      refine expected.start ?_ ?_ ?_ (fun op => absurd op recv) rfl
      · unfold World.expect
        split <;> exact h.matching.fresh comm p
      · unfold World.expect
        split <;> exact may.unreported
      · unfold World.expect
        split <;> exact first may
  | test x =>
    cases x with
    | none =>
      cases hx
      exact tracked
    | some x =>
      cases exec_test hx with
      | notYet => exact tracked
      | failed dead => exact tracked
      | taken q st hq done ok op =>
        exact (tracked.consume hq done (h.matching.got hq done)).carry (begun rfl) rfl rfl rfl rfl
      | done q st hq done ok op => exact tracked.consume hq done (h.matching.got hq done)
  | writeSlot d e =>
    cases hx
    exact tracked.carry (begun rfl) rfl rfl rfl rfl
  | memcpy dst src n =>
    cases hx
    refine tracked.carry (begun rfl) ?_ ?_ ?_ ?_
    all_goals
      unfold World.memcpy
      split <;> rfl
  | commCreate d | commFree comm =>
    cases hx
    exact tracked.carry (begun rfl) rfl rfl rfl rfl
  | _ =>
    have net := (exec_frame hx).net rfl
    exact tracked.carry (begun rfl) (by rw [net]) (by rw [net]) (by rw [net]) (by rw [net])

theorem exec_signalling (h : Books P w) (h' : Books P w') (coh : Coherence cfg G w')
    (signalling : Signalling w) {o : Op} {r : o.Ret} (pre : ledgerPre P t o (account t w))
    (hx : exec cfg t o w = some (r, w')) : Signalling w' := by
  have moved := exec_moved h pre hx
  have born (plain : o.begins = false) (p : RequestPtr) (hp : w'.store.stage p ≠ .unborn) :
      w.store.stage p ≠ .unborn := by
    by_cases same : w.store.stage p = w'.store.stage p
    · rwa [same]
    · intro unborn
      have begun := moved.begun_of_late (fun k early p => exec_early hx plain early) same
      simp [unborn, Stage.begun] at begun
  cases o with
  | newRequest q c =>
    cases hx
    exact signalling.newRequest h pre.2
  | newDevice =>
    cases hx
    exact signalling.newDevice
  | isend a n ty dest tag comm p =>
    obtain ⟨x, hx', -⟩ := pre.2.token
    have posted : w.store.stage p ≠ .unborn := by simp [(tokenOf_eq_some.mp hx').1]
    rcases exec_isend hx with ⟨-, rfl⟩ | ⟨-, -, rfl⟩
    · exact signalling
    · refine signalling.carry moved h' coh (fun r => start_stage posted) (fun r op => ?_) ?_ ?_
      · have other : r ≠ p := by
          rintro rfl
          rcases pre.2.op with send | put
          · simp [op] at send
          · simp [op] at put
        intro hr
        rw [World.isend, start_result (.inl other)] at hr
        exact hr
      all_goals rw [World.isend_eq]
  | irecv a n ty source tag comm p =>
    have token : ∃ x, (account t w).token p = some x := by
      rcases pre.2 with may | may
      · obtain ⟨x, hx', -⟩ := may.token
        exact ⟨x, hx'⟩
      · obtain ⟨x, hx', -⟩ := may.token
        exact ⟨x, hx'⟩
    obtain ⟨x, hx'⟩ := token
    have posted : w.store.stage p ≠ .unborn := by simp [(tokenOf_eq_some.mp hx').1]
    rcases exec_irecv hx with ⟨-, rfl, -⟩ | ⟨-, rfl⟩
    · exact signalling
    · have expected : (w.expect comm p).store = w.store ∧
          (w.expect comm p).net.result = w.net.result := by
        unfold World.expect
        split <;> exact ⟨rfl, rfl⟩
      refine signalling.carry moved h' coh (fun r hr => ?_) (fun r op hr => ?_) ?_ ?_
      · have before := start_stage (by rwa [expected.1]) hr
        rwa [expected.1] at before
      · have other : r ≠ p ∨
            (cfg.nullHandle w.net.nextHandle && source != cfg.anySource) = false := by
          by_cases e : r = p
          · subst e
            rcases pre.2 with may | may
            · simp [may.op] at op
            · simp [may.peer]
          · exact .inl e
        rw [World.irecv, start_result other, expected.2] at hr
        exact hr
      all_goals rw [World.irecv_eq]
  | test x =>
    cases x with
    | none =>
      cases hx
      exact signalling
    | some x =>
      have others {r : RequestPtr} {st : Status} (other : r ≠ x.request) :
          update w.net.result x.request (some st) r = w.net.result r :=
        Function.update_of_ne other _ _
      cases exec_test hx with
      | notYet => exact signalling
      | failed dead => exact signalling
      | taken q st hq done ok op =>
        refine ⟨fun r opr hr => ?_, fun r opr hr => signalling.known r opr (born rfl r hr),
          fun r opr hr => signalling.home r opr (born rfl r hr)⟩
        by_cases e : r = x.request
        · subst e
          exact .inr ⟨t, Function.update_self ..⟩
        · have stage : update w.store.stage x.request (.owned t .held) r = w.store.stage r :=
            Function.update_of_ne e _ _
          have before := signalling.taken r opr fun none => hr ((others e).trans none)
          rw [← stage] at before
          exact before
      | done q st hq done ok op =>
        refine signalling.carry moved h' coh (born rfl) (fun r opr hr => ?_) rfl rfl
        have other : r ≠ x.request := by
          rintro rfl
          exact op opr
        exact fun none => hr ((others other).trans none)
  | writeSlot d e =>
    cases hx
    exact signalling.carry moved h' coh (born rfl) (fun _ _ hp => hp) rfl rfl
  | memcpy dst src n =>
    cases hx
    refine signalling.carry moved h' coh (born rfl) (fun p _ hp => ?_) ?_ ?_
    · unfold World.memcpy at hp
      split at hp <;> exact hp
    all_goals
      unfold World.memcpy
      split <;> rfl
  | commCreate d | commFree comm =>
    cases hx
    exact signalling.carry moved h' coh (born rfl) (fun _ _ hp => hp) rfl rfl
  | endCall x =>
    cases hx
    refine signalling.carry moved h' coh (born rfl) (fun _ _ hp => hp) ?_ ?_
    all_goals cases x <;> rfl
  | fetchAddNdevices | initDevice d dev | deleteDevice d =>
    cases hx
    exact signalling.carry moved h' coh (born rfl) (fun _ _ hp => hp) rfl rfl
  | _ =>
    have frame := exec_frame hx
    have devs := frame.devs rfl
    refine signalling.carry moved h' coh (born rfl) (fun p _ hp => ?_) (by rw [devs]) (by rw [devs])
    rwa [frame.net rfl] at hp

theorem Tracked.takeContinuation (h : Tracked P w) (books : Books P w) (coh : Coherence cfg G w)
    {o : Op} {m : Manager} {i : Nat} {e : Entry} {st : Status}
    (found : (w.store.attached m)[i]? = some e) (outcome : w.outcome cfg e = some st) :
    Tracked P (w.takeContinuation t o m i e st) := by
  have here := List.mem_of_getElem? found
  have attached := books.filed.attached_of_mem here
  have consumed : Tracked P (w.consume e.request st e.mpiReq) := by
    unfold World.outcome at outcome
    unfold World.consume
    cases handle : e.mpiReq with
    | none => exact h
    | some x =>
      have own := ((coh.attached m e here).coherent.handle x handle).2
      cases hq : w.net.reqs x with
      | none => simp [handle, hq] at outcome
      | some q =>
        obtain ⟨isRecv, buffer, layout, peer, tag, state⟩ := q
        cases state with
        | complete st' =>
          simp only [handle, hq, Option.some.injEq] at outcome
          subst outcome
          have done := h.consume hq rfl (books.matching.got hq rfl)
          rw [own] at done
          simp only [hq]
          exact done
        | _ => simp [handle, hq] at outcome
  refine consumed.carry (fun p hp => ?_) ?_ ?_ ?_ ?_
  · have store : (w.consume e.request st e.mpiReq).store = w.store := by rw [World.consume_eq]
    rw [store]
    rw [World.takeContinuation_eq] at hp
    by_cases same : p = e.request
    · rw [same, attached]
      rfl
    · exact (congrArg Stage.begun (Function.update_of_ne same _ _)).symm.trans hp
  all_goals rw [World.takeContinuation_eq]

theorem Signalling.takeContinuation (h : Signalling w) (coh : Coherence cfg G w) {o : Op} {m : Manager} {i : Nat} {e : Entry} {st : Status}
    (found : (w.store.attached m)[i]? = some e) :
    Signalling (w.takeContinuation t o m i e st) := by
  have user := (coh.attached m e (List.mem_of_getElem? found)).op
  have other {p : RequestPtr} (op : p.posted.op = .putSignal) : p ≠ e.request := by
    rintro rfl
    exact user op
  have stage {p : RequestPtr} (op : p.posted.op = .putSignal) :
      (w.takeContinuation t o m i e st).store.stage p = w.store.stage p := by
    rw [World.takeContinuation_eq]
    exact Function.update_of_ne (other op) _ _
  have devs : (w.takeContinuation t o m i e st).devs = w.devs := by rw [World.takeContinuation_eq]
  refine ⟨fun p op hp => ?_, fun p op hp => ?_, fun p op hp => ?_⟩
  · rw [stage op]
    refine h.taken p op fun none => hp ?_
    rw [World.takeContinuation_eq]
    unfold World.consume
    cases e.mpiReq with
    | none => exact none
    | some x =>
      cases hq : w.net.reqs x with
      | none =>
        simp only [hq]
        exact none
      | some q =>
        simp only [hq]
        exact (Function.update_of_ne (other op) _ _).trans none
  · rw [stage op] at hp
    rw [devs]
    exact h.known p op hp
  · rw [stage op] at hp
    rw [devs]
    exact h.home p op hp

/-- User receives do not accept the messages of puts. -/
theorem Matching.put_accepted (h : Matching P w) {m : Message} {x : Handle} {q : MpiRequest}
    (hm : m ∈ w.net.inflight) (hq : w.net.reqs x = some q)
    (accepts : World.accepts cfg m x q = true) (tagged : P.tagged = true)
    (put : m.request.posted.op = .put) : x.request.posted.op = .putSignal := by
  simp only [World.accepts, Bool.and_eq_true, beq_iff_eq] at accepts
  obtain ⟨⟨⟨⟨isRecv, -⟩, -⟩, -⟩, tag⟩ := accepts
  have ok := h.req x q hq
  obtain ⟨okm, -⟩ := h.flying m hm
  refine (ok.recv.mp isRecv).resolve_left fun recv => ?_
  have user := (ok.recvTag tagged recv).ne_put tagged
  rw [← ok.tag, tag, okm.tag, okm.putTag put] at user
  exact user rfl

theorem env_tracked (matching : Matching P w) (tracked : Tracked P w) (step : EnvStep cfg w w') :
    Tracked P w' := by
  cases step with
  | sendDone x q hq send pending => exact tracked.sendDone hq pending
  | deliver i m x q hm hq pending accepts =>
    exact tracked.deliver hm hq pending
      (matching.put_accepted (List.mem_of_getElem? hm) hq accepts)
  | write b bytes hb =>
    refine ⟨tracked.own, tracked.sent, tracked.flying, fun p x hp => ?_, tracked.live, tracked.got⟩
    obtain ⟨q, st, m, met⟩ := tracked.met p x hp
    exact ⟨q, st, m, met.same rfl fun _ => rfl⟩

theorem env_signalling (signalling : Signalling w) (step : EnvStep cfg w w') : Signalling w' := by
  cases step <;> exact ⟨signalling.taken, signalling.known, signalling.home⟩

end Steps

section Runs

variable {s : (machine cfg).State}

/-- Nothing that was sent or received is lost track of. -/
theorem tracked_of_reach (h : Reach (Orderly P) (start cfg) s) :
    Tracked P s.shared ∧ Signalling s.shared := by
  induction h with
  | init =>
    refine ⟨⟨fun x _ hx => absurd rfl hx, fun p _ hp => ?_, fun p hp => ?_, fun p x hp => ?_,
      fun x q hp => ?_, fun x q hp => ?_⟩,
      ⟨fun p _ hp => absurd rfl hp, fun p _ hp => absurd rfl hp, fun p _ hp => absurd rfl hp⟩⟩
    all_goals cases hp
  | step e prior ok step ih =>
    obtain ⟨tracked, signalling⟩ := ih
    have books := books_of_reach prior
    have coh := coherent_of_reach prior
    have later := Reach.step e prior ok step
    have books' := books_of_reach later
    have coh' := coherent_of_reach later
    cases e with
    | exec t =>
      obtain ⟨o, k, r, w, hp, hx, rfl⟩ := System.step_exec step
      have pre := ledgerPre_of_reach prior (nextOp_eq_some.mpr ⟨k, hp⟩)
      exact ⟨exec_tracked books tracked pre hx,
        exec_signalling books books' coh' signalling pre hx⟩
    | intr t i =>
      obtain ⟨o, k, p, w, -, hi, rfl⟩ := System.step_intr step
      cases i with
      | call c =>
        obtain ⟨-, -, -, rfl⟩ := intr_call hi
        exact ⟨tracked.carry (fun _ hp => hp) rfl rfl rfl rfl,
          ⟨signalling.taken, signalling.known, signalling.home⟩⟩
      | continuation m i =>
        obtain ⟨-, -, -, e, st, found, outcome, -, rfl⟩ := intr_continuation hi
        exact ⟨tracked.takeContinuation books coh found outcome,
          signalling.takeContinuation coh found⟩
    | env e =>
      obtain ⟨w, he, rfl⟩ := System.step_env step
      have moves := env_cases he
      exact ⟨env_tracked books.matching tracked moves, env_signalling signalling moves⟩

end Runs

end Lcw.Mpi
