/- digest: Nothing is used that is not there, and every allocated request is still known. -/

import Lcw.Mpi.Granted
import Lcw.Mpi.Locking

set_option autoImplicit false
set_option relaxedAutoImplicit false

namespace Lcw.Mpi

open Interleave
open Function (update)

variable {cfg : Config} {P : PutRules cfg} {G : Guard} {t : Tid} {w w' : World}

section Stages

/-- The stage an operation can bring a `request_t` into. -/
def Op.brings (t : Tid) : Op → Stage → Prop
  | .newRequest .., s => s = .owned t .posting
  | .isend .., s | .irecv .., s => s = .owned t .started
  | .pushBack m _, s => s = .queued m
  | .continue m _ _, s => s = .attached m
  | .popFront _, s | .test _, s => s = .owned t .held
  | .writeSlot d _, s => s = .armed d
  | .signal .., s => s = .owned t .spent
  | .deleteRequest _, s => s = .gone
  | _, _ => False

theorem exec_stage {o : Op} {r : o.Ret} (hx : exec cfg t o w = some (r, w')) :
    w'.store.stage = w.store.stage ∨
      ∃ p s, o.brings t s ∧ w'.store.stage = update w.store.stage p s := by
  cases o with
  | newRequest q c =>
    cases hx
    exact .inr ⟨_, _, rfl, by rw [World.newRequest_eq]⟩
  | isend a n ty dest tag comm p =>
    rcases exec_isend hx with ⟨-, rfl⟩ | ⟨-, -, rfl⟩
    · exact .inl rfl
    · exact .inr ⟨p, _, rfl, by rw [World.isend_eq]⟩
  | irecv a n ty source tag comm p =>
    rcases exec_irecv hx with ⟨-, rfl, -⟩ | ⟨-, rfl⟩
    · exact .inl rfl
    · exact .inr ⟨p, _, rfl, by rw [World.irecv_eq]⟩
  | pushBack m e =>
    cases hx
    exact .inr ⟨e.request, _, rfl, by rw [World.pushBack_eq]⟩
  | «continue» m e f =>
    cases hx
    exact .inr ⟨e.request, _, rfl, by rw [World.attach_eq]⟩
  | popFront m =>
    obtain ⟨rest, -, rfl⟩ := exec_popFront hx
    exact .inr ⟨_, _, rfl, rfl⟩
  | test x =>
    cases x with
    | none =>
      cases hx
      exact .inl rfl
    | some x =>
      cases exec_test hx with
      | taken q st hq done ok op => exact .inr ⟨x.request, _, rfl, rfl⟩
      | _ => exact .inl rfl
  | writeSlot d e =>
    cases hx
    exact .inr ⟨e.request, _, rfl, rfl⟩
  | signal c q p =>
    cases hx
    exact .inr ⟨p, _, rfl, by rw [World.signal_eq]⟩
  | deleteRequest p =>
    obtain ⟨_, -, e⟩ := Option.map_eq_some_iff.mp hx
    cases e
    exact .inr ⟨p, _, rfl, rfl⟩
  | writeRequest p q | clearSlot d =>
    obtain ⟨_, -, e⟩ := Option.map_eq_some_iff.mp hx
    cases e
    exact .inl rfl
  | cqPop c =>
    rcases exec_cqPop hx with ⟨-, rfl⟩ | ⟨x, rest, -, -, rfl⟩ <;> exact .inl rfl
  | _ => exact .inl (by rw [(exec_frame hx).store rfl])

/-- Posted, and not freed. -/
def Stage.alive : Stage → Bool
  | .unborn | .gone => false
  | _ => true

theorem StageMove.ne {s s' : Stage} (h : StageMove t s s') : s ≠ s' := by
  cases h <;> simp

/-- An operation that moves a `request_t` has brought it where it is. -/
theorem exec_brings (h : Books P w) {o : Op} {r : o.Ret} (pre : ledgerPre P t o (account t w))
    (hx : exec cfg t o w = some (r, w')) {p : RequestPtr}
    (moved : w'.store.stage p ≠ w.store.stage p) :
    StageMove t (w.store.stage p) (w'.store.stage p) ∧ o.brings t (w'.store.stage p) := by
  have at_p {q : RequestPtr} {s : Stage} (stage : w'.store.stage = update w.store.stage q s) :
      q = p ∧ w'.store.stage p = s := by
    by_cases e : p = q
    · subst e
      exact ⟨rfl, by rw [stage, Function.update_self]⟩
    · exact absurd (by rw [stage, Function.update_of_ne e]) moved
  constructor
  · rcases exec_moved h pre hx with same | ⟨q, s, move, stage, -⟩
    · exact absurd (congrFun same p) moved
    · obtain ⟨rfl, here⟩ := at_p stage
      rwa [here]
  · rcases exec_stage hx with same | ⟨q, s, brings, stage⟩
    · exact absurd (congrFun same p) moved
    · obtain ⟨rfl, here⟩ := at_p stage
      rwa [here]

/-- Only `new` and `delete` change which requests are alive. -/
theorem exec_alive (h : Books P w) {o : Op} {r : o.Ret} (pre : ledgerPre P t o (account t w))
    (hx : exec cfg t o w = some (r, w')) (new : ∀ q c, o ≠ .newRequest q c)
    (delete : ∀ p, o ≠ .deleteRequest p) (p : RequestPtr) :
    (w'.store.stage p).alive = (w.store.stage p).alive := by
  by_cases moved : w'.store.stage p = w.store.stage p
  · rw [moved]
  · obtain ⟨move, brings⟩ := exec_brings h pre hx moved
    generalize w.store.stage p = s at move
    generalize w'.store.stage p = s' at move brings
    cases move with
    | post =>
      cases o with
      | newRequest q c => exact absurd rfl (new q c)
      | _ => cases brings
    | delete =>
      cases o with
      | deleteRequest p => exact absurd rfl (delete p)
      | _ => cases brings
    | queue k m hk | attach k m hk => rcases hk with rfl | rfl <;> rfl
    | _ => rfl

end Stages

section Heap

/-- A `request_t` is allocated from its `new` to its `delete`; a put slot that was ever filled
stays filled, and names the receive that is out for it. -/
structure Stored (w : World) : Prop where
  heap : ∀ p, w.store.heap p ≠ none ↔ (w.store.stage p).alive = true
  slot : ∀ d, w.devs.builder d = none → w.net.phase d ≠ .unborn → w.store.slot d ≠ none
  armed : ∀ p d, w.store.stage p = .armed d →
    w.net.phase d = .armed ∧ ∃ e, w.store.slot d = some e ∧ e.request = p

/-- Operations that write the heap. -/
def Op.writesHeap : Op → Bool
  | .newRequest .. | .writeRequest .. | .deleteRequest _ => true
  | _ => false

theorem exec_same_heap {o : Op} {r : o.Ret} (hx : exec cfg t o w = some (r, w'))
    (plain : o.writesHeap = false) : w'.store.heap = w.store.heap := by
  cases o with
  | newRequest _ _ | writeRequest _ _ | deleteRequest _ => cases plain
  | isend a n ty dest tag comm q =>
    rcases exec_isend hx with ⟨-, rfl⟩ | ⟨-, -, rfl⟩
    · rfl
    · rw [World.isend_eq]
  | irecv a n ty source tag comm q =>
    rcases exec_irecv hx with ⟨-, rfl, -⟩ | ⟨-, rfl⟩
    · rfl
    · rw [World.irecv_eq]
  | pushBack m e =>
    cases hx
    rw [World.pushBack_eq]
  | «continue» m e f =>
    cases hx
    rw [World.attach_eq]
  | popFront m =>
    obtain ⟨rest, -, rfl⟩ := exec_popFront hx
    rfl
  | test x =>
    obtain rfl : (w.test cfg t x).2 = w' := congrArg Prod.snd (Option.some.inj hx)
    rw [World.test_eq]
  | signal c q x =>
    cases hx
    rw [World.signal_eq]
  | cqPop c =>
    rcases exec_cqPop hx with ⟨-, rfl⟩ | ⟨x, rest, -, -, rfl⟩ <;> rfl
  | writeSlot d e =>
    cases hx
    rfl
  | clearSlot d =>
    obtain ⟨_, -, e⟩ := Option.map_eq_some_iff.mp hx
    cases e
    rfl
  | _ => rw [(exec_frame hx).store rfl]

/-- The heap follows the stages. -/
theorem Stored.exec_heap (stored : Stored w) (h : Books P w) {o : Op} {r : o.Ret}
    (pre : ledgerPre P t o (account t w)) (hx : exec cfg t o w = some (r, w')) (p : RequestPtr) :
    w'.store.heap p ≠ none ↔ (w'.store.stage p).alive = true := by
  have before := stored.heap p
  have alive := exec_alive h pre hx
  have same := exec_same_heap hx
  cases o with
  | newRequest q c =>
    cases hx
    rw [World.newRequest_eq]
    by_cases e : p = w.freshPtr q c
    · subst e
      simp [Stage.alive]
    · simpa only [Function.update_of_ne e] using before
  | deleteRequest q =>
    obtain ⟨_, -, e⟩ := Option.map_eq_some_iff.mp hx
    cases e
    by_cases e : p = q
    · subst e
      simp [World.setStage, World.setHeap, Stage.alive]
    · simpa only [World.setStage, World.setHeap, Function.update_of_ne e] using before
  | writeRequest q x =>
    rw [alive (by simp) (by simp) p, ← before]
    obtain ⟨_, here, e⟩ := Option.map_eq_some_iff.mp hx
    cases e
    by_cases e : p = q
    · subst e
      simp [World.setHeap, here]
    · simp only [World.setHeap, Function.update_of_ne e]
  | _ =>
    rw [alive (by simp) (by simp) p, same rfl]
    exact before

def Op.writesSlot : Op → Bool
  | .writeSlot .. | .clearSlot _ => true
  | _ => false

theorem exec_same_slot {o : Op} {r : o.Ret} (hx : exec cfg t o w = some (r, w'))
    (plain : o.writesSlot = false) : w'.store.slot = w.store.slot := by
  by_cases quiet : o.files = false
  · exact (exec_same hx quiet).slot
  · cases o with
    | writeSlot _ _ | clearSlot _ => cases plain
    | pushBack m e =>
      cases hx
      rw [World.pushBack_eq]
    | popFront m =>
      obtain ⟨rest, -, rfl⟩ := exec_popFront hx
      rfl
    | «continue» m e f =>
      cases hx
      rw [World.attach_eq]
    | signal c q x =>
      cases hx
      rw [World.signal_eq]
    | cqPop c =>
      rcases exec_cqPop hx with ⟨-, rfl⟩ | ⟨x, rest, -, -, rfl⟩ <;> rfl
    | _ => exact absurd rfl quiet

/-- A slot that is filled is not emptied. -/
theorem exec_slot {o : Op} {r : o.Ret} (hx : exec cfg t o w = some (r, w')) {d : Dev}
    (filled : w.store.slot d ≠ none) : w'.store.slot d ≠ none := by
  have still (d' : Dev) (e : Entry) : (w.setSlot d' e).store.slot d ≠ none := by
    by_cases same : d = d'
    · subst same
      simp [World.setSlot]
    · simp only [World.setSlot, Function.update_of_ne same]
      exact filled
  cases o with
  | writeSlot d' e =>
    cases hx
    exact still d' e
  | clearSlot d' =>
    obtain ⟨e, -, eq⟩ := Option.map_eq_some_iff.mp hx
    cases eq
    exact still d' _
  | _ => rwa [exec_same_slot hx rfl]

/-- A slot whose thread is at work on it is filled, unless its device is being allocated. -/
theorem Stored.filled (stored : Stored w) (h : Books P w) {d : Dev} (mine : Controls t w d) :
    w.devs.builder d ≠ none ∨ w.store.slot d ≠ none := by
  rcases mine with locked | building
  · obtain ⟨built, born⟩ := h.slots.locked d (by simp [locked])
    exact .inr (stored.slot d built born)
  · exact .inl (by simp [building])

/-- A put slot changes its phase in the hands of the thread that controls it. -/
theorem exec_phase {o : Op} {r : o.Ret} (pre : ledgerPre P t o (account t w))
    (hx : exec cfg t o w = some (r, w')) {d : Dev} (changed : w'.net.phase d ≠ w.net.phase d) :
    Controls t w d ∧ w'.devs = w.devs ∧ (w.net.phase d = .armed → ∃ x, o = .test (some x) ∧
      x.comm.device = d ∧ x.request.posted.op = .putSignal ∧
        w'.store.stage x.request = .owned t .held) := by
  have here {d' : Dev} {x : Phase} (phase : w'.net.phase = update w.net.phase d' x) : d = d' := by
    by_contra other
    exact changed (by rw [phase, Function.update_of_ne other])
  have same (phase : w'.net.phase = w.net.phase) {C : Prop} : C := absurd (congrFun phase d) changed
  have pre := pre.2
  cases o with
  | isend a n ty dest tag comm p =>
    rcases exec_isend hx with ⟨-, rfl⟩ | ⟨-, -, rfl⟩
    · exact same rfl
    · exact same phase_start
  | irecv a n ty source tag comm p =>
    rcases exec_irecv hx with ⟨-, rfl, -⟩ | ⟨-, rfl⟩
    · exact same rfl
    · have started : (w.irecv cfg t a (Datatype.layout n ty) source tag comm p).2.net.phase =
          (w.expect comm p).net.phase := phase_start
      have devs : (w.irecv cfg t a (Datatype.layout n ty) source tag comm p).2.devs = w.devs := by
        rw [World.irecv_eq]
      by_cases op : p.posted.op = .putSignal
      · have expected : (w.expect comm p).net.phase =
            update w.net.phase comm.device (.reposted (w.freshHandle comm p)) := by
          rw [World.expect, if_pos op]
          rfl
        obtain rfl := here (started.trans expected)
        have listen : (account t w).MayListen P a n ty source tag comm p :=
          pre.resolve_left fun may => by simp [may.op] at op
        obtain ⟨s, hs, resting, -⟩ := listen.slot
        rw [← listen.device] at hs
        obtain ⟨controls, rfl⟩ := slotOf_eq_some.mp hs
        refine ⟨controls, devs, fun armed => ?_⟩
        rcases resting with unborn | copied
        · cases armed.symm.trans unborn
        · cases armed.symm.trans copied
      · refine same (started.trans ?_)
        rw [World.expect, if_neg op]
  | test x =>
    cases x with
    | none =>
      cases hx
      exact same rfl
    | some x =>
      cases exec_test hx with
      | notYet => exact same rfl
      | failed dead => exact same rfl
      | taken q st hq done ok op =>
        obtain rfl := here rfl
        obtain ⟨s, e, hs, -⟩ := pre.slot op
        obtain ⟨controls, -⟩ := slotOf_eq_some.mp hs
        exact ⟨controls, rfl, fun _ => ⟨x, rfl, rfl, op, Function.update_self ..⟩⟩
      | done q st hq done ok op => exact same rfl
  | writeSlot d' e =>
    obtain ⟨s, x, hs, phase, -⟩ := pre
    cases hx
    obtain rfl := here rfl
    obtain ⟨controls, rfl⟩ := slotOf_eq_some.mp hs
    exact ⟨controls, rfl, fun armed => by cases armed.symm.trans phase⟩
  | memcpy dst src n =>
    obtain ⟨d', k, s, st, rfl, -, hs, phase, -⟩ := pre
    cases hx
    obtain rfl := here rfl
    obtain ⟨controls, rfl⟩ := slotOf_eq_some.mp hs
    exact ⟨controls, rfl, fun armed => by cases armed.symm.trans phase⟩
  | commCreate d' | commFree comm =>
    cases hx
    exact same rfl
  | _ => exact same (by rw [(exec_frame hx).net rfl])

theorem Stored.exec_slots (stored : Stored w) (h : Books P w) {o : Op} {r : o.Ret}
    (pre : ledgerPre P t o (account t w)) (hx : exec cfg t o w = some (r, w')) (d : Dev)
    (built : w'.devs.builder d = none) (born : w'.net.phase d ≠ .unborn) :
    w'.store.slot d ≠ none := by
  suffices w'.devs.builder d ≠ none ∨ w.store.slot d ≠ none from
    exec_slot hx (this.resolve_left fun h => h built)
  by_cases changed : w'.net.phase d = w.net.phase d
  · rw [changed] at born
    have kept (same : w'.devs.builder d = w.devs.builder d) : w.store.slot d ≠ none :=
      stored.slot d (same ▸ built) born
    cases o with
    | endCall x =>
      cases hx
      cases x with
      | device d' =>
        by_cases e : d = d'
        · subst e
          obtain ⟨s, hs, armed, -⟩ := pre.2.device d rfl
          obtain ⟨-, rfl⟩ := slotOf_eq_some.mp hs
          obtain ⟨entry, -, -, slot, -⟩ := (h.slots.listening d).armed armed
          exact .inr (by simp [slot])
        · exact .inr (kept (Function.update_of_ne e _ _))
      | _ => exact .inr (kept rfl)
    | newDevice =>
      cases hx
      by_cases e : d = ⟨t.rank, w.devs.nextAddr t.rank⟩
      · subst e
        exact .inl (by simp)
      · exact .inr (kept (Function.update_of_ne e _ _))
    | fetchAddNdevices | initDevice d dev | deleteDevice d =>
      cases hx
      exact .inr (kept rfl)
    | _ => exact .inr (kept (by rw [(exec_frame hx).devs rfl]))
  · obtain ⟨controls, devs, -⟩ := exec_phase pre hx changed
    rw [devs]
    exact stored.filled h controls

/-- The receive a put slot names is out for it as long as it is there. -/
theorem Stored.exec_armed (stored : Stored w) (h : Books P w) (coh : Coherence cfg G w) {o : Op}
    {r : o.Ret} (pre : ledgerPre P t o (account t w)) (hx : exec cfg t o w = some (r, w'))
    (p : RequestPtr) (d : Dev) (here : w'.store.stage p = .armed d) :
    w'.net.phase d = .armed ∧ ∃ e, w'.store.slot d = some e ∧ e.request = p := by
  by_cases moved : w'.store.stage p = w.store.stage p
  · obtain ⟨armed, e, slot, own⟩ := stored.armed p d (moved.symm.trans here)
    have phase : w'.net.phase d = .armed := by
      by_contra changed
      obtain ⟨-, -, tested⟩ := exec_phase pre hx fun same => changed (same.trans armed)
      obtain ⟨x, rfl, rfl, op, held⟩ := tested armed
      obtain ⟨s, e', hs, -, entry, handle⟩ := pre.2.slot op
      obtain ⟨-, rfl⟩ := slotOf_eq_some.mp hs
      obtain rfl : e = e' := Option.some.inj (slot.symm.trans entry)
      rw [((coh.slot _ e slot).coherent.handle x handle).2, own, here] at held
      cases held
    refine ⟨phase, ?_⟩
    have kept (same : w'.store.slot d = w.store.slot d) :
        ∃ e, w'.store.slot d = some e ∧ e.request = p := ⟨e, same.trans slot, own⟩
    cases o with
    | writeSlot d' e' =>
      obtain ⟨s, x, hs, reposted, -⟩ := pre.2
      obtain ⟨-, rfl⟩ := slotOf_eq_some.mp hs
      cases hx
      refine kept (Function.update_of_ne ?_ _ _)
      rintro rfl
      cases armed.symm.trans reposted
    | clearSlot d' =>
      obtain ⟨s, st, hs, taken⟩ := pre.2
      obtain ⟨-, rfl⟩ := slotOf_eq_some.mp hs
      obtain ⟨e', -, eq⟩ := Option.map_eq_some_iff.mp hx
      cases eq
      refine kept (Function.update_of_ne ?_ _ _)
      rintro rfl
      cases armed.symm.trans taken
    | _ => exact kept (by rw [exec_same_slot hx rfl])
  · obtain ⟨-, brings⟩ := exec_brings h pre hx moved
    rw [here] at brings
    cases o with
    | writeSlot d' e =>
      obtain rfl : d = d' := Stage.armed.inj brings
      cases hx
      refine ⟨Function.update_self .., e, Function.update_self .., ?_⟩
      by_contra other
      exact moved (Function.update_of_ne (Ne.symm other) _ _)
    | _ => cases brings

theorem Stored.exec (stored : Stored w) (h : Books P w) (coh : Coherence cfg G w) {o : Op}
    {r : o.Ret} (pre : ledgerPre P t o (account t w)) (hx : exec cfg t o w = some (r, w')) :
    Stored w' where
  heap := stored.exec_heap h pre hx
  slot := stored.exec_slots h pre hx
  armed := stored.exec_armed h coh pre hx

theorem Stored.takeContinuation (stored : Stored w) (filed : Filed cfg w) {o : Op} {m : Manager}
    {i : Nat} {e : Entry} {st : Status} (found : (w.store.attached m)[i]? = some e) :
    Stored (w.takeContinuation t o m i e st) := by
  have attached := filed.attached_of_mem (List.mem_of_getElem? found)
  rw [World.takeContinuation_eq]
  refine ⟨fun p => ?_, fun d built born => ?_, fun p d here => ?_⟩
  · refine (stored.heap p).trans ?_
    by_cases same : p = e.request
    · subst same
      simp [attached, Stage.alive]
    · simp [Function.update_of_ne same]
  · exact stored.slot d built (by rwa [consume_phase] at born)
  · have other : p ≠ e.request := by
      rintro rfl
      simp at here
    simp only [Function.update_of_ne other] at here
    rw [consume_phase]
    exact stored.armed p d here

/-- The heap, the slots and the stages agree in every reached state. -/
theorem stored_of_reach {ok : (machine cfg).State → (machine cfg).Event → Prop}
    {s : (machine cfg).State} (h : System.Reach ok (start cfg) s) : Stored s.shared := by
  refine (h.strengthen fun _ reached => And.intro (ledgered_of_reach reached)
    (coherent_of_reach reached)).invariant (I := fun s => Stored s.shared) ?_
    fun s e s' stored ok step => ?_
  · refine ⟨fun p => ?_, fun d _ born => absurd rfl born, fun p d here => ?_⟩
    · exact iff_of_false (fun there => there rfl) (by simp [start, World.initial, Stage.alive])
    · cases here
  · obtain ⟨-, ⟨books, pre⟩, coh⟩ := ok
    cases e with
    | exec t =>
      obtain ⟨o, k, r, w, hp, hx, rfl⟩ := System.step_exec step
      exact stored.exec books coh (pre t o (nextOp_eq_some.mpr ⟨k, hp⟩)) hx
    | intr t i =>
      obtain ⟨o, k, p, w, -, hi, rfl⟩ := System.step_intr step
      cases i with
      | call c =>
        obtain ⟨-, -, -, rfl⟩ := intr_call hi
        exact ⟨stored.heap, stored.slot, stored.armed⟩
      | continuation m i =>
        obtain ⟨-, -, -, e, st, found, -, -, rfl⟩ := intr_continuation hi
        exact stored.takeContinuation books.filed found
    | env e =>
      obtain ⟨w, he, rfl⟩ := System.step_env step
      cases env_cases he <;> exact ⟨stored.heap, stored.slot, stored.armed⟩

end Heap

section Safety

variable {s : (machine cfg).State}

/-- What keeps a thread from going on: a spinlock another call holds, an assertion that failed, or
a device that the client has freed during the call. -/
inductive Halts (w : World) (t : Tid) : Op → Prop
  | locked (l : Lock) (u : Tid) (owner : w.sync.owner l = some u) : Halts w t (.lock l)
  | stopped (f : Failure) : Halts w t (.abort f)
  | freed (d : Dev) (c : Call) (inside : c ∈ (w.client.acts t).map Activation.call)
      (device : c.device? = some d) (gone : w.devs.published d = false) :
      Halts w t (.readDevice d)

/-- The next operation of a thread finds what it needs, or the thread halts. -/
theorem halts_of_stuck (h : System.Reach (fun _ _ => True) (start cfg) s) {t : Tid} {o : Op}
    (next : nextOp s t = some o) (stuck : exec cfg t o s.shared = none) : Halts s.shared t o := by
  have ledger := ledgered_of_reach h
  have stored := stored_of_reach h
  have books := ledger.books
  have known : (graspDiscipline cfg).Holds s :=
    (graspDiscipline cfg).reach grasp_start ((h.strengthen fun s reached =>
      And.intro (ledgered_of_reach reached) ((structureDiscipline cfg .none).reach structure_start
        (reached.mono fun s e _ => regular_none s e))).mono fun _ _ ok => ok.2)
  have pre := (ledger.pre t o next).2
  have grasped : graspPre o (grasp t s.shared) := by
    obtain ⟨k, hk⟩ := nextOp_eq_some.mp next
    have mine := known.2 t
    rw [hk] at mine
    exact mine.1
  -- a request in the hands of a thread is allocated
  have held {p : RequestPtr} {x : Token} (token : (account t s.shared).token p = some x) :
      s.shared.store.heap p ≠ none := by
    refine (stored.heap p).mpr ?_
    rw [(tokenOf_eq_some.mp token).1]
    rfl
  -- a device that is in use has its slot filled
  have filled {d : Dev} (progress : ∃ rest, (grasp t s.shared).calls = .doProgress d :: rest) :
      s.shared.store.slot d ≠ none := by
    obtain ⟨rest, calls⟩ := progress
    have inside : Call.doProgress d ∈ (s.shared.client.acts t).map Activation.call := by
      rw [show (s.shared.client.acts t).map Activation.call = _ from calls]
      exact List.mem_cons_self
    obtain ⟨built, born⟩ := books.built rfl inside
    exact stored.slot d built born
  cases o with
  | lock l =>
    simp only [exec] at stuck
    split at stuck
    · cases stuck
    · rename_i taken
      obtain ⟨u, owner⟩ := Option.ne_none_iff_exists'.mp taken
      exact .locked l u owner
  | abort f => exact .stopped f
  | readRequest p | writeRequest p q | deleteRequest p =>
    obtain ⟨x, token, -⟩ := pre
    exact absurd (Option.map_eq_none_iff.mp stuck) (held token)
  | popFront m =>
    have full : (grasp t s.shared).deque m = some true := grasped
    simp only [grasp] at full
    split at full
    · simp only [exec] at stuck
      split at stuck
      · rename_i empty
        simp [empty] at full
      · cases stuck
    · cases full
  | slotRequest d | readSlot d | clearSlot d =>
    exact absurd (Option.map_eq_none_iff.mp stuck) (filled grasped)
  | readDevice d =>
    have absent : s.shared.devs.table d = none := Option.map_eq_none_iff.mp stuck
    rcases grasped with made | ⟨c, rest, calls, device⟩
    · exact absurd absent made.2
    · refine .freed d c ?_ device ?_
      · rw [show (s.shared.client.acts t).map Activation.call = _ from calls]
        exact List.mem_cons_self
      · by_contra there
        exact known.1.table d (by simpa using there) absent
  | tryLock l | isend a n ty dest tag comm p | irecv a n ty source tag comm p | allocate n =>
    simp only [exec] at stuck
    split at stuck <;> cases stuck
  | _ => cases stuck

end Safety

section Waiting

variable {s : (machine cfg).State}

/-- A thread that has finished has released its locks. -/
theorem unlocked_of_finished (request : cfg.compType = .request)
    (h : System.Reach (fun _ _ => True) (start cfg) s) {t : Tid} (done : s.prog t = .ret ())
    (l : Lock) : s.shared.sync.owner l ≠ some t := by
  have regular := h.mono fun s e _ => regular_none s e
  have none : (stance t s.shared).locks = ∅ := by
    refine (structureDiscipline cfg .none).finished (I := fun o => o = .userCode)
      (Q := fun _ v => Stance.locks v = ∅) structure_start regular
      (fun u o v r v' last pre post => ?_) (fun u => ?_) done
    · subst last
      have same : v' = v := post
      rw [same]
      exact pre.2 request
    · by_cases job : u.rank < cfg.nranks ∧ u.index < cfg.nthreads
      · refine .inr ?_
        simp only [start, if_pos job]
        exact fun _ => .inl ⟨rfl, _, rfl⟩
      · refine .inl ⟨if_neg job, ?_⟩
        simp [start, structureDiscipline, stance, World.initial]
  intro mine
  have here : l ∈ (stance t s.shared).locks := mine
  simp [none] at here

/-- Under the REQUEST manager, who waits for a lock waits, in the end, for a thread that can take
its next step, or that has stopped for a failed assertion or for a device the client has freed. -/
theorem lock_waits_end (request : cfg.compType = .request)
    (h : System.Reach (fun _ _ => True) (start cfg) s) {t : Tid} {l : Lock}
    (next : nextOp s t = some (.lock l)) (taken : s.shared.sync.owner l ≠ none) :
    ∃ u o, Relation.TransGen (Blocked s.shared.sync.owner (waitsFor s)) t u ∧
      nextOp s u = some o ∧ ((∃ s', System.step s (.exec u) = some s') ∨ (∃ f, o = .abort f) ∨
        ∃ d, o = .readDevice d ∧ s.shared.devs.published d = false) := by
  have rising : RisingWaits s.shared.sync.owner (waitsFor s) Lock.rank :=
    rising_waits (G := .none) request (h.mono fun _ _ _ => regular_none _ _)
  obtain ⟨v, owner⟩ := Option.ne_none_iff_exists'.mp taken
  have bound (l : Lock) : Lock.rank l ≤ 2 := by cases l <;> simp [Lock.rank]
  obtain ⟨u, chain, last⟩ := rising.ends bound ⟨l, waitsFor_eq_some.mpr next, owner⟩
  obtain ⟨l', k, -, holds, -⟩ := rising.chain chain
  cases prog : s.prog u with
  | ret a => exact absurd holds (unlocked_of_finished request h prog k)
  | op o rest =>
    have next : nextOp s u = some o := nextOp_eq_some.mpr ⟨rest, prog⟩
    refine ⟨u, o, chain, next, ?_⟩
    cases stuck : exec cfg u o s.shared with
    | some x =>
      refine .inl ⟨⟨x.2, update s.prog u (rest x.1)⟩, ?_⟩
      simp only [System.step, prog, stuck, Option.map_some]
    | none =>
      cases halts_of_stuck h next stuck with
      | locked l x owner => exact absurd ⟨l, waitsFor_eq_some.mpr next, owner⟩ (last x)
      | stopped f => exact .inr (.inl ⟨f, rfl⟩)
      | freed d c inside device gone => exact .inr (.inr ⟨d, rfl, gone⟩)

/-- A send waits for the stream that another thread sends on, which goes on. -/
theorem lock_waits_end_send : ∃ s : (machine (smallJob .request true 0)).State,
    nextOp s ⟨0, 1⟩ = some (.lock (.stream ⟨0, 0⟩)) ∧ ∃ u o,
      Relation.TransGen (Blocked s.shared.sync.owner (waitsFor s)) ⟨0, 1⟩ u ∧
        nextOp s u = some o ∧ ((∃ s', System.step s (.exec u) = some s') ∨
          (∃ f, o = .abort f) ∨ ∃ d, o = .readDevice d ∧ s.shared.devs.published d = false) := by
  let J := smallJob .request true 0
  let call : Call := .send ⟨0, 0⟩ 0 3 (.user 0) 1 (some 5) 0
  let es := allocFirst J ++ .intr ⟨0, 0⟩ (.call call) :: steps J ⟨0, 0⟩ 3 ++
    .intr ⟨0, 1⟩ (.call call) :: steps J ⟨0, 1⟩ 2
  have played : (System.run (start J) es).map (fun s =>
      (nextOp s ⟨0, 1⟩, s.shared.sync.owner (.stream ⟨0, 0⟩))) =
      some (some (.lock (.stream ⟨0, 0⟩)), some ⟨0, 0⟩) := rfl
  obtain ⟨s, reached, found⟩ := System.reach_probe_any played
  obtain ⟨next, owner⟩ := Prod.mk.inj found
  exact ⟨s, next, lock_waits_end rfl reached next (by rw [owner]; simp)⟩

end Waiting

end Lcw.Mpi
