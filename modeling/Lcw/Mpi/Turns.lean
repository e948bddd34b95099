/- digest: The deque of a REQUEST manager is swept in turns, and who is complete is delivered. -/

import Lcw.Interleave.Observe
import Lcw.Interleave.RoundRobin
import Lcw.Mpi.LedgerSteps
import Lcw.Mpi.Quiet

set_option autoImplicit false
set_option relaxedAutoImplicit false

namespace Lcw.Mpi

open Interleave System
open Function (update)

/-- The deques of the managers. -/
abbrev deques : RoundRobin where
  K := Manager
  E := Entry

/-- What a thread does with an entry it has popped: it looks at the request of it, or owes its
completion. -/
inductive Hand
  | free
  | looking (m : Manager) (e : Entry)
  | owes (p : RequestPtr)

namespace Hand

/-- What the thread has in hand after an operation. -/
def next (v : Hand) : (o : Op) → o.Ret → Hand
  | .popFront m, e =>
    match Entry.mpiReq e with
    | none => .owes (Entry.request e)
    | some _ => .looking m e
  | .test _, r =>
    match v, (r : TestResult) with
    | .looking _ e, .done _ => .owes e.request
    | v, _ => v
  | .pushBack .., _ | .signal .., _ => .free
  | _, _ => v

/-- What the operation does to the deques: a turn ends when the request was looked at. -/
def shows (v : Hand) : (o : Op) → o.Ret → Option deques.Act
  | .popFront m, e =>
    match Entry.mpiReq e with
    | none => some (.turn m e true)
    | some _ => none
  | .test _, r =>
    match v, (r : TestResult) with
    | .looking m e, .done _ => some (.turn m e true)
    | _, _ => none
  | .pushBack m e, _ =>
    match v with
    | .looking .. => some (.turn m e false)
    | _ => some (.add m e)
  | _, _ => none

end Hand

/-- History of the deques: what each thread has in hand, and the turns so far. -/
structure Rounds where
  hand : Tid → Hand
  acts : List deques.Act

def Rounds.note (g : Rounds) (t : Tid) (o : Op) (r : o.Ret) : Rounds where
  hand := update g.hand t ((g.hand t).next o r)
  acts := g.acts ++ ((g.hand t).shows o r).toList

variable (cfg : Config)

/-- An onlooker that writes down the turns. -/
def roundKeeper : (machine cfg).Observer where
  Record := Rounds
  exec (t : Tid) (o : Op) (r : o.Ret) (g : Rounds) := g.note t o r
  intr _ _ g := g

abbrev rounded : System := (roundKeeper cfg).observed

def roundStart : (rounded cfg).State :=
  (roundKeeper cfg).beside (start cfg) ⟨fun _ => .free, []⟩

/-- Threads look at the request of what they popped, then put the entry back or deliver it. -/
def roundContract : Contract Op Op.Ret Hand where
  pre
    | .popFront _, v | .userCode, v | .endCall _, v => v = .free
    | .unlock (.manager _), v => ∀ m e, v ≠ .looking m e
    | .test h, v => ∀ m e, v = .looking m e → h = e.mpiReq
    | .pushBack m e, v => v = .free ∨ v = .looking m e
    | .signal _ _ p, v => v = .free ∨ v = .owes p
    | _, _ => True
  post o v r v' := v' = v.next o r

variable {cfg}

section Programs

/-- Operations that need nothing in hand and take nothing into it. -/
def Op.calm : Op → Prop
  | .popFront _ | .userCode | .endCall _ | .test _ | .pushBack .. | .signal ..
  | .unlock (.manager _) => False
  | _ => True

/-- With free hands a thread may do anything, and has free hands after all but one operation. -/
def Op.level : Op → Prop
  | .popFront _ => False
  | _ => True

theorem calm_of_plain (o : Op) (h : o.plain) : o.calm := by
  cases o with
  | unlock l =>
    obtain ⟨d, rfl⟩ := h
    trivial
  | _ => first | exact h.elim | trivial

theorem level_of_unmanaged (o : Op) (h : o.unmanaged) : o.level := by
  cases o <;> first | exact h.elim | trivial

theorem level_of_plain (o : Op) (h : o.plain) : o.level := level_of_unmanaged o h.unmanaged

theorem calm_quiet (o : Op) (v : Hand) (h : o.calm) : roundContract.pre o v ∧
    ∀ r v', roundContract.post o v r v' → v' = v := by
  cases o with
  | unlock l => cases l <;> first | exact h.elim | exact ⟨trivial, fun _ _ hv => hv⟩
  | _ => first | exact h.elim | exact ⟨trivial, fun _ _ hv => hv⟩

theorem level_quiet (o : Op) (h : o.level) : roundContract.pre o .free ∧
    ∀ r v', roundContract.post o .free r v' → v' = .free := by
  cases o with
  | popFront m => exact h.elim
  | unlock l => cases l <;> exact ⟨by simp [roundContract], fun _ _ hv => hv⟩
  | test h => exact ⟨by simp [roundContract], fun _ _ hv => hv⟩
  | pushBack m e | signal c q p => exact ⟨.inl rfl, fun _ _ hv => hv⟩
  | userCode | endCall r => exact ⟨rfl, fun _ _ hv => hv⟩
  | _ => exact ⟨trivial, fun _ _ hv => hv⟩

/-- A program that starts and ends with free hands. -/
def AtRest {α : Type} (p : Code α) : Prop := roundContract.wp p (fun _ v => v = .free) .free

theorem atRest_of_uses {α : Type} {p : Code α} (h : p.Uses Op.level) : AtRest p :=
  roundContract.wp_of_uses_at level_quiet h

theorem atRest_bind {α β : Type} {p : Code α} {f : α → Code β} (hp : AtRest p)
    (hf : ∀ a, AtRest (f a)) : AtRest (p.bind f) := by
  refine roundContract.wp_call hp fun a v hv => ?_
  rw [hv]
  exact hf a

theorem atRest_ret {α : Type} {a : α} : AtRest (.ret a : Code α) := rfl

theorem atRest_act {o : Op} (h : o.level) : AtRest (act o) := atRest_of_uses (uses_act h)

theorem calm_hand {α : Type} {p : Code α} (h : p.Uses Op.calm) (v : Hand) :
    roundContract.wp p (fun _ v' => v' = v) v := roundContract.wp_of_uses calm_quiet h v

/-- What is owed is delivered before anything else can happen. -/
theorem signalComp_owed {e : Entry} :
    roundContract.wp (signalComp cfg e) (fun _ v => v = .free) (.owes e.request) := by
  refine roundContract.wp_act trivial fun q v hv => ?_
  obtain rfl : v = .owes e.request := hv
  refine roundContract.wp_call (calm_hand (uses_countCompletion calm_of_plain
    (fun _ => trivial) _ _) _) fun _ v hv => ?_
  obtain rfl := hv
  refine roundContract.wp_act trivial fun _ v hv => ?_
  obtain rfl : v = .owes e.request := hv
  refine roundContract.wp_call (R := fun _ v => v = .free) ?_ fun _ v hv => ?_
  · cases e.completion with
    | none => exact ⟨trivial, fun r => r.elim⟩
    | some c =>
      refine roundContract.wp_act (.inr rfl) fun _ v hv => ?_
      obtain rfl : v = .free := hv
      exact atRest_of_uses (uses_when (uses_act trivial))
  · obtain rfl := hv
    exact atRest_act trivial

theorem managerReqComplete_owed {e : Entry} {st : Status} :
    roundContract.wp (managerReqComplete cfg e st) (fun _ v => v = .free) (.owes e.request) := by
  refine roundContract.wp_act trivial fun q v hv => ?_
  obtain rfl : v = .owes e.request := hv
  refine roundContract.wp_call (calm_hand (uses_assert calm_of_plain) _) fun _ v hv => ?_
  obtain rfl := hv
  refine roundContract.wp_call (calm_hand (uses_when (uses_act trivial)) _) fun _ v hv => ?_
  obtain rfl := hv
  exact signalComp_owed

/-- What a look at a popped entry finds. -/
def Hand.Looked (m : Manager) (e : Entry) (st : Option Status) (v : Hand) : Prop :=
  match st with
  | none => v = .looking m e
  | some _ => v = .owes e.request

theorem mpiTest_looking {m : Manager} {e : Entry} {h : Handle} (own : e.mpiReq = some h) :
    roundContract.wp (mpiTest (some h)) (Hand.Looked m e) (.looking m e) := by
  refine roundContract.wp_act (fun m' e' same => ?_) fun r v hv => ?_
  · cases same
    exact own.symm
  · cases r with
    | notYet => exact hv
    | done st => exact hv
    | failed => exact ⟨trivial, fun r => r.elim⟩

theorem managerReqTest_popped {m : Manager} {e : Entry} {v : Hand}
    (popped : v = Hand.next .free (.popFront m) e) :
    roundContract.wp (managerReqTest cfg e) (Hand.Looked m e) v := by
  unfold managerReqTest
  cases own : e.mpiReq with
  | none =>
    simp only [Hand.next, own] at popped
    exact popped
  | some h =>
    simp only [Hand.next, own] at popped
    subst popped
    refine roundContract.wp_call (calm_hand (uses_enter calm_of_plain) _) fun _ v hv => ?_
    obtain rfl := hv
    refine roundContract.wp_call (mpiTest_looking own) fun st v looked => ?_
    refine roundContract.wp_call (calm_hand (uses_leave calm_of_plain) v) fun _ v' hv => ?_
    obtain rfl := hv
    exact looked

theorem atRest_managerReq {m : Manager} : AtRest (managerReqDoProgress cfg m) := by
  have unlock {α : Type} {b : α} :
      AtRest ((act (.unlock (.manager m))).bind fun _ => .ret b) :=
    atRest_bind (atRest_act trivial) fun _ => atRest_ret
  refine atRest_bind (atRest_act trivial) fun empty => ?_
  cases empty with
  | true => exact atRest_ret
  | false =>
  refine atRest_bind (atRest_act trivial) fun taken => ?_
  cases taken with
  | false => exact atRest_ret
  | true =>
  refine atRest_bind (atRest_act trivial) fun empty => ?_
  cases empty with
  | true => exact unlock
  | false =>
  refine roundContract.wp_act rfl fun e v popped => ?_
  refine roundContract.wp_call (managerReqTest_popped popped) fun st v looked => ?_
  cases st with
  | none =>
    obtain rfl : v = .looking m e := looked
    refine roundContract.wp_act (.inr rfl) fun _ v hv => ?_
    obtain rfl : v = .free := hv
    exact unlock
  | some st =>
    obtain rfl : v = .owes (Entry.request e) := looked
    refine roundContract.wp_act (fun m e same => by cases same) fun _ v hv => ?_
    obtain rfl : v = .owes (Entry.request e) := hv
    exact roundContract.wp_call managerReqComplete_owed fun _ _ hv => hv

theorem atRest_callBody (request : cfg.compType = .request) (c : Call) :
    AtRest (callBody cfg c) := by
  have handed (m : Manager) (e : Entry) : (addEntry cfg m e).Uses Op.level :=
    uses_addEntry level_of_plain (fun _ => ⟨trivial, trivial, trivial⟩) trivial trivial
  have count (k : Counter) : Op.level (.pcounterAdd k) := trivial
  cases c with
  | send d rank tag buf length comp ctx =>
    exact atRest_of_uses (uses_counted count (uses_send level_of_unmanaged handed))
  | recv d rank tag buf length comp ctx =>
    exact atRest_of_uses (uses_counted count (uses_recv level_of_unmanaged handed))
  | put d rank buf length comp ctx =>
    exact atRest_of_uses (uses_counted count (uses_put level_of_unmanaged handed))
  | doProgress d =>
    refine atRest_bind (atRest_act trivial) fun _ => atRest_bind ?_ fun _ => atRest_ret
    refine atRest_bind (atRest_act trivial) fun device => ?_
    refine atRest_bind (atRest_of_uses (uses_putSlotProgress level_of_unmanaged trivial
      (fun _ _ _ => trivial) fun _ => ⟨trivial, trivial, trivial⟩)) fun _ => ?_
    refine atRest_bind ?_ fun _ => atRest_ret
    unfold managerDoProgress
    rw [request]
    exact atRest_managerReq
  | pollCq c => exact atRest_of_uses (uses_pollCq count trivial)
  | barrier d =>
    exact atRest_bind (atRest_of_uses (uses_barrier level_of_plain d)) fun _ => atRest_ret
  | allocDevice n c =>
    exact atRest_bind (atRest_of_uses (uses_allocDevice level_of_unmanaged)) fun _ => atRest_ret
  | freeDevice d =>
    exact atRest_bind (atRest_of_uses (uses_freeDevice level_of_plain d)) fun _ => atRest_ret

theorem atRest_apiCall (request : cfg.compType = .request) (c : Call) :
    AtRest (apiCall cfg c) :=
  atRest_bind (atRest_callBody request c) fun _ => atRest_act trivial

end Programs

section Deques

/-- The completion of an operation has been given to a completion object. -/
def World.Signalled (w : World) (p : RequestPtr) : Prop :=
  ∃ c, ∃ x ∈ w.store.delivered c, x.origin = p

/-- The entry that the owner of a manager's lock is looking at. -/
def front (w : World) (g : Rounds) (m : Manager) : List Entry :=
  match (w.sync.owner (.manager m)).map g.hand with
  | some (.looking m' e) => if m' = m then [e] else []
  | _ => []

/-- A deque, with the entry that is being looked at still at its front. -/
def deque (w : World) (g : Rounds) (m : Manager) : List Entry := front w g m ++ w.store.entries m

/-- Who looks at an entry has the lock of its manager, and those that have left were delivered,
or are about to be. -/
structure Turning (w : World) (g : Rounds) : Prop where
  locked : ∀ t m e, g.hand t = .looking m e → w.sync.owner (.manager m) = some t
  left : ∀ m e, .turn m e true ∈ g.acts →
    w.Signalled e.request ∨ ∃ t, g.hand t = .owes e.request

variable {t u : Tid} {w w' : World} {g g' : Rounds} {m : Manager} {e : Entry}

theorem front_looking (h : Turning w g) (looks : g.hand t = .looking m e) :
    front w g m = [e] := by
  simp [front, h.locked t m e looks, looks]

theorem front_free (free : ∀ t e, g.hand t ≠ .looking m e) : front w g m = [] := by
  unfold front
  cases owner : w.sync.owner (.manager m) with
  | none => rfl
  | some t =>
    simp only [Option.map_some]
    cases hand : g.hand t with
    | free | owes p => rfl
    | looking m' e =>
      by_cases same : m' = m
      · exact absurd (same ▸ hand) (free t e)
      · simp [same]

/-- Only who looks at what matters to the fronts. -/
theorem front_congr (h : Turning w g) (h' : Turning w' g')
    (hand : ∀ t e, g'.hand t = .looking m e ↔ g.hand t = .looking m e) :
    front w' g' m = front w g m := by
  by_cases looks : ∃ t e, g.hand t = .looking m e
  · obtain ⟨t, e, looks⟩ := looks
    rw [front_looking h looks, front_looking h' ((hand t e).mpr looks)]
  · have free (t : Tid) (e : Entry) : g.hand t ≠ .looking m e := fun here => looks ⟨t, e, here⟩
    rw [front_free free, front_free fun t e here => free t e ((hand t e).mp here)]

theorem deque_congr (h : Turning w g) (h' : Turning w' g')
    (hand : ∀ t e, g'.hand t = .looking m e ↔ g.hand t = .looking m e)
    (entries : w'.store.entries m = w.store.entries m) : deque w' g' m = deque w g m := by
  rw [deque, deque, front_congr h h' hand, entries]

/-- Whoever holds the lock of a manager is the only one who can look at an entry of it. -/
theorem free_of_owner (h : Turning w g) (owner : w.sync.owner (.manager m) = some t)
    (mine : ∀ e, g.hand t ≠ .looking m e) (u : Tid) (e : Entry) : g.hand u ≠ .looking m e := by
  intro looks
  obtain rfl := Option.some.inj (owner.symm.trans (h.locked u m e looks))
  exact mine e looks

theorem Turning.env (h : Turning w g) (step : EnvStep cfg w w') : Turning w' g := by
  cases step <;> exact ⟨h.locked, h.left⟩

theorem deque_env (step : EnvStep cfg w w') : deque w' g = deque w g := by
  cases step <;> rfl

end Deques

section Steps

variable {t u : Tid} {w w' : World} {g : Rounds} {o : Op} {r : o.Ret}

/-- A lock stays with its owner until the owner gives it back. -/
theorem owner_kept {l : Lock} (pre : structurePre cfg .none t o (stance t w))
    (owner : w.sync.owner l = some u) (kept : u = t → o ≠ .unlock l)
    (hx : exec cfg t o w = some (r, w')) : w'.sync.owner l = some u := by
  have frame := exec_frame hx
  cases o with
  | lock k | tryLock k =>
    simp only [exec] at hx
    split at hx
    · rename_i free
      cases hx
      refine (Function.update_of_ne ?_ _ _).trans owner
      rintro rfl
      rw [free] at owner
      cases owner
    · cases hx
      try exact owner
  | unlock k =>
    cases hx
    refine (Function.update_of_ne ?_ _ _).trans owner
    rintro rfl
    have mine : w.sync.owner l = some t := pre.2.1
    exact kept (Option.some.inj (owner.symm.trans mine)) rfl
  | endCallback =>
    cases hx
    exact owner
  | _ => rw [frame.sync rfl]; exact owner

theorem signalled_mono (hx : exec cfg t o w = some (r, w')) {p : RequestPtr}
    (h : w.Signalled p) : w'.Signalled p := by
  obtain ⟨c, x, hc, own⟩ := h
  rcases exec_delivered hx with same | ⟨c', q, p', rfl, delivered⟩
  · exact ⟨c, x, by rw [same]; exact hc, own⟩
  · refine ⟨c, x, ?_, own⟩
    rw [delivered]
    by_cases same : c = c'
    · subst same
      rw [Function.update_self]
      exact List.mem_append_left _ hc
    · rwa [Function.update_of_ne same]

namespace Hand

variable {v : Hand} {m : Manager} {e : Entry} {p : RequestPtr}

theorem looking_of_next (h : v.next o r = .looking m e) : o = .popFront m ∨ v = .looking m e := by
  cases o with
  | popFront m' =>
    simp only [next] at h
    split at h <;> cases h
    exact .inl rfl
  | test x =>
    simp only [next] at h
    split at h
    · cases h
    · exact .inr h
  | pushBack m' e' | signal c q p' => cases h
  | _ => exact .inr h

theorem owes_next (pre : roundContract.pre o (.owes p)) :
    (Hand.owes p).next o r = .owes p ∨ ∃ c q, o = .signal c q p := by
  cases o with
  | popFront m => cases pre
  | test x => exact .inl rfl
  | pushBack m e => exact pre.elim (fun h => by cases h) fun h => by cases h
  | signal c q p' =>
    refine .inr ⟨c, q, ?_⟩
    rcases pre with h | h <;> cases h
    rfl
  | _ => exact .inl rfl

theorem owes_of_shows (h : v.shows o r = some (.turn m e true)) :
    v.next o r = .owes e.request := by
  cases o with
  | popFront m' =>
    simp only [shows] at h
    split at h
    · rename_i own
      cases h
      simp only [next, own]
    · cases h
  | test x =>
    simp only [shows] at h
    split at h
    · cases h
      rfl
    · cases h
  | pushBack m' e' =>
    simp only [shows] at h
    split at h <;> cases h
  | _ => cases h

end Hand

variable {m : Manager} {e : Entry}

theorem note_hand_self : (g.note t o r).hand t = (g.hand t).next o r := Function.update_self ..

theorem note_hand_of_ne (h : u ≠ t) : (g.note t o r).hand u = g.hand u :=
  Function.update_of_ne h ..

theorem Turning.exec (h : Turning w g) (locks : structurePre cfg .none t o (stance t w))
    (pre : roundContract.pre o (g.hand t)) (hx : exec cfg t o w = some (r, w')) :
    Turning w' (g.note t o r) where
  locked u m e looks := by
    by_cases same : u = t
    · subst same
      rw [note_hand_self] at looks
      rcases Hand.looking_of_next looks with rfl | before
      · exact owner_kept locks locks.2 (fun _ => by simp) hx
      · refine owner_kept locks (h.locked u m e before) (fun _ unlocks => ?_) hx
        subst unlocks
        exact pre m e before
    · rw [note_hand_of_ne same] at looks
      exact owner_kept locks (h.locked u m e looks) (fun own => absurd own same) hx
  left m e shown := by
    rcases List.mem_append.mp shown with old | new
    · rcases h.left m e old with told | ⟨u, owes⟩
      · exact .inl (signalled_mono hx told)
      · by_cases same : u = t
        · subst same
          rw [owes] at pre
          rcases Hand.owes_next (r := r) pre with still | ⟨c, q, rfl⟩
          · exact .inr ⟨u, by rw [note_hand_self, owes, still]⟩
          · cases hx
            refine .inl ⟨c, w.delivery q e.request, ?_, rfl⟩
            rw [World.signal_eq]
            simp
        · exact .inr ⟨u, (note_hand_of_ne same).trans owes⟩
    · exact .inr ⟨t, note_hand_self.trans (Hand.owes_of_shows (Option.mem_toList.mp new))⟩

/-- Nothing is seen of the deques where no entry moves and no look ends. -/
theorem unseen (h : Turning w g) (h' : Turning w' (g.note t o r))
    (shows : (g.hand t).shows o r = none)
    (next : ∀ m e, (g.hand t).next o r = .looking m e ↔ g.hand t = .looking m e)
    (entries : w'.store.entries = w.store.entries) :
    Answers deques.spec (deque w g) (deque w' (g.note t o r)) ((g.hand t).shows o r) := by
  rw [shows]
  refine .inl (funext fun m => (deque_congr h h' (fun u e => ?_) (by rw [entries])).symm)
  by_cases same : u = t
  · subst same
    rw [note_hand_self]
    exact next m e
  · rw [note_hand_of_ne same]

theorem update_of_deques {d d' : Manager → List Entry} {l : List Entry} (here : d' m = l)
    (others : ∀ m', m' ≠ m → d' m' = d m') : d' = update d m l := by
  funext m'
  by_cases same : m' = m
  · subst same
    rw [here, Function.update_self]
  · rw [others m' same, Function.update_of_ne same]

/-- A look ends: the entry is no longer before the others. -/
theorem deque_looked (h : Turning w g) (h' : Turning w' (g.note t o r))
    (looks : g.hand t = .looking m e)
    (ended : ∀ m e, (g.hand t).next o r ≠ .looking m e)
    (owner : w'.sync.owner (.manager m) = w.sync.owner (.manager m)) :
    deque w' (g.note t o r) m = w'.store.entries m := by
  have mine : w'.sync.owner (.manager m) = some t := owner.trans (h.locked t m e looks)
  have free := free_of_owner h' mine fun e here => ended m e (note_hand_self.symm.trans here)
  rw [deque, front_free free, List.nil_append]

/-- What the others look at stays before their deques. -/
theorem deque_other {m' : Manager} (h : Turning w g) (h' : Turning w' (g.note t o r))
    (mine : ∀ e, g.hand t ≠ .looking m' e) (next : ∀ e, (g.hand t).next o r ≠ .looking m' e)
    (entries : w'.store.entries m' = w.store.entries m') :
    deque w' (g.note t o r) m' = deque w g m' := by
  refine deque_congr h h' (fun u e => ?_) entries
  by_cases same : u = t
  · subst same
    rw [note_hand_self]
    exact iff_of_false (next e) (mine e)
  · rw [note_hand_of_ne same]

theorem popFront_turn {e : Entry} (h : Turning w g)
    (h' : Turning w' (g.note t (.popFront m) e))
    (owner : w.sync.owner (.manager m) = some t) (free : g.hand t = .free)
    (hx : Lcw.Mpi.exec cfg t (.popFront m) w = some (e, w')) :
    Answers deques.spec (deque w g) (deque w' (g.note t (.popFront m) e))
      ((g.hand t).shows (.popFront m) e) := by
  obtain ⟨rest, entries, rfl⟩ := exec_popFront hx
  have idle (m : Manager) (e : Entry) : g.hand t ≠ .looking m e := by simp [free]
  have before : deque w g m = e :: rest := by
    rw [deque, front_free (free_of_owner h owner (idle m)), entries, List.nil_append]
  have now : (w.popFront t m e rest).store.entries m = rest := Function.update_self ..
  have others (m' : Manager) (other : m' ≠ m) :
      deque (w.popFront t m e rest) (g.note t (.popFront m) e) m' = deque w g m' := by
    refine deque_other h h' (idle m') (fun e' here => ?_) (Function.update_of_ne other _ _)
    rcases Hand.looking_of_next here with same | old
    · exact other (Op.popFront.inj same).symm
    · exact idle m' e' old
  cases own : e.mpiReq with
  | none =>
    have shows : (g.hand t).shows (.popFront m) e = some (.turn m e true) := by
      simp only [Hand.shows, own]
    have next : (g.hand t).next (.popFront m) e = .owes e.request := by
      simp only [Hand.next, own]
    have after : deque (w.popFront t m e rest) (g.note t (.popFront m) e) m = rest := by
      have gone := free_of_owner h' owner fun e' here => by
        rw [note_hand_self, next] at here
        cases here
      rw [deque, front_free gone, now, List.nil_append]
    rw [shows, update_of_deques after others]
    exact RoundRobin.Visible.turn (M := deques) m e rest true before
  | some x =>
    have shows : (g.hand t).shows (.popFront m) e = none := by simp only [Hand.shows, own]
    have next : (g.hand t).next (.popFront m) e = .looking m e := by simp only [Hand.next, own]
    have after : deque (w.popFront t m e rest) (g.note t (.popFront m) e) m = e :: rest := by
      rw [deque, front_looking h' (note_hand_self.trans next), now]
      rfl
    rw [shows]
    refine .inl (funext fun m' => ?_)
    by_cases same : m' = m
    · rw [same, before, after]
    · exact (others m' same).symm

theorem test_turn {x : Option Handle} {st : Status} (h : Turning w g)
    (h' : Turning w' (g.note t (.test x) (.done st))) (looks : g.hand t = .looking m e)
    (hx : Lcw.Mpi.exec cfg t (.test x) w = some (.done st, w')) :
    Answers deques.spec (deque w g) (deque w' (g.note t (.test x) (.done st)))
      ((g.hand t).shows (.test x) (.done st)) := by
  have next : (g.hand t).next (.test x) (.done st) = .owes e.request := by
    rw [looks]
    rfl
  have shows : (g.hand t).shows (.test x) (.done st) = some (.turn m e true) := by
    rw [looks]
    rfl
  have entries : w'.store.entries = w.store.entries := (exec_same hx rfl).entries
  have before : deque w g m = e :: w.store.entries m := by
    rw [deque, front_looking h looks]
    rfl
  have after : deque w' (g.note t (.test x) (.done st)) m = w.store.entries m := by
    rw [deque_looked h h' looks (fun m e here => by rw [next] at here; cases here)
      (by rw [(exec_frame hx).sync rfl]), entries]
  have others (m' : Manager) (other : m' ≠ m) :
      deque w' (g.note t (.test x) (.done st)) m' = deque w g m' := by
    refine deque_other h h' (fun e' here => ?_) (fun e' here => ?_) (by rw [entries])
    · rw [looks] at here
      exact other (Hand.looking.inj here).1.symm
    · rw [next] at here
      cases here
  rw [shows, update_of_deques after others]
  exact RoundRobin.Visible.turn (M := deques) m e _ true before

theorem pushBack_turn (h : Turning w g) (h' : Turning w' (g.note t (.pushBack m e) ()))
    (pre : g.hand t = .free ∨ g.hand t = .looking m e)
    (hx : Lcw.Mpi.exec cfg t (.pushBack m e) w = some ((), w')) :
    Answers deques.spec (deque w g) (deque w' (g.note t (.pushBack m e) ()))
      ((g.hand t).shows (.pushBack m e) ()) := by
  cases hx
  have entries : (w.pushBack t m e).store.entries =
      update w.store.entries m (w.store.entries m ++ [e]) := by
    rw [World.pushBack_eq]
  have ended (m' : Manager) (e' : Entry) :
      (g.hand t).next (.pushBack m e) () ≠ .looking m' e' := by
    intro here
    cases here
  have others (m' : Manager) (other : m' ≠ m) :
      deque (w.pushBack t m e) (g.note t (.pushBack m e) ()) m' = deque w g m' := by
    refine deque_other h h' (fun e' here => ?_) (ended m') ?_
    · rcases pre with free | looks
      · rw [free] at here
        cases here
      · rw [looks] at here
        exact other (Hand.looking.inj here).1.symm
    · rw [entries, Function.update_of_ne other]
  rcases pre with free | looks
  · have shows : (g.hand t).shows (.pushBack m e) () = some (.add m e) := by
      rw [free]
      rfl
    have still : front (w.pushBack t m e) (g.note t (.pushBack m e) ()) m = front w g m := by
      refine front_congr h h' fun u e' => ?_
      by_cases same : u = t
      · subst same
        rw [note_hand_self]
        exact iff_of_false (ended m e') (by simp [free])
      · rw [note_hand_of_ne same]
    have after : deque (w.pushBack t m e) (g.note t (.pushBack m e) ()) m =
        deque w g m ++ [e] := by
      rw [deque, still, entries, Function.update_self, deque, List.append_assoc]
    rw [shows, update_of_deques after others]
    exact RoundRobin.Visible.add (M := deques) m e
  · have shows : (g.hand t).shows (.pushBack m e) () = some (.turn m e false) := by
      rw [looks]
      rfl
    have before : deque w g m = e :: w.store.entries m := by
      rw [deque, front_looking h looks]
      rfl
    have after : deque (w.pushBack t m e) (g.note t (.pushBack m e) ()) m =
        w.store.entries m ++ [e] := by
      rw [deque_looked h h' looks ended (by rw [World.pushBack_eq]), entries,
        Function.update_self]
    rw [shows, update_of_deques after others]
    exact RoundRobin.Visible.turn (M := deques) m e _ false before

/-- Each operation is one step of the deques, or is not seen. -/
theorem exec_turn (h : Turning w g) (h' : Turning w' (g.note t o r))
    (locks : structurePre cfg .none t o (stance t w)) (pre : roundContract.pre o (g.hand t))
    (hx : Lcw.Mpi.exec cfg t o w = some (r, w')) :
    Answers deques.spec (deque w g) (deque w' (g.note t o r)) ((g.hand t).shows o r) := by
  cases o with
  | popFront m => exact popFront_turn h h' locks.2 pre hx
  | pushBack m e => exact pushBack_turn h h' pre hx
  | test x =>
    have entries : w'.store.entries = w.store.entries := (exec_same hx rfl).entries
    cases hand : g.hand t with
    | free | owes p =>
      refine hand ▸ unseen h h' ?_ (fun m e => ?_) entries
      · rw [hand]
        rfl
      · rw [hand]
        rfl
    | looking m e =>
      cases r with
      | done st => exact hand ▸ test_turn h h' hand hx
      | notYet | failed =>
        refine hand ▸ unseen h h' ?_ (fun m e => ?_) entries
        · rw [hand]
          rfl
        · rw [hand]
          rfl
  | signal c q p =>
    refine unseen h h' rfl (fun m e => ?_) (exec_entries hx (by simp) (by simp))
    refine iff_of_false (fun here => by cases here) fun here => ?_
    rw [here] at pre
    rcases pre with free | owes
    · cases free
    · cases owes
  | _ => exact unseen h h' rfl (fun _ _ => Iff.rfl) (exec_entries hx (by simp) (by simp))

end Steps

section Runs

/-- The rules of the locks and the data hold. -/
def Structured (s : (rounded cfg).State) : Prop :=
  (structureDiscipline cfg .none).Holds ((roundKeeper cfg).bare s)

theorem Structured.pre {s : (rounded cfg).State} (h : Structured s) {t : Tid} {o : Op}
    {k : o.Ret → Code Unit} (next : s.prog t = .op o k) :
    structurePre cfg .none t o (stance t s.shared.1) := by
  have mine := h.2 t
  have prog : ((roundKeeper cfg).bare s).prog t = .op o k := next
  rw [prog] at mine
  exact mine.1

theorem structured_of_reach {s : (rounded cfg).State}
    (h : Reach (fun _ _ => True) (roundStart cfg) s) : Structured s := by
  have bare : Reach (fun _ _ => True) ((roundKeeper cfg).bare (roundStart cfg))
      ((roundKeeper cfg).bare s) := System.Observer.reach_bare h
  replace bare : Reach (fun _ _ => True) (start cfg) ((roundKeeper cfg).bare s) := bare
  exact (structureDiscipline cfg .none).reach structure_start
    (bare.mono fun s e _ => regular_none s e)

theorem structured_run {s : (rounded cfg).State}
    (h : Reach (fun _ _ => True) (roundStart cfg) s) :
    Reach (fun s _ => Structured s) (roundStart cfg) s :=
  (h.strengthen fun _ reached => structured_of_reach reached).mono fun _ _ ok => ok.2

/-- Each thread keeps to the turns, whatever the others do at the same time. -/
def rounding (request : cfg.compType = .request) :
    Discipline (rounded cfg) fun s _ => Structured s where
  View := Hand
  view t x := x.2.hand t
  inv x := Turning x.1 x.2
  contract _ := roundContract
  exec s t o k r x h hok hs pre hx := by
    obtain ⟨step, record⟩ := System.Observer.exec_some hx
    rw [record]
    exact ⟨h.exec (hok.pre hs) pre step, note_hand_self, fun u hu => note_hand_of_ne hu⟩
  intr s t o k i p x h hok hs pre hx := by
    obtain ⟨step, record⟩ := System.Observer.intr_some hx
    rw [record]
    cases i with
    | call c =>
      obtain ⟨rfl, -, rfl, after⟩ := intr_call step
      have free : s.shared.2.hand t = .free := pre
      refine ⟨after ▸ ⟨h.locked, h.left⟩, ?_, fun _ _ => rfl⟩
      show roundContract.wp (apiCall cfg c) (fun _ v => v = s.shared.2.hand t) (s.shared.2.hand t)
      rw [free]
      exact atRest_apiCall request c
    | continuation m j =>
      obtain ⟨-, cont, -⟩ := intr_continuation step
      rw [request] at cont
      cases cont
  env s e x h hok hx := by
    obtain ⟨step, record⟩ := System.Observer.env_some hx
    rw [record]
    exact ⟨h.env (env_cases step), fun _ => rfl⟩

/-- From a state to a later one each deque was swept, and who has left it so far is delivered or
about to be. -/
structure SweptBetween (s s' : (rounded cfg).State) : Prop where
  swept : ∃ as : List deques.Act, s'.shared.2.acts = s.shared.2.acts ++ as ∧
    ∀ m, RoundRobin.Swept (M := deques) (deque s.shared.1 s.shared.2 m)
      (RoundRobin.turns m as) (RoundRobin.adds m as) (deque s'.shared.1 s'.shared.2 m)
  left : ∀ m e, .turn m e true ∈ s'.shared.2.acts → s'.shared.1.Signalled e.request ∨
    ∃ t o, s'.shared.2.hand t = .owes e.request ∧
      nextOp ((roundKeeper cfg).bare s') t = some o ∧ o ≠ .userCode ∧ ∀ r, o ≠ .endCall r

variable (request : cfg.compType = .request)

include request

theorem rounding_start : (rounding request).Holds (roundStart cfg) := by
  refine ⟨⟨fun t m e looks => ?_, fun m e shown => ?_⟩, fun t => ?_⟩
  · cases looks
  · cases shown
  · simp only [roundStart, System.Observer.beside, start]
    split
    · exact ⟨rfl, fun _ _ _ => trivial⟩
    · trivial

variable {s s' : (rounded cfg).State}

theorem turning_of_reach (h : Reach (fun _ _ => True) (roundStart cfg) s) :
    (rounding request).Holds s :=
  (rounding request).reach (rounding_start request) (structured_run h)

/-- A step of the job is a step of the deques, or is not seen. -/
theorem step_turn (h : Reach (fun _ _ => True) (roundStart cfg) s) {e : (rounded cfg).Event}
    (step : System.step s e = some s') : ∃ a : Option deques.Act,
      s'.shared.2.acts = s.shared.2.acts ++ a.toList ∧
        Answers deques.spec (deque s.shared.1 s.shared.2) (deque s'.shared.1 s'.shared.2) a := by
  have before := turning_of_reach request h
  have after := (turning_of_reach request (.step e h trivial step)).1
  have structured := structured_of_reach h
  cases e with
  | exec t =>
    obtain ⟨o, k, r, x, hp, hx, rfl⟩ := System.step_exec step
    have mine := before.2 t
    rw [hp, Contract.wp_op] at mine
    obtain ⟨hx, record⟩ := System.Observer.exec_some hx
    refine ⟨(s.shared.2.hand t).shows o r, ?_, ?_⟩
    · show x.2.acts = _
      rw [record]
      rfl
    · have after : Turning x.1 x.2 := after
      show Answers deques.spec _ (deque x.1 x.2) _
      rw [record] at after ⊢
      exact exec_turn before.1 after (structured.pre hp) mine.1 hx
  | intr t i =>
    obtain ⟨o, k, p, x, hp, hi, rfl⟩ := System.step_intr step
    obtain ⟨hi, record⟩ := System.Observer.intr_some hi
    cases i with
    | call c =>
      obtain ⟨-, -, -, called⟩ := intr_call hi
      refine ⟨none, ?_, .inl ?_⟩
      · show x.2.acts = _
        rw [record]
        exact (List.append_nil _).symm
      · show _ = deque x.1 x.2
        rw [record, called]
        rfl
    | continuation m j =>
      obtain ⟨-, cont, -⟩ := intr_continuation hi
      rw [request] at cont
      cases cont
  | env e =>
    obtain ⟨x, he, rfl⟩ := System.step_env step
    obtain ⟨he, record⟩ := System.Observer.env_some he
    refine ⟨none, ?_, .inl ?_⟩
    · show x.2.acts = _
      rw [record]
      exact (List.append_nil _).symm
    · show _ = deque x.1 x.2
      rw [record]
      exact (deque_env (env_cases he)).symm

/-- What happens between two states of a run is a run of the deques. -/
theorem runs_between (h : Reach (fun _ _ => True) (roundStart cfg) s)
    (later : Reach (fun _ _ => True) s s') : ∃ as : List deques.Act,
      s'.shared.2.acts = s.shared.2.acts ++ as ∧
        deques.spec.Runs (deque s.shared.1 s.shared.2) as (deque s'.shared.1 s'.shared.2) := by
  induction later with
  | init => exact ⟨[], (List.append_nil _).symm, .init⟩
  | step e prior _ step ih =>
    obtain ⟨as, acts, runs⟩ := ih
    obtain ⟨a, one, answer⟩ := step_turn request (h.trans prior) step
    refine ⟨as ++ a.toList, by rw [one, acts, List.append_assoc], ?_⟩
    exact System.Simulation.runs_answer runs answer

/-- Who owes a completion is still in the call that took the entry. -/
theorem busy_of_owes (h : Reach (fun _ _ => True) (roundStart cfg) s) {t : Tid} {p : RequestPtr}
    (owes : s.shared.2.hand t = .owes p) : ∃ o, nextOp ((roundKeeper cfg).bare s) t = some o ∧
      o ≠ .userCode ∧ ∀ r, o ≠ .endCall r := by
  cases prog : s.prog t with
  | ret a =>
    have free : s.shared.2.hand t = .free := by
      refine (rounding request).finished (I := fun o => o = Op.userCode)
        (Q := fun _ v => v = Hand.free) (rounding_start request) (structured_run h)
        (fun u o v r v' last pre post => ?_) (fun u => ?_) prog
      · subst last
        exact Eq.trans post pre
      · by_cases job : u.rank < cfg.nranks ∧ u.index < cfg.nthreads
        · refine .inr ?_
          simp only [roundStart, System.Observer.beside, start, if_pos job]
          exact fun _ => .inl ⟨rfl, _, rfl⟩
        · exact .inl ⟨if_neg job, rfl⟩
    rw [owes] at free
    cases free
  | op o k =>
    refine ⟨o, nextOp_eq_some.mpr ⟨k, prog⟩, ?_⟩
    have pre : roundContract.pre o (s.shared.2.hand t) :=
      (rounding request).pre_of_reach (rounding_start request) (structured_run h) prog
    rw [owes] at pre
    constructor
    · rintro rfl
      cases pre
    · rintro r rfl
      cases pre

/-- In every run under the REQUEST manager, whatever threads post and make progress, the entries
of a deque take their turns in the order they are in, before those that come meanwhile; who is
incomplete goes to the back in the same order; and who leaves is delivered by the call it left in,
before the call returns or runs code of the client. -/
theorem entries_swept (h : Reach (fun _ _ => True) (roundStart cfg) s)
    (later : Reach (fun _ _ => True) s s') : SweptBetween s s' where
  swept := by
    obtain ⟨as, acts, runs⟩ := runs_between request h later
    exact ⟨as, acts, fun m => RoundRobin.swept runs m⟩
  left m e gone := by
    rcases (turning_of_reach request (h.trans later)).1.left m e gone with told | ⟨t, owes⟩
    · exact .inl told
    · obtain ⟨o, busy⟩ := busy_of_owes request (h.trans later) owes
      exact .inr ⟨t, o, owes, busy⟩

end Runs

/-- Two sends take turns: the first is not complete and goes behind the second, which is. -/
theorem entries_swept_sends : ∃ s s' : (rounded (smallJob .request false 0)).State,
    (deque s.shared.1 s.shared.2 (.priv ⟨0, 0⟩)).map (fun e => e.request.posted.tag) = [3, 4] ∧
      (deque s'.shared.1 s'.shared.2 (.priv ⟨0, 0⟩)).map (fun e => e.request.posted.tag) = [3] ∧
        SweptBetween s s' := by
  let J := smallJob .request false 0
  let t : Tid := ⟨0, 0⟩
  let send (tag : Int) : List (machine J).Event :=
    .intr t (.call (.send ⟨0, 0⟩ 0 tag (.user 0) 1 (some 5) 0)) :: steps J t 8
  let progress (n : Nat) : List (machine J).Event :=
    .intr t (.call (.doProgress ⟨0, 0⟩)) :: steps J t n
  let done : (machine J).Event :=
    .env (.sendDone ⟨2, ⟨⟨0, 0⟩, 0⟩, ⟨2, ⟨.send, ⟨0, 0⟩, 0, 4, .user 0, 1, 0⟩, some 5⟩⟩)
  let posted := (.intr t (.call (.allocDevice 4 (some 7))) :: steps J t 10 ++ send 3 ++ send 4).map
    (roundKeeper J).seen
  let swept := (progress 16 ++ done :: progress 13).map (roundKeeper J).seen
  let tags (s : (rounded J).State) : List Int :=
    (deque s.shared.1 s.shared.2 (.priv ⟨0, 0⟩)).map fun e => e.request.posted.tag
  have played : ((System.run (roundStart J) posted).bind fun s =>
      (System.run s swept).map fun s' => (tags s, tags s')) = some ([3, 4], [3]) := by
    decide +kernel
  obtain ⟨s, before, played⟩ := Option.bind_eq_some_iff.mp played
  obtain ⟨s', after, shown⟩ := Option.map_eq_some_iff.mp played
  obtain ⟨both, one⟩ := Prod.mk.inj shown
  have reached : Reach (fun _ _ => True) (roundStart J) s :=
    reach_run before (admitted_of_forall (fun _ _ => trivial) _ _)
  have later : Reach (fun _ _ => True) s s' :=
    reach_run after (admitted_of_forall (fun _ _ => trivial) _ _)
  exact ⟨s, s', both, one, entries_swept rfl reached later⟩

end Lcw.Mpi
