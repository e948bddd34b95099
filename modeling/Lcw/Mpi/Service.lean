/- digest: The MPI backend, under either completion manager, is a completion service. -/

import Lcw.Interleave.Service
import Lcw.Mpi.LedgerApi

set_option autoImplicit false
set_option relaxedAutoImplicit false

namespace Lcw.Mpi

open Interleave
open Function (update)

variable {cfg : Config} {t : Tid} {w w' : World} {p : RequestPtr}

variable (cfg) in
/-- The operations of the job, the put receives of its devices among them, each of which ends in
one `request_t`. -/
abbrev completions : Service where
  Job := RequestPtr
  Comp := Comp
  Status := Status
  Notice := Request
  names := RequestPtr.completion
  reports p st q := (p.posted.op ≠ .putSignal → q = finalRequest cfg p st) ∧
    (p.posted.op = .putSignal → ∃ k,
      q = { received cfg p.posted st with buffer := .heap k })
  keeps c := !cfg.isHandler c

section Abstraction

variable (cfg) in
/-- The phase of an operation at this stage that MPI has reported, or has not. -/
def Stage.phase : Stage → Option Status → (completions cfg).Phase
  | .unborn, _ => .unposted
  | .owned _ .spent, _ | .gone, _ => .told
  | _, some st => .finished st
  | _, none => .pending

variable (cfg) in
/-- The service as the state of the job shows it. -/
def World.desk (w : World) : (completions cfg).Desk where
  phase p := (w.store.stage p).phase cfg (w.net.result p)
  waiting c := (w.store.cq c).map Delivery.request

variable (cfg) in
/-- What a client sees of an operation. -/
def Op.shows : (o : Op) → o.Ret → Option (completions cfg).Act
  | .newRequest .., p => some (.post p)
  | .signal c q p, _ => some (.tell p c q)
  | .cqPop c, r => match (r : Option Request) with
    | some q => some (.take c q)
    | none => some (.nothing c)
  | _, _ => none

/-- An operation that was posted and not told. -/
structure Stage.Open (s : Stage) : Prop where
  born : s ≠ .unborn
  untold : s.told = false

theorem Stage.Open.phase {s : Stage} (h : s.Open) (st : Option Status) :
    s.phase cfg st = match st with
      | some st => .finished st
      | none => .pending := by
  obtain ⟨born, untold⟩ := h
  cases s with
  | unborn => exact absurd rfl born
  | gone => cases untold
  | owned u k => cases k <;> cases st <;> first | rfl | cases untold
  | _ => cases st <;> rfl

theorem Stage.isTold_phase {s : Stage} {st : Option Status} :
    (s.phase cfg st).isTold = s.told := by
  cases s with
  | owned u k => cases k <;> cases st <;> rfl
  | _ => cases st <;> rfl

theorem open_owned {k : Owning} (h : k ≠ .spent) : (Stage.owned t k).Open :=
  ⟨by simp, by cases k <;> first | rfl | exact absurd rfl h⟩

theorem desk_congr (stage : w'.store.stage = w.store.stage)
    (result : w'.net.result = w.net.result) (cq : w'.store.cq = w.store.cq) :
    w'.desk cfg = w.desk cfg := by
  unfold World.desk
  rw [stage, result, cq]

/-- An operation goes on without having been told, and MPI has reported nothing. -/
theorem desk_move {s : Stage} (before : (w.store.stage p).Open) (after : s.Open)
    (stage : w'.store.stage = update w.store.stage p s)
    (result : w'.net.result = w.net.result) (cq : w'.store.cq = w.store.cq) :
    w'.desk cfg = w.desk cfg := by
  unfold World.desk
  rw [stage, result, cq]
  congr 1
  refine funext fun (q : RequestPtr) => ?_
  by_cases e : q = p
  · subst e
    rw [Function.update_self, before.phase, after.phase]
  · rw [Function.update_of_ne e]

/-- MPI reports an operation that goes on. -/
theorem desk_finish {s : Stage} {st : Status} (before : (w.store.stage p).Open) (after : s.Open)
    (unreported : w.net.result p = none) (stage : w'.store.stage = update w.store.stage p s)
    (result : w'.net.result = update w.net.result p (some st))
    (cq : w'.store.cq = w.store.cq) :
    Service.Silent (w.desk cfg) (w'.desk cfg) := by
  have pending : (w.desk cfg).phase p = .pending := by
    show (w.store.stage p).phase cfg (w.net.result p) = _
    rw [unreported, before.phase]
  have step := Service.Silent.finish (d := w.desk cfg) p st pending
  have same : w'.desk cfg = (w.desk cfg).setPhase p (.finished st) := by
    unfold World.desk Service.Desk.setPhase
    rw [stage, result, cq]
    congr 1
    refine funext fun (q : RequestPtr) => ?_
    by_cases e : q = p
    · subst e
      simp only [Function.update_self]
      exact after.phase _
    · simp only [Function.update_of_ne e]
  rw [same]
  exact step

/-- A completion object that is told keeps the request if it is a queue. -/
theorem waiting_signal (cq : Comp → List Delivery) (c : Comp) (x : Delivery) :
    (fun c' => ((if cfg.isHandler c then cq else update cq c (cq c ++ [x])) c').map
      Delivery.request) = if (!cfg.isHandler c) = true then
        update (fun c => (cq c).map Delivery.request) c
          ((cq c).map Delivery.request ++ [x.request])
      else fun c => (cq c).map Delivery.request := by
  cases cfg.isHandler c with
  | true => rfl
  | false =>
    refine funext fun c' => ?_
    by_cases e : c' = c
    · subst e
      simp
    · simp [Function.update_of_ne e]

theorem waiting_update (cq : Comp → List Delivery) (c : Comp) (xs : List Delivery) :
    (fun c' => (update cq c xs c').map Delivery.request) =
      update (fun c => (cq c).map Delivery.request) c (xs.map Delivery.request) := by
  refine funext fun c' => ?_
  by_cases e : c' = c
  · subst e
    simp
  · simp [Function.update_of_ne e]

end Abstraction

section Steps

variable {P : PutRules cfg}

/-- Starting an operation shows nothing. -/
theorem answers_start {null : Bool} {comm : Comm} {q : MpiRequest}
    (posting : w.store.stage p = .owned t .posting) (unreported : w.net.result p = none) :
    System.Answers (completions cfg).spec (w.desk cfg) ((w.start cfg t null comm p q).2.desk cfg)
      none := by
  have before : (w.store.stage p).Open := by
    rw [posting]
    exact open_owned (by simp)
  have after : (Stage.owned t .started).Open := open_owned (by simp)
  cases null with
  | true => exact .inr (desk_finish before after unreported rfl rfl rfl)
  | false => refine .inl (desk_move before after ?_ ?_ ?_).symm <;> rfl

/-- An empty answer comes from an empty queue. -/
theorem exec_cqPop_none {c : Comp} (hx : exec cfg t (.cqPop c) w = some (none, w')) :
    w.store.cq c = [] := by
  replace hx := Option.some.inj hx
  unfold World.cqPop at hx
  cases hc : w.store.cq c with
  | nil => rfl
  | cons x rest =>
    simp only [hc] at hx
    cases hx

theorem exec_answers (h : Books P w) {o : Op} {r : o.Ret} (pre : ledgerPre P t o (account t w))
    (hx : exec cfg t o w = some (r, w')) :
    System.Answers (completions cfg).spec (w.desk cfg) (w'.desk cfg) (o.shows cfg r) := by
  have pre := pre.2
  have held : (Stage.owned t .held).Open := open_owned (by simp)
  cases o with
  | newRequest q c =>
    cases hx
    have unborn := h.filed.fresh q c
    have fresh : (w.desk cfg).phase (w.freshPtr q c) = .unposted := by
      show (w.store.stage _).phase cfg _ = _
      rw [unborn]
      rfl
    have unreported : w.net.result (w.freshPtr q c) = none := by
      by_contra reported
      have begun := h.matching.resultBegun _ reported
      rw [unborn] at begun
      cases begun
    have same : (w.newRequest t q c).desk cfg =
        (w.desk cfg).setPhase (w.freshPtr q c) .pending := by
      unfold World.desk Service.Desk.setPhase
      rw [World.newRequest_eq]
      congr 1
      refine funext fun (r : RequestPtr) => ?_
      by_cases e : r = w.freshPtr q c
      · subst e
        simp only [Function.update_self, unreported]
        rfl
      · simp only [Function.update_of_ne e]
    show Service.Visible _ _ _
    rw [same]
    exact .post _ fresh
  | signal c q p =>
    obtain ⟨st, token, user, put⟩ := pre.token
    obtain ⟨stage, -, result, -⟩ := tokenOf_eq_some.mp token
    cases hx
    have done : (w.desk cfg).phase p = .finished st := by
      show (w.store.stage p).phase cfg (w.net.result p) = _
      rw [stage, result]
      rfl
    have fits : (completions cfg).reports p st q := by
      refine ⟨user, fun op => ?_⟩
      obtain ⟨k, b, eq, -⟩ := put op
      exact ⟨k, eq⟩
    have same : (w.signal cfg t c q p).desk cfg = (w.desk cfg).tell p c q := by
      unfold World.desk Service.Desk.tell
      rw [World.signal_eq]
      congr 1
      · refine funext fun (r : RequestPtr) => ?_
        by_cases e : r = p
        · subst e
          simp only [Function.update_self]
          rfl
        · simp only [Function.update_of_ne e]
      · exact waiting_signal w.store.cq c (w.delivery q p)
    show Service.Visible _ _ _
    rw [same]
    exact Service.Visible.tell (M := completions cfg) (d := w.desk cfg) p c q st done
      pre.completion fits
  | cqPop c =>
    rcases exec_cqPop hx with ⟨rfl, same⟩ | ⟨x, rest, front, rfl, same⟩
    · have empty : (w.desk cfg).waiting c = [] := by
        show (w.store.cq c).map Delivery.request = []
        rw [exec_cqPop_none hx]
        rfl
      rw [same]
      exact Service.Visible.nothing (M := completions cfg) (d := w.desk cfg) c empty
    · have first : (w.desk cfg).waiting c = x.request :: rest.map Delivery.request := by
        show (w.store.cq c).map Delivery.request = _
        rw [front]
        rfl
      have taken : w'.desk cfg = (w.desk cfg).take c (rest.map Delivery.request) := by
        rw [same]
        exact congrArg (Service.Desk.mk (M := completions cfg) _) (waiting_update _ c rest)
      rw [taken]
      exact Service.Visible.take (M := completions cfg) (d := w.desk cfg) c x.request _ first
  | isend a n ty dest tag comm p =>
    obtain ⟨x, hx', kind, unreported⟩ := pre.token
    obtain ⟨stage, -, result, -⟩ := tokenOf_eq_some.mp hx'
    rw [kind] at stage
    rcases exec_isend hx with ⟨-, rfl⟩ | ⟨-, -, rfl⟩
    · exact .inl rfl
    · exact answers_start (w := w.enqueue _) stage (result.trans unreported)
  | irecv a n ty source tag comm p =>
    have token : ∃ x, (account t w).token p = some x ∧ x.kind = .posting ∧ x.result = none := by
      rcases pre with pre | pre
      · exact pre.token
      · exact pre.token
    obtain ⟨x, hx', kind, unreported⟩ := token
    obtain ⟨stage, -, result, -⟩ := tokenOf_eq_some.mp hx'
    rw [kind] at stage
    rcases exec_irecv hx with ⟨-, rfl, -⟩ | ⟨-, rfl⟩
    · exact .inl rfl
    · have same : (w.expect comm p).desk cfg = w.desk cfg := by
        unfold World.expect
        split <;> rfl
      rw [← same]
      refine answers_start ?_ ?_
      all_goals unfold World.expect
      · split <;> exact stage
      · split <;> exact result.trans unreported
  | test x =>
    cases x with
    | none =>
      cases hx
      exact .inl rfl
    | some x =>
      cases exec_test hx with
      | notYet => exact .inl rfl
      | failed dead => exact .inl rfl
      | taken q st hq done ok op =>
        obtain ⟨-, -, -, stage, -, unreported, -⟩ := h.slots.receive pre op
        have before : (w.store.stage x.request).Open := by
          rw [stage]
          exact ⟨by simp, rfl⟩
        exact .inr (desk_finish before held unreported rfl rfl rfl)
      | done q st hq done ok op =>
        obtain ⟨y, hy, kind, unreported⟩ := pre.held op
        obtain ⟨stage, -, result, -⟩ := tokenOf_eq_some.mp hy
        rw [kind] at stage
        have before : (w.store.stage x.request).Open := by
          rw [stage]
          exact held
        exact .inr (desk_finish before before (result.trans unreported)
          (Function.update_eq_self _ _).symm rfl rfl)
  | deleteRequest p =>
    obtain ⟨x, hx', kind, -⟩ := pre
    have stage := (tokenOf_eq_some.mp hx').1
    rw [kind] at stage
    obtain ⟨_, -, e⟩ := Option.map_eq_some_iff.mp hx
    cases e
    refine .inl ?_
    unfold World.desk
    congr 1
    refine funext fun (r : RequestPtr) => ?_
    by_cases e : r = p
    · subst e
      rw [stage]
      simp only [World.setStage, Function.update_self]
      rfl
    · simp only [World.setStage, Function.update_of_ne e]
      rfl
  | pushBack m e =>
    obtain ⟨x, hx', -, -, -, kind⟩ := pre.token
    have stage := (tokenOf_eq_some.mp hx').1
    cases hx
    have before : (w.store.stage e.request).Open := by
      rw [stage]
      exact open_owned (by rcases kind with k | ⟨k, -⟩ <;> simp [k])
    refine .inl (desk_move before (s := .queued m) ⟨by simp, rfl⟩ ?_ ?_ ?_).symm
    all_goals rw [World.pushBack_eq]
  | «continue» m e f =>
    obtain ⟨x, hx', -, -, -, kind⟩ := pre.2.token
    have stage := (tokenOf_eq_some.mp hx').1
    cases hx
    have before : (w.store.stage e.request).Open := by
      rw [stage]
      exact open_owned (by rcases kind with k | ⟨k, -⟩ <;> simp [k])
    refine .inl (desk_move before (s := .attached m) ⟨by simp, rfl⟩ ?_ ?_ ?_).symm
    all_goals rw [World.attach_eq]
  | popFront m =>
    obtain ⟨rest, front, rfl⟩ := exec_popFront hx
    have queued := h.filed.queued_of_mem (front ▸ List.mem_cons_self)
    have before : (w.store.stage (Entry.request r)).Open := by
      rw [queued]
      exact ⟨by simp, rfl⟩
    refine .inl (desk_move before held ?_ ?_ ?_).symm <;> rfl
  | writeSlot d e =>
    obtain ⟨s, x, -, -, -, token⟩ := pre
    have stage : w.store.stage e.request = .owned t .started := (tokenOf_eq_some.mp token).1
    cases hx
    have before : (w.store.stage e.request).Open := by
      rw [stage]
      exact open_owned (by simp)
    refine .inl (desk_move before (s := .armed d) ⟨by simp, rfl⟩ ?_ ?_ ?_).symm <;> rfl
  | writeRequest p q | clearSlot d =>
    obtain ⟨_, -, e⟩ := Option.map_eq_some_iff.mp hx
    cases e
    exact .inl rfl
  | memcpy dst src n =>
    cases hx
    refine .inl (desk_congr ?_ ?_ ?_).symm
    all_goals
      unfold World.memcpy
      split <;> rfl
  | commCreate d | commFree comm =>
    cases hx
    exact .inl rfl
  | _ =>
    have frame := exec_frame hx
    have store := frame.store rfl
    have net := frame.net rfl
    exact .inl (desk_congr (by rw [store]) (by rw [net]) (by rw [store])).symm

theorem continuation_answers (h : Books P w) {o : Op} {m : Manager} {i : Nat} {e : Entry}
    {st : Status} (found : (w.store.attached m)[i]? = some e) (outcome : w.outcome cfg e = some st) :
    System.Answers (completions cfg).spec (w.desk cfg)
      ((w.takeContinuation t o m i e st).desk cfg) none := by
  have here := List.mem_of_getElem? found
  have attached := h.filed.attached_of_mem here
  have waiting := (h.contents.attached m e here).result
  have before : (w.store.stage e.request).Open := by
    rw [attached]
    exact ⟨by simp, rfl⟩
  have after : (Stage.owned t .held).Open := open_owned (by simp)
  have result : (w.takeContinuation t o m i e st).net.result =
      (w.consume e.request st e.mpiReq).net.result := by
    rw [World.takeContinuation_eq]
  cases handle : e.mpiReq with
  | none =>
    rw [handle] at result
    refine .inl (desk_move before after ?_ result ?_).symm
    all_goals rw [World.takeContinuation_eq]
  | some x =>
    rw [handle] at result waiting
    have reported : (w.consume e.request st (some x)).net.result =
        update w.net.result e.request (some st) := by
      unfold World.outcome at outcome
      cases hq : w.net.reqs x with
      | none => simp [handle, hq] at outcome
      | some q =>
        simp only [World.consume, hq]
        rfl
    refine .inr (desk_finish before after waiting ?_ (result.trans reported) ?_)
    all_goals rw [World.takeContinuation_eq]

theorem env_answers (step : EnvStep cfg w w') :
    System.Answers (completions cfg).spec (w.desk cfg) (w'.desk cfg) none := by
  cases step <;> exact .inl rfl

end Steps

variable (cfg) in
/-- Each step of the job is a step of the service, or is not seen. -/
def simulation : System.Simulation (machine cfg) Ledgered (completions cfg).spec where
  shows _ := Op.shows cfg
  abs := World.desk cfg
  exec s t o k r w known hp hx :=
    exec_answers known.books (known.pre t o (nextOp_eq_some.mpr ⟨k, hp⟩)) hx
  intr s t o k i p w known hp hi := by
    cases i with
    | call c =>
      obtain ⟨-, -, -, rfl⟩ := intr_call hi
      exact .inl rfl
    | continuation m i =>
      obtain ⟨-, -, -, e, st, found, outcome, -, rfl⟩ := intr_continuation hi
      exact continuation_answers known.books found outcome
  env s e w known he := env_answers (env_cases he)

section Runs

variable (cfg) in
/-- The job, with an onlooker that writes down posts, notices, and answers of `poll_cq`. -/
abbrev watched : System := (simulation cfg).onlooker.observed

variable (cfg) in
def watchedStart : (watched cfg).State :=
  (simulation cfg).onlooker.beside (start cfg) ([] : List (completions cfg).Act)

variable {s : (watched cfg).State}

/-- Whatever is seen of a run of the job may be seen of the service. -/
theorem refines_service (h : System.Reach (fun _ _ => True) (watchedStart cfg) s) :
    (completions cfg).spec.Runs (completions cfg).idle ((simulation cfg).seen s)
      (s.shared.1.desk cfg) :=
  (simulation cfg).runs (fun _ _ => True) (fun _ reached => ledgered_of_reach reached) h

/-- What was seen accounts for the phase of every operation. -/
theorem kept_of_reach (h : System.Reach (fun _ _ => True) (watchedStart cfg) s) :
    Service.Kept ((simulation cfg).seen s) (s.shared.1.desk cfg) :=
  Service.Kept.of_runs
    ((simulation cfg).runs (fun _ _ => True) (fun _ reached => ledgered_of_reach reached) h)

/-- In every run each operation is told at most once, after its post, to the completion object it
names; `poll_cq` hands out what it was told in order, and finds a queue empty only when it is. -/
theorem completions_served (h : System.Reach (fun _ _ => True) (watchedStart cfg) s) :
    (completions cfg).Served ((simulation cfg).seen s) ∧
      ∀ p, Service.mentions p ((simulation cfg).seen s) =
        if (s.shared.1.store.stage p).told then 1 else 0 := by
  have runs : (completions cfg).spec.Runs _ _ (s.shared.1.desk cfg) :=
    (simulation cfg).runs (fun _ _ => True) (fun _ reached => ledgered_of_reach reached) h
  refine ⟨Service.served runs, fun p => ?_⟩
  rw [(kept_of_reach h).mentions p]
  have phase : ((s.shared.1.desk cfg).phase p).isTold = (s.shared.1.store.stage p).told :=
    Stage.isTold_phase
  rw [phase]

section Loopback

/-- The operations whose completions a client has taken from a queue. -/
def takenFrom (c : Comp) (s : (watched cfg).State) : List OpCode :=
  (Service.takes (M := completions cfg) c ((simulation cfg).seen s)).map Request.op

/-- A process sends two bytes to itself, makes progress, and polls. -/
def sendAndPoll : List (machine (smallJob .request false 0)).Event :=
  let J := smallJob .request false 0
  let t : Tid := ⟨0, 0⟩
  let p : RequestPtr := ⟨1, ⟨.send, ⟨0, 0⟩, 0, 3, .user 0, 2, 0⟩, some 5⟩
  .intr t (.call (.allocDevice 4 (some 7))) :: steps J t 10 ++
    .intr t (.call (.send ⟨0, 0⟩ 0 3 (.user 0) 2 (some 5) 0)) :: steps J t 8 ++
    .env (.sendDone ⟨1, ⟨⟨0, 0⟩, 0⟩, p⟩) ::
    .intr t (.call (.doProgress ⟨0, 0⟩)) :: steps J t 21 ++
    .intr t (.call (.pollCq 5)) :: steps J t 4

private theorem sendAndPoll_watched : ∃ s,
    System.Reach (fun _ _ => True) (watchedStart (smallJob .request false 0)) s ∧
      takenFrom 5 s = [.send] := by
  have played : (System.run (watchedStart (smallJob .request false 0))
      (sendAndPoll.map (simulation _).onlooker.seen)).map (takenFrom 5) = some [.send] := by
    decide +kernel
  exact System.reach_probe_any played

/-- Such a run is one of the service. -/
theorem refines_service_send : ∃ s : (watched (smallJob .request false 0)).State,
    takenFrom 5 s = [.send] ∧
      (completions (smallJob .request false 0)).spec.Runs
        (completions (smallJob .request false 0)).idle ((simulation _).seen s)
        (s.shared.1.desk (smallJob .request false 0)) := by
  obtain ⟨s, reached, taken⟩ := sendAndPoll_watched
  exact ⟨s, taken, refines_service reached⟩

/-- The completion of a send has been taken from its queue. -/
theorem completions_served_send : ∃ s : (watched (smallJob .request false 0)).State,
    takenFrom 5 s = [.send] ∧
      (completions (smallJob .request false 0)).Served ((simulation _).seen s) := by
  obtain ⟨s, reached, taken⟩ := sendAndPoll_watched
  exact ⟨s, taken, (completions_served reached).1⟩

end Loopback

end Runs

end Lcw.Mpi
