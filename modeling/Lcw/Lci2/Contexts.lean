/- digest: Each context is deleted once, and each accepted post completes once, as posted. -/

import Lcw.Lci2.Custody

set_option autoImplicit false
set_option relaxedAutoImplicit false

namespace Lcw.Lci2

open Interleave
open Function (update)

section Programs

variable {v v' : View} {α : Type} {Q : α → View → Prop}

/-- The thread received the status on top of what it held in `v`. -/
def Received (st : Status) (v v' : View) : Prop :=
  match st.userContext with
  | none => v' = v
  | some p => p.posted.op ≠ .putSignal ∧ v.held p = none ∧
      v' = { v with held := update v.held p (some (.taken st.size)) }

theorem reported_eq {q : Request} (op : q.op ≠ .putSignal) (n : Nat) :
    (if q.op = .recv ∨ q.op = .putSignal then
      (pure { q with length := Mpi.toAint n } : Code Request) else pure q) = .ret (reported q n) := by
  by_cases recv : q.op = .recv
  · rw [if_pos (.inl recv), reported, if_pos recv]
    rfl
  · rw [if_neg (not_or.mpr ⟨recv, op⟩), reported, if_neg recv]
    rfl

/-- A received status becomes one completion for the client, and its context is deleted. -/
theorem wp_deliver {st : Status} {k : Request → Code α} (h : Received st v v')
    (next : ∀ q, contract.wp (k q) Q v) :
    contract.wp ((getRequestFromStatus st).bind fun q =>
      (act (.output q st.userContext)).bind fun _ => k q) Q v' := by
  unfold Received at h
  unfold getRequestFromStatus
  cases hst : st.userContext with
  | none =>
    rw [hst] at h
    subst h
    refine ⟨rfl, fun _ w hw => ?_⟩
    rw [hw]
    exact next _
  | some p =>
    rw [hst] at h
    obtain ⟨op, free, rfl⟩ := h
    have taken : update v.held p (some (.taken st.size)) p = some (.taken st.size) :=
      Function.update_self _ _ _
    refine ⟨⟨_, taken⟩, fun q w hq => ?_⟩
    obtain ⟨rfl, rfl⟩ := hq
    have shown (u : View) (hu : u = { v with held := update v.held p (some (.consumed st.size)) }) :
        contract.wp ((act (.output (reported p.posted st.size) (some p))).bind fun _ =>
          k (reported p.posted st.size)) Q u := by
      subst hu
      refine ⟨⟨_, Function.update_self _ _ _, rfl⟩, fun _ u hu => ?_⟩
      have back : u = v := by
        rw [hu]
        simp only [Function.update_idem, ← free, Function.update_eq_self]
      rw [back]
      exact next _
    refine ⟨⟨_, taken⟩, fun _ w hw => ?_⟩
    have consumed := hw _ taken
    simp only [Function.update_idem] at consumed
    simp only [Prog.ret_bind, reported_eq op]
    exact shown w consumed

theorem wp_signal {st : Status} (h : Received st v v') :
    contract.wp (signal st) (fun _ u => u = v) v' :=
  wp_deliver h fun _ => ⟨trivial, fun _ _ hu => hu⟩

theorem wp_pollCq (c : Comp) (deep : 0 < v.depth) :
    contract.wp (pollCq c) (fun _ u => u = v) v := by
  refine ⟨deep, fun st u hu => ?_⟩
  cases st with
  | none => exact hu
  | some st =>
    have received : Received st v u := hu
    exact wp_deliver received fun q => ⟨trivial, fun _ _ hu => hu⟩

/-- A post leaves its thread with nothing but the answer. -/
theorem wp_post {request : Request} {call : Ctx → Post} (op : request.op ≠ .putSignal)
    (own : ∀ p, (call p).userContext = p) (deep : 0 < v.depth) :
    contract.wp (post request call) (fun r u => v.held r.1 = none ∧ v.receipt r.1 = none ∧
      u = { v with receipt := update v.receipt r.1 (some r.2) }) v := by
  refine ⟨⟨op, deep⟩, fun p u hu => ?_⟩
  obtain ⟨-, free, unread, rfl⟩ := hu
  have fresh : update v.held p (some Held.fresh) p = some .fresh := Function.update_self _ _ _
  refine ⟨⟨?_, deep⟩, fun posted u hu => ⟨?_, fun _ u' hu' => ?_⟩⟩
  · rw [own]
    exact fresh
  · rw [hu]
    exact deep
  · rw [hu', hu, own]
    have none' : update (update v.held p (some Held.fresh)) p none = v.held := by
      rw [Function.update_idem, ← free, Function.update_eq_self]
    cases posted with
    | true =>
      refine ⟨free, unread, ?_⟩
      simp only [if_true, none']
    | false =>
      refine ⟨Function.update_self _ _ _, fun _ u hu => ⟨free, unread, ?_⟩⟩
      rw [hu]
      simp only [Function.update_idem] at none' ⊢
      rw [none']

/-- What a call leaves its thread with before it returns. -/
def Returning (v : View) : CallResult → View → Prop
  | .posted p b, u => v.held p = none ∧ v.receipt p = none ∧
      u = { v with receipt := update v.receipt p (some b) }
  | _, u => u = v

theorem wp_counted {call : Code (Ctx × Bool)} {start retry : Mpi.Counter}
    (h : contract.wp call (fun r u => v.held r.1 = none ∧ v.receipt r.1 = none ∧
      u = { v with receipt := update v.receipt r.1 (some r.2) }) v) :
    contract.wp (counted call start retry) (Returning v) v := by
  refine contract.wp_call h fun r u hu => ⟨trivial, fun _ u' hu' => ?_⟩
  rw [hu']
  exact hu

theorem wp_callBody (c : Call) (deep : 0 < v.depth) :
    contract.wp (callBody c) (Returning v) v := by
  cases c with
  | send d rank tag buf length comp ctx =>
    exact wp_counted (wp_post (by simp) (fun _ => rfl) deep)
  | recv d rank tag buf length comp ctx =>
    exact wp_counted (wp_post (by simp) (fun _ => rfl) deep)
  | put d rank buf length comp ctx =>
    exact wp_counted (wp_post (by simp) (fun _ => rfl) deep)
  | pollCq c =>
    refine ⟨trivial, fun _ u hu => ?_⟩
    rw [hu]
    simp only [Prog.ret_bind]
    refine contract.wp_call (wp_pollCq c deep) fun ret u hu => ?_
    rw [hu]
    cases ret with
    | true => exact ⟨trivial, fun _ u hu => hu⟩
    | false => exact rfl
  | doProgress d =>
    refine ⟨trivial, fun _ u hu => ?_⟩
    rw [hu]
    exact ⟨deep, fun _ u hu => hu⟩
  | barrier d => exact ⟨deep, fun _ u hu => hu⟩

/-- An API call returns with nothing in hand. -/
theorem wp_apiCall (c : Call) (deep : 0 < v.depth) (top : v.depth = 1 → ∀ p, v.held p = none) :
    contract.wp (apiCall c) (fun _ u => u = { v with depth := v.depth - 1 }) v := by
  refine contract.wp_call (wp_callBody c deep) fun r u hu => ?_
  cases r with
  | posted p b =>
    obtain ⟨free, unread, rfl⟩ := hu
    refine ⟨⟨deep, top, fun q b' hq => ?_⟩, fun _ u hu => ?_⟩
    · cases hq
      exact ⟨Function.update_self _ _ _, free⟩
    · rw [Contract.wp_ret, hu]
      simp only [Function.update_idem, ← unread, Function.update_eq_self]
  | polled b =>
    obtain rfl := hu
    exact ⟨⟨deep, top, fun _ _ hq => by cases hq⟩, fun _ u hu => hu⟩
  | progressed b =>
    obtain rfl := hu
    exact ⟨⟨deep, top, fun _ _ hq => by cases hq⟩, fun _ u hu => hu⟩
  | void =>
    obtain rfl := hu
    exact ⟨⟨deep, top, fun _ _ hq => by cases hq⟩, fun _ u hu => hu⟩

end Programs

section Interjections

variable {isHandler : Comp → Bool} {w w' : World} {t : Tid} {o : Op} {p : Code Unit}

theorem lci_depth {v : View} (lci : o.isLci = true) (pre : contract.pre o v) : 0 < v.depth := by
  cases o with
  | post x => exact pre.2
  | postReturn | progress _ | barrier _ | cqPop _ => exact pre
  | _ => cases lci

theorem intr_books {i : Intr} (h : Books w) (pre : contract.pre o (view t w))
    (hi : intr isHandler t o i w = some (p, w')) :
    Books w' ∧ contract.wp p (fun _ v => v = view t w) (view t w') ∧
      ∀ u, u ≠ t → view u w' = view u w := by
  cases i with
  | call c =>
    simp only [intr] at hi
    split at hi
    · obtain ⟨rfl, rfl⟩ := Prod.mk.inj (Option.some.inj hi)
      refine ⟨?_, ?_, fun u hu => ?_⟩
      · refine h.carry rfl rfl rfl rfl (fun _ _ _ hs _ => hs) rfl rfl (fun _ => rfl) h.incoming
          (fun _ _ _ hr => hr) (fun _ _ hp => .inl hp) (fun u q hu => h.quiet u q ?_) rfl
        by_cases e : u = t
        · simp only [World.enter, e, Function.update_self] at hu
          omega
        · simpa only [World.enter, Function.update_of_ne e] using hu
      · refine (contract.wp_mono (wp_apiCall c ?_ ?_)) fun _ u hu => ?_
        · simp [view, World.enter]
        · intro one q
          simp only [view, World.enter, Function.update_self] at one
          exact h.quiet t q (by omega)
        · rw [hu]
          simp [view, World.enter]
      · simp [view, World.enter, hu]
    · cases hi
  | complete i n =>
    simp only [intr] at hi
    split at hi
    · rename_i lci
      obtain ⟨x, hx, rest⟩ := Option.bind_eq_some_iff.mp hi
      split at rest
      · obtain ⟨rfl, rfl⟩ := Prod.mk.inj (Option.some.inj rest)
        have here := h.posted hx
        have stage : (w.handOver t i x n).stage =
            update w.stage x.userContext (.held t (.taken n)) := rfl
        refine ⟨h.handOver hx (lci_depth lci pre), ?_, fun u hu => view_stay stage ?_ rfl rfl⟩
        · refine wp_signal ⟨h.op _ (by simp [here]), by simp [view, here, Stage.heldBy], ?_⟩
          have mine : (view t (w.handOver t i x n)).held =
              update (view t w).held x.userContext (some (.taken n)) := by
            rw [held_move stage, heldBy_self]
          exact congrArg (View.mk · (w.receipt t) (w.depth t)) mine
        · rw [here, heldBy_other hu]
          rfl
      · cases rest
    · cases hi
  | incoming rank tag buffer size =>
    simp only [intr] at hi
    split at hi
    · obtain ⟨rfl, rfl⟩ := Prod.mk.inj (Option.some.inj hi)
      exact ⟨h, wp_signal rfl, fun u _ => rfl⟩
    · cases hi

theorem env_books {e : Env} (h : Books w) (he : env isHandler e w = some w') :
    Books w' ∧ ∀ t, view t w' = view t w := by
  cases e with
  | willing b =>
    obtain rfl := Option.some.inj he
    refine ⟨?_, fun t => rfl⟩
    exact h.carry rfl rfl rfl rfl (fun _ _ _ hs _ => hs) rfl rfl (fun _ => rfl) h.incoming
      (fun _ _ _ hr => hr) (fun _ _ hp => .inl hp) h.quiet rfl
  | complete i n =>
    obtain ⟨x, hx, rest⟩ := Option.bind_eq_some_iff.mp he
    split at rest
    · cases rest
    · obtain rfl := Option.some.inj rest
      refine ⟨h.enqueue hx, fun t => ?_⟩
      refine view_stay (p := x.userContext) (s := .queued x.comp n) rfl ?_ rfl rfl
      rw [h.posted hx]
      rfl
  | incoming c rank tag buffer size =>
    obtain rfl := Option.some.inj he
    exact ⟨h.incomingQueued c rfl, fun t => rfl⟩

end Interjections

/-- Threads hold contexts by the contract, and the books are kept, in every interleaving. -/
def custody (isHandler : Comp → Bool) : Discipline (system isHandler) fun _ _ => True where
  View := View
  view := view
  inv := Books
  contract := fun _ => contract
  exec _ _ _ _ _ _ inv _ _ pre hx := exec_books inv pre hx
  intr _ _ _ _ _ _ _ inv _ _ pre hi := intr_books inv pre hi
  env _ _ _ inv _ he := env_books inv he

/-- A posted operation has not completed yet, or its completion is being handled in a call. -/
def Outstanding (w : World) (p : Ctx) : Prop :=
  (∃ x ∈ w.pending, x.userContext = p) ∨ (∃ c, ∃ st ∈ w.queues c, st.userContext = some p) ∨
    ∃ t, 0 < w.depth t ∧ (view t w).held p ≠ none

/-- What becomes of the contexts of all posts, and what clients see of them. -/
structure Settled (w : World) : Prop where
  neverReadAfterDeletion : w.strayReads = 0
  deletedOnce : ∀ p, (w.deletions p).length ≤ 1 ∧ ((w.heap p).isSome → w.deletions p = [])
  refused : ∀ p, (p, false) ∈ w.returned → w.deletions p = [.poster] ∧ w.outputsOf p = []
  accepted : ∀ p, (p, true) ∈ w.returned → .poster ∉ w.deletions p ∧
    (Outstanding w p ∧ w.outputsOf p = [] ∨
      ∃ n, w.sizes p = some n ∧ w.deletions p = [.completion] ∧
        w.outputsOf p = [⟨reported p.posted n, some p⟩])
  completion : ∀ o ∈ w.outputs, ∀ p, o.origin = some p →
    ∃ n, w.sizes p = some n ∧ o.request = reported p.posted n
  signal : ∀ o ∈ w.outputs, o.request.op = .putSignal ↔ o.origin = none
  drained : (∀ t, w.depth t = 0) → w.pending = [] → (∀ c, w.queues c = []) →
    ∀ p, w.heap p = none

section Settled

variable {w : World}

theorem op_reported (q : Request) (n : Nat) : (reported q n).op = q.op := by
  unfold reported
  split <;> rfl

/-- What an output with an origin says. -/
theorem Books.completion (h : Books w) {o : Output} (ho : o ∈ w.outputs) {p : Ctx}
    (hp : o.origin = some p) : ∃ n, w.stage p = .shown n ∧ o.request = reported p.posted n := by
  have listed : o ∈ w.outputsOf p := List.mem_filter.mpr ⟨ho, by simpa using hp⟩
  rw [h.outputs] at listed
  cases e : w.stage p with
  | shown n =>
    rw [e] at listed
    obtain rfl := List.mem_singleton.mp listed
    exact ⟨n, rfl, rfl⟩
  | _ =>
    rw [e] at listed
    cases listed

theorem Books.outstanding (h : Books w) {p : Ctx} (live : (w.stage p).live) :
    Outstanding w p := by
  cases e : w.stage p with
  | held t g =>
    have mine : (view t w).held p = some g := by simp [view, e]
    refine .inr (.inr ⟨t, ?_, by simp [mine]⟩)
    by_contra idle
    have free := h.quiet t p (by omega)
    rw [e, heldBy_self] at free
    cases free
  | posted =>
    obtain ⟨q, hq, rfl⟩ := h.placed.exists_mem (k := p) (i := none) (by simp [e, Stage.place])
    obtain ⟨x, hx, rfl⟩ := List.mem_map.mp hq
    exact .inl ⟨x, hx, rfl⟩
  | queued c n =>
    obtain ⟨q, hq, rfl⟩ := h.placed.exists_mem (k := p) (i := some c) (by simp [e, Stage.place])
    obtain ⟨st, hs, hst⟩ := List.mem_filterMap.mp hq
    exact .inr (.inl ⟨c, st, hs, hst⟩)
  | _ =>
    rw [e] at live
    cases live

theorem Books.settled (h : Books w) : Settled w where
  neverReadAfterDeletion := h.stray
  deletedOnce p := by
    rw [h.deletions, h.heap]
    cases w.stage p with
    | held t g => cases g <;> simp [Stage.deletions, Stage.live]
    | _ => simp [Stage.deletions, Stage.live]
  refused p hp := by
    obtain ⟨-, dropped⟩ := h.returned p false hp
    rw [h.deletions, h.outputs, dropped rfl]
    exact ⟨rfl, rfl⟩
  accepted p hp := by
    obtain ⟨answer, -⟩ := h.returned p true hp
    rw [h.deletions, h.outputs, h.sizes]
    cases e : w.stage p with
    | held t g =>
      rw [e] at answer
      cases g with
      | taken n => exact ⟨by simp [Stage.deletions], .inl ⟨h.outstanding (by rw [e]; rfl), rfl⟩⟩
      | consumed n =>
        have mine : (view t w).held p = some (.consumed n) := by simp [view, e]
        refine ⟨by simp [Stage.deletions], .inl ⟨.inr (.inr ⟨t, ?_, by simp [mine]⟩), rfl⟩⟩
        by_contra idle
        have free := h.quiet t p (by omega)
        rw [e, heldBy_self] at free
        cases free
      | _ => cases answer
    | posted => exact ⟨by simp [Stage.deletions], .inl ⟨h.outstanding (by rw [e]; rfl), rfl⟩⟩
    | queued c n =>
      exact ⟨by simp [Stage.deletions], .inl ⟨h.outstanding (by rw [e]; rfl), rfl⟩⟩
    | shown n => exact ⟨by simp [Stage.deletions], .inr ⟨n, rfl, rfl, rfl⟩⟩
    | _ =>
      rw [e] at answer
      cases answer
  completion o ho p hp := by
    obtain ⟨n, stage, request⟩ := h.completion ho hp
    exact ⟨n, by rw [h.sizes, stage]; rfl, request⟩
  signal o ho := by
    cases e : o.origin with
    | none => simp [h.incoming o ho e]
    | some p =>
      obtain ⟨n, stage, request⟩ := h.completion ho e
      have op := h.op p (by simp [stage])
      simp [request, op_reported, op]
  drained idle pending queues p := by
    rw [h.heap]
    cases live : (w.stage p).live with
    | false => rfl
    | true =>
      rcases h.outstanding live with ⟨x, hx, -⟩ | ⟨c, st, hs, -⟩ | ⟨t, deep, -⟩
      · rw [pending] at hx
        cases hx
      · rw [queues] at hs
        cases hs
      · rw [idle] at deep
        omega

end Settled

end Lcw.Lci2
