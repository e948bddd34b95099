/- digest: An operation is in one deque, in one thread's hands, or with its completion object. -/

import Lcw.Mpi.LedgerApi
import Lcw.Mpi.Quiet

set_option autoImplicit false
set_option relaxedAutoImplicit false

namespace Lcw.Mpi

open Interleave

section Request

variable {cfg : Config} {s : (machine cfg).State}

/-- Everything but the registration of a continuation. -/
def Op.polled : Op → Prop
  | .continue .. => False
  | _ => True

/-- Where an operation can be. -/
inductive Place
  | deque (m : Manager)
  | hands (t : Tid)
  | queue (c : Comp)
  | polled (c : Comp)
  | handler (c : Comp)

/-- How often an operation is at a place. -/
def World.times (cfg : Config) (w : World) (p : RequestPtr) : Place → Nat
  | .deque m => (w.store.entries m).countP fun e => e.request = p
  | .hands t => if w.store.stage p = .owned t .held then 1 else 0
  | .queue c => (w.store.cq c).countP fun x => x.origin = p
  | .polled c => (w.store.polled c).countP fun x => x.origin = p
  | .handler c => if cfg.isHandler c then (w.store.delivered c).countP fun x => x.origin = p else 0

/-- Completion objects are those the operation named; who holds it makes progress. -/
def Place.Proper (w : World) (p : RequestPtr) : Place → Prop
  | .deque _ => True
  | .hands t => ∃ d a rest, w.client.acts t = ⟨.doProgress d, a⟩ :: rest
  | .queue c | .polled c | .handler c => p.completion = some c

/-- MPI reported the operation complete, or answered its call with a null request. -/
def World.Finished (cfg : Config) (w : World) (p : RequestPtr) : Prop :=
  ∃ st, w.net.result p = some st ∧ (st = cfg.indeterminate ∨
    ∃ h q, h.request = p ∧ w.net.reqs h = some q ∧ q.state = .consumed)

/-- What a completion object has been told and still has, or was polled from it. -/
def World.told (cfg : Config) (w : World) (c : Comp) : List Delivery :=
  if cfg.isHandler c then w.store.delivered c else w.store.polled c ++ w.store.cq c

section Filed

variable {w : World} {p : RequestPtr}

theorem Filed.times_deque (h : Filed cfg w) (m : Manager) :
    w.times cfg p (.deque m) = if (w.store.stage p).deque = some m then 1 else 0 :=
  h.deque m p

/-- A completion object that was told is a handler, or still has the completion, or had it. -/
theorem Filed.times_told (h : Filed cfg w) (c : Comp) :
    w.times cfg p (.queue c) + w.times cfg p (.polled c) + w.times cfg p (.handler c) =
      if toldTo w p = some c then 1 else 0 := by
  have told := h.told c p
  have fifo := h.fifo c
  simp only [World.times]
  cases handler : cfg.isHandler c with
  | true =>
    simp only [handler, if_true] at fifo
    rw [fifo.1, fifo.2, if_pos rfl, told]
    simp
  | false =>
    simp only [handler, Bool.false_eq_true, if_false] at fifo
    rw [fifo, List.countP_append] at told
    rw [if_neg (by simp), ← told]
    omega

theorem times_hands (t : Tid) :
    w.times cfg p (.hands t) = if w.store.stage p = .owned t .held then 1 else 0 := rfl

/-- Where an operation is that was not told to anybody. -/
theorem Filed.untold (h : Filed cfg w) (quiet : toldTo w p = none) (c : Comp) :
    w.times cfg p (.queue c) = 0 ∧ w.times cfg p (.polled c) = 0 ∧
      w.times cfg p (.handler c) = 0 := by
  have nowhere := h.times_told (p := p) c
  rw [quiet, if_neg (by simp)] at nowhere
  omega

theorem Filed.place (h : Filed cfg w) (never : ∀ m, w.store.attached m = [])
    (named : (w.store.stage p).told = true → p.completion ≠ none)
    (handed : (w.store.stage p).handed = true) :
    ∃ x : Place, w.times cfg p x = 1 ∧ ∀ y, y ≠ x → w.times cfg p y = 0 := by
  have unqueued (other : (w.store.stage p).deque = none) (m : Manager) :
      w.times cfg p (.deque m) = 0 := by
    rw [h.times_deque, other, if_neg (by simp)]
  by_cases told : (w.store.stage p).told = true
  · obtain ⟨c, hc⟩ := Option.ne_none_iff_exists'.mp (named told)
    have there : toldTo w p = some c := by rw [toldTo, if_pos told, hc]
    have away : ∀ k, k ≠ c → w.times cfg p (.queue k) = 0 ∧ w.times cfg p (.polled k) = 0 ∧
        w.times cfg p (.handler k) = 0 := by
      intro k hk
      have nowhere := h.times_told (p := p) k
      rw [there, if_neg (by simpa using Ne.symm hk)] at nowhere
      omega
    have once := h.times_told (p := p) c
    rw [there, if_pos rfl] at once
    have unheld (t : Tid) : w.times cfg p (.hands t) = 0 := by
      rw [times_hands, if_neg]
      intro held
      rw [held] at told
      cases told
    have other : (w.store.stage p).deque = none := by
      cases stage : w.store.stage p <;> first | rfl | (rw [stage] at told; cases told)
    have rest (x : Place) (here : w.times cfg p x = 1) (hx : x = .queue c ∨ x = .polled c ∨
        x = .handler c) : ∃ x : Place, w.times cfg p x = 1 ∧ ∀ y, y ≠ x → w.times cfg p y = 0 := by
      refine ⟨x, here, fun y hy => ?_⟩
      cases y with
      | deque m => exact unqueued other m
      | hands t => exact unheld t
      | queue k | polled k | handler k =>
        by_cases same : k = c
        · subst same
          rcases hx with rfl | rfl | rfl <;> first | exact absurd rfl hy | omega
        · have := away k same
          omega
    by_cases queue : w.times cfg p (.queue c) = 1
    · exact rest _ queue (.inl rfl)
    · by_cases polled : w.times cfg p (.polled c) = 1
      · exact rest _ polled (.inr (.inl rfl))
      · exact rest (.handler c) (by omega) (.inr (.inr rfl))
  · have quiet : toldTo w p = none := by rw [toldTo, if_neg told]
    have untold := h.untold quiet
    cases stage : w.store.stage p with
    | queued m =>
      refine ⟨.deque m, by rw [h.times_deque, stage, Stage.deque, if_pos rfl], fun y hy => ?_⟩
      cases y with
      | deque k =>
        rw [h.times_deque, stage, Stage.deque, if_neg]
        rintro same
        exact hy (by rw [Option.some.inj same])
      | hands t => rw [times_hands, stage, if_neg (by simp)]
      | queue k => exact (untold k).1
      | polled k => exact (untold k).2.1
      | handler k => exact (untold k).2.2
    | owned t k =>
      obtain rfl : k = .held := by
        rw [stage] at handed told
        cases k <;> simp_all [Stage.handed, Stage.told]
      refine ⟨.hands t, by rw [times_hands, stage, if_pos rfl], fun y hy => ?_⟩
      cases y with
      | deque m => exact unqueued (by rw [stage]; rfl) m
      | hands u =>
        rw [times_hands, stage, if_neg]
        rintro same
        obtain ⟨rfl, -⟩ := Stage.owned.inj same
        exact hy rfl
      | queue k => exact (untold k).1
      | polled k => exact (untold k).2.1
      | handler k => exact (untold k).2.2
    | attached m =>
      obtain ⟨e, he, -⟩ := h.conts.exists_mem (k := p) (i := m) (by simp [stage, Stage.conts])
      rw [never m] at he
      cases he
    | unborn | armed d =>
      rw [stage] at handed
      cases handed
    | gone =>
      rw [stage] at told
      exact absurd rfl told

end Filed

theorem Reported.finished {w : World} {p : RequestPtr} {st : Status}
    (h : Reported (.free cfg) w p st) (result : w.net.result p = some st) :
    w.Finished cfg p := by
  refine ⟨st, result, h.imp And.left ?_⟩
  rintro ⟨k, q, own, hq, done, -⟩
  exact ⟨k, q, own, hq, done⟩

end Request

end Lcw.Mpi
