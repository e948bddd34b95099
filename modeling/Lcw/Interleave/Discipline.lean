/- digest: Thread views, private to their thread, carry contracts through every interleaving. -/

import Lcw.Interleave.System

set_option autoImplicit false
set_option relaxedAutoImplicit false

namespace Lcw.Interleave

/-- A discipline gives each thread a view of the shared state that no other thread's step
changes, a contract on that view, and an invariant of the shared state. The three obligations
are about one operation, one interjection and one environment step. -/
structure Discipline (S : System) (ok : S.State → S.Event → Prop) where
  View : Type
  view : S.Tid → S.Shared → View
  inv : S.Shared → Prop
  contract : S.Tid → Contract S.Op S.Ret View
  exec : ∀ (s : S.State) (t : S.Tid) (o : S.Op) (k : S.Ret o → Prog S.Op S.Ret Unit)
    (r : S.Ret o) (w : S.Shared), inv s.shared → ok s (.exec t) → s.prog t = .op o k →
    (contract t).pre o (view t s.shared) → S.exec t o s.shared = some (r, w) →
    inv w ∧ (contract t).post o (view t s.shared) r (view t w) ∧
      ∀ u, u ≠ t → view u w = view u s.shared
  intr : ∀ (s : S.State) (t : S.Tid) (o : S.Op) (k : S.Ret o → Prog S.Op S.Ret Unit)
    (i : S.Intr) (p : Prog S.Op S.Ret Unit) (w : S.Shared), inv s.shared → ok s (.intr t i) →
    s.prog t = .op o k → (contract t).pre o (view t s.shared) →
    S.intr t o i s.shared = some (p, w) →
    inv w ∧ (contract t).wp p (fun _ v => v = view t s.shared) (view t w) ∧
      ∀ u, u ≠ t → view u w = view u s.shared
  env : ∀ (s : S.State) (e : S.Env) (w : S.Shared), inv s.shared → ok s (.env e) →
    S.env e s.shared = some w → inv w ∧ ∀ t, view t w = view t s.shared

namespace Discipline

variable {S : System} {ok : S.State → S.Event → Prop} (D : Discipline S ok)

/-- The shared invariant holds and each thread can finish what it is doing by the contracts. -/
def Holds (s : S.State) : Prop :=
  D.inv s.shared ∧ ∀ t, (D.contract t).wp (s.prog t) (fun _ _ => True) (D.view t s.shared)

private theorem wp_update {s : S.State} {t : S.Tid} {p : Prog S.Op S.Ret Unit} {w : S.Shared}
    (others : ∀ u, (D.contract u).wp (s.prog u) (fun _ _ => True) (D.view u s.shared))
    (mine : (D.contract t).wp p (fun _ _ => True) (D.view t w))
    (frame : ∀ u, u ≠ t → D.view u w = D.view u s.shared) (u : S.Tid) :
    (D.contract u).wp (Function.update s.prog t p u) (fun _ _ => True) (D.view u w) := by
  by_cases h : u = t
  · subst h
    rwa [Function.update_self]
  · rw [Function.update_of_ne h, frame u h]
    exact others u

theorem holds_step {s s' : S.State} {e : S.Event} (h : D.Holds s) (hok : ok s e)
    (hs : System.step s e = some s') : D.Holds s' := by
  obtain ⟨hinv, hwp⟩ := h
  cases e with
  | exec t =>
    obtain ⟨o, k, r, w, hp, hx, rfl⟩ := System.step_exec hs
    have ht := hwp t
    rw [hp, Contract.wp_op] at ht
    obtain ⟨hi, hpost, frame⟩ := D.exec s t o k r w hinv hok hp ht.1 hx
    exact ⟨hi, D.wp_update hwp (ht.2 r _ hpost) frame⟩
  | intr t i =>
    obtain ⟨o, k, p, w, hp, hx, rfl⟩ := System.step_intr hs
    have ht := hwp t
    rw [hp] at ht
    obtain ⟨hi, hcall, frame⟩ := D.intr s t o k i p w hinv hok hp ht.1 hx
    refine ⟨hi, D.wp_update hwp ?_ frame⟩
    exact (D.contract t).wp_call hcall fun _ v hv => hv ▸ ht
  | env e =>
    obtain ⟨w, hx, rfl⟩ := System.step_env hs
    obtain ⟨hi, frame⟩ := D.env s e w hinv hok hx
    exact ⟨hi, fun t => by rw [frame t]; exact hwp t⟩

/-- Every reached state satisfies the invariant and every thread's contract. -/
theorem reach {s₀ s : S.State} (init : D.Holds s₀) (h : System.Reach ok s₀ s) : D.Holds s :=
  h.invariant init fun _ _ _ hi hok hs => D.holds_step hi hok hs

/-- In a reached state the precondition of every thread's next operation holds. -/
theorem pre_of_reach {s₀ s : S.State} (init : D.Holds s₀) (h : System.Reach ok s₀ s)
    {t : S.Tid} {o : S.Op} {k : S.Ret o → Prog S.Op S.Ret Unit} (hp : s.prog t = .op o k) :
    (D.contract t).pre o (D.view t s.shared) := by
  have ht := (D.reach init h).2 t
  rw [hp] at ht
  exact ht.1

/-- A thread that has finished has what the last operation of every path leaves it with. -/
theorem finished {I : S.Op → Prop} {Q : S.Tid → D.View → Prop} {s₀ s : S.State}
    (init : D.Holds s₀) (h : System.Reach ok s₀ s)
    (last : ∀ t o v r v', I o → (D.contract t).pre o v → (D.contract t).post o v r v' → Q t v')
    (ends : ∀ t, (s₀.prog t = .ret () ∧ Q t (D.view t s₀.shared)) ∨ (s₀.prog t).EndsIn I)
    {t : S.Tid} (done : s.prog t = .ret ()) : Q t (D.view t s.shared) := by
  have all : ∀ t, (s.prog t = .ret () ∧ Q t (D.view t s.shared)) ∨ (s.prog t).EndsIn I := by
    refine (h.strengthen fun _ reached => D.reach init reached).invariant
      (I := fun s => ∀ t, (s.prog t = .ret () ∧ Q t (D.view t s.shared)) ∨ (s.prog t).EndsIn I)
      ends fun s e s' inv known step u => ?_
    obtain ⟨hok, hinv, hwp⟩ := known
    cases e with
    | exec v =>
      obtain ⟨o, k, r, w, hp, hx, rfl⟩ := System.step_exec step
      have mine := hwp v
      rw [hp, Contract.wp_op] at mine
      obtain ⟨-, post, frame⟩ := D.exec s v o k r w hinv hok hp mine.1 hx
      by_cases same : u = v
      · subst same
        simp only [Function.update_self]
        have path := (inv u).resolve_left fun ended => by cases hp.symm.trans ended.1
        rw [hp] at path
        exact (path r).imp_left fun ⟨is, _, ended⟩ => ⟨ended, last u o _ r _ is mine.1 post⟩
      · simp only [Function.update_of_ne same, frame u same]
        exact inv u
    | intr v i =>
      obtain ⟨o, k, p, w, hp, hi, rfl⟩ := System.step_intr step
      have mine := hwp v
      rw [hp, Contract.wp_op] at mine
      obtain ⟨-, -, frame⟩ := D.intr s v o k i p w hinv hok hp mine.1 hi
      by_cases same : u = v
      · subst same
        simp only [Function.update_self]
        have path := (inv u).resolve_left fun ended => by cases hp.symm.trans ended.1
        rw [hp] at path
        exact .inr (Prog.endsIn_bind fun _ => path)
      · simp only [Function.update_of_ne same, frame u same]
        exact inv u
    | env e =>
      obtain ⟨w, hx, rfl⟩ := System.step_env step
      obtain ⟨-, frame⟩ := D.env s e w hinv hok hx
      rw [frame u]
      exact inv u
  refine (all t).elim (·.2) fun path => ?_
  rw [done] at path
  exact path.elim

end Discipline

end Lcw.Interleave
