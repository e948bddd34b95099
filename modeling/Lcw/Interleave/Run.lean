/- digest: Runs of a partial step function, and the rule for invariants of guarded runs. -/

import Mathlib.Data.Option.Basic

set_option autoImplicit false
set_option relaxedAutoImplicit false

namespace Lcw.Interleave

section Run

variable {State Action : Type} (step : State → Action → Option State)

/-- Take the actions in order; a run stops where one cannot be taken. -/
def play : State → List Action → Option State
  | s, [] => some s
  | s, a :: as => (step s a).bind fun s' => play s' as

/-- Each action taken is allowed in the state it is taken in. -/
def Guarded (ok : State → Action → Prop) : State → List Action → Prop
  | _, [] => True
  | s, a :: as => ∀ s', step s a = some s' → ok s a ∧ Guarded ok s' as

/-- A property of every state the run goes through. -/
def Throughout (P : State → Prop) : State → List Action → Prop
  | s, [] => P s
  | s, a :: as => P s ∧ ∀ s', step s a = some s' → Throughout P s' as

variable {step} {ok : State → Action → Prop} {s s' : State} {a : Action} {as bs : List Action}

theorem play_cons : play step s (a :: as) = some s' ↔
    ∃ m, step s a = some m ∧ play step m as = some s' := Option.bind_eq_some_iff

theorem play_append : play step s (as ++ bs) = some s' ↔
    ∃ m, play step s as = some m ∧ play step m bs = some s' := by
  induction as generalizing s with
  | nil => simp [play]
  | cons a as ih =>
    rw [List.cons_append, play_cons]
    constructor
    · rintro ⟨n, hn, rest⟩
      obtain ⟨m, hm, last⟩ := ih.mp rest
      exact ⟨m, play_cons.mpr ⟨n, hn, hm⟩, last⟩
    · rintro ⟨m, hm, last⟩
      obtain ⟨n, hn, front⟩ := play_cons.mp hm
      exact ⟨n, hn, ih.mpr ⟨m, front, last⟩⟩

theorem guarded_of_forall (h : ∀ s a, ok s a) (s : State) (as : List Action) :
    Guarded step ok s as := by
  induction as generalizing s with
  | nil => trivial
  | cons a as ih => exact fun m _ => ⟨h s a, ih m⟩

/-- What every allowed action preserves holds at the end of every guarded run. -/
theorem play_invariant {I : State → Prop} (guarded : Guarded step ok s as)
    (run : play step s as = some s') (init : I s)
    (next : ∀ s a s', I s → ok s a → step s a = some s' → I s') : I s' := by
  induction as generalizing s with
  | nil => exact Option.some.inj run ▸ init
  | cons a as ih =>
    obtain ⟨m, hm, rest⟩ := play_cons.mp run
    obtain ⟨allowed, guarded⟩ := guarded m hm
    exact ih guarded rest (next s a m init allowed hm)

theorem throughout_invariant {I : State → Prop} (guarded : Guarded step ok s as) (init : I s)
    (next : ∀ s a s', I s → ok s a → step s a = some s' → I s') : Throughout step I s as := by
  induction as generalizing s with
  | nil => exact init
  | cons a as ih =>
    refine ⟨init, fun m hm => ?_⟩
    obtain ⟨allowed, guarded⟩ := guarded m hm
    exact ih guarded (next s a m init allowed hm)

theorem Throughout.head {I : State → Prop} (h : Throughout step I s as) : I s := by
  cases as with
  | nil => exact h
  | cons a as => exact h.1

/-- Actions between states with a property are the allowed ones. -/
theorem guarded_of_throughout {I : State → Prop} (h : Throughout step I s as)
    (back : ∀ s a s', I s → I s' → step s a = some s' → ok s a) : Guarded step ok s as := by
  induction as generalizing s with
  | nil => trivial
  | cons a as ih => exact fun m hm => ⟨back s a m h.1 (h.2 m hm).head hm, ih (h.2 m hm)⟩

end Run

end Lcw.Interleave
