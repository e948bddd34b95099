/- digest: Interleaved execution of thread programs with callbacks and environment steps. -/

import Lcw.Interleave.Program
import Mathlib.Data.Option.Basic
import Mathlib.Order.Basic

set_option autoImplicit false
set_option relaxedAutoImplicit false

namespace Lcw.Interleave

/-- Threads share one state. An operation may block (`none`), and at some operations foreign
code may be interjected before the operation takes effect. -/
structure System where
  Tid : Type
  Op : Type
  Ret : Op → Type
  Shared : Type
  Intr : Type
  Env : Type
  [decTid : DecidableEq Tid]
  exec : Tid → (o : Op) → Shared → Option (Ret o × Shared)
  intr : Tid → (o : Op) → Intr → Shared → Option (Prog Op Ret Unit × Shared)
  env : Env → Shared → Option Shared

attribute [instance] System.decTid

namespace System

variable (S : System)

/-- The shared state and what every thread has left to do. -/
structure State where
  shared : S.Shared
  prog : S.Tid → Prog S.Op S.Ret Unit

/-- A thread performs its next operation, has code interjected before it, or the environment
moves. -/
inductive Event
  | exec (t : S.Tid)
  | intr (t : S.Tid) (i : S.Intr)
  | env (e : S.Env)

variable {S}

/-- One atomic step of the whole system. -/
def step (s : S.State) : S.Event → Option S.State
  | .exec t =>
    match s.prog t with
    | .ret _ => none
    | .op o k => (S.exec t o s.shared).map fun x =>
        ⟨x.2, Function.update s.prog t (k x.1)⟩
  | .intr t i =>
    match s.prog t with
    | .ret _ => none
    | .op o k => (S.intr t o i s.shared).map fun x =>
        ⟨x.2, Function.update s.prog t (x.1.bind fun _ => .op o k)⟩
  | .env e => (S.env e s.shared).map fun w => ⟨w, s.prog⟩

/-- Play a list of events from a state. -/
def run : S.State → List S.Event → Option S.State
  | s, [] => some s
  | s, e :: es => (step s e).bind fun s' => run s' es

/-- States reached by runs all of whose events are admitted by `ok`. -/
inductive Reach (ok : S.State → S.Event → Prop) (s₀ : S.State) : S.State → Prop
  | init : Reach ok s₀ s₀
  | step {s s' : S.State} (e : S.Event) :
      Reach ok s₀ s → ok s e → step s e = some s' → Reach ok s₀ s'

/-- Every event of the run is admitted where it happens. -/
def Admitted (ok : S.State → S.Event → Prop) : S.State → List S.Event → Prop
  | _, [] => True
  | s, e :: es => ok s e ∧ ∀ s', System.step s e = some s' → Admitted ok s' es

instance Admitted.decidable (ok : S.State → S.Event → Prop) [∀ s e, Decidable (ok s e)] :
    ∀ (s : S.State) (es : List S.Event), Decidable (Admitted ok s es)
  | _, [] => .isTrue trivial
  | s, e :: es =>
    match h : System.step s e with
    | none => decidable_of_iff (ok s e)
        ⟨fun a => ⟨a, fun _ hs => nomatch h.symm.trans hs⟩, fun a => a.1⟩
    | some s' =>
      have := Admitted.decidable ok s' es
      decidable_of_iff (ok s e ∧ Admitted ok s' es)
        ⟨fun a => ⟨a.1, fun _ hs => Option.some.inj (h.symm.trans hs) ▸ a.2⟩,
          fun a => ⟨a.1, a.2 s' h⟩⟩

theorem step_exec {s s' : S.State} {t : S.Tid} (h : step s (.exec t) = some s') :
    ∃ o k r w, s.prog t = .op o k ∧ S.exec t o s.shared = some (r, w) ∧
      s' = ⟨w, Function.update s.prog t (k r)⟩ := by
  simp only [step] at h
  split at h
  · cases h
  · rename_i o k hp
    obtain ⟨⟨r, w⟩, hx, rfl⟩ := Option.map_eq_some_iff.mp h
    exact ⟨o, k, r, w, hp, hx, rfl⟩

theorem step_intr {s s' : S.State} {t : S.Tid} {i : S.Intr} (h : step s (.intr t i) = some s') :
    ∃ o k p w, s.prog t = .op o k ∧ S.intr t o i s.shared = some (p, w) ∧
      s' = ⟨w, Function.update s.prog t (p.bind fun _ => .op o k)⟩ := by
  simp only [step] at h
  split at h
  · cases h
  · rename_i o k hp
    obtain ⟨⟨p, w⟩, hx, rfl⟩ := Option.map_eq_some_iff.mp h
    exact ⟨o, k, p, w, hp, hx, rfl⟩

theorem step_env {s s' : S.State} {e : S.Env} (h : step s (.env e) = some s') :
    ∃ w, S.env e s.shared = some w ∧ s' = ⟨w, s.prog⟩ := by
  obtain ⟨w, hw, rfl⟩ := Option.map_eq_some_iff.mp h
  exact ⟨w, hw, rfl⟩

/-- Invariants hold in every reached state. -/
theorem Reach.invariant {ok : S.State → S.Event → Prop} {s₀ s : S.State} {I : S.State → Prop}
    (h : Reach ok s₀ s) (init : I s₀)
    (next : ∀ s e s', I s → ok s e → System.step s e = some s' → I s') : I s := by
  induction h with
  | init => exact init
  | step e _ hok hs ih => exact next _ e _ ih hok hs

/-- Threads perform only the operations that the code they start with and that is entered uses. -/
theorem Reach.uses {ok : S.State → S.Event → Prop} {s₀ s : S.State} {I : S.Op → Prop}
    (h : Reach ok s₀ s) (start : ∀ t, (s₀.prog t).Uses I)
    (enter : ∀ t o i w p w', S.intr t o i w = some (p, w') → p.Uses I) (t : S.Tid) :
    (s.prog t).Uses I := by
  have keep {f : S.Tid → Prog S.Op S.Ret Unit} (hf : ∀ u, (f u).Uses I) {v : S.Tid}
      {p : Prog S.Op S.Ret Unit} (hp : p.Uses I) (u : S.Tid) :
      (Function.update f v p u).Uses I := by
    by_cases same : u = v
    · subst same
      rwa [Function.update_self]
    · rw [Function.update_of_ne same]
      exact hf u
  refine h.invariant (I := fun s => ∀ t, (s.prog t).Uses I) start (fun s e s' inv _ hs => ?_) t
  cases e with
  | exec u =>
    obtain ⟨o, k, r, w, hp, -, rfl⟩ := step_exec hs
    have mine := inv u
    rw [hp] at mine
    exact keep inv (mine.2 r)
  | intr u i =>
    obtain ⟨o, k, p, w, hp, hi, rfl⟩ := step_intr hs
    have mine := inv u
    rw [hp] at mine
    exact keep inv (Prog.uses_bind (enter u o i _ p w hi) fun _ => mine)
  | env e =>
    obtain ⟨w, -, rfl⟩ := step_env hs
    exact inv

theorem Reach.mono {ok ok' : S.State → S.Event → Prop} {s₀ s : S.State} (h : Reach ok s₀ s)
    (sub : ∀ s e, ok s e → ok' s e) : Reach ok' s₀ s := by
  induction h with
  | init => exact .init
  | step e _ hok hs ih => exact .step e ih (sub _ _ hok) hs

/-- What is already known of the reached states may be assumed of the events taken there. -/
theorem Reach.strengthen {ok : S.State → S.Event → Prop} {s₀ s : S.State} {I : S.State → Prop}
    (h : Reach ok s₀ s) (known : ∀ s, Reach ok s₀ s → I s) :
    Reach (fun s e => ok s e ∧ I s) s₀ s := by
  induction h with
  | init => exact .init
  | step e prior hok hs ih => exact .step e ih ⟨hok, known _ prior⟩ hs

/-- What only grows along a run is, at each of its steps, within what it is in the end. -/
theorem Reach.toward {α : Type} [Preorder α] {f : S.State → α}
    {ok : S.State → S.Event → Prop} {s₀ s : S.State}
    (grows : ∀ s e s', System.step s e = some s' → f s ≤ f s') (h : Reach ok s₀ s) :
    Reach (fun x e => ok x e ∧ ∀ x', System.step x e = some x' → f x' ≤ f s) s₀ s := by
  induction h with
  | init => exact .init
  | @step s s' e _ hok hs ih =>
    have later := ih.mono fun x e h => (⟨h.1, fun x' hx => (h.2 x' hx).trans (grows s _ s' hs)⟩ :
      ok x e ∧ ∀ x', System.step x e = some x' → f x' ≤ f s')
    refine .step e later ⟨hok, fun x' hx => ?_⟩ hs
    obtain rfl := Option.some.inj (hs.symm.trans hx)
    exact le_refl _

theorem Reach.trans {ok : S.State → S.Event → Prop} {s₀ s₁ s₂ : S.State} (h : Reach ok s₀ s₁)
    (g : Reach ok s₁ s₂) : Reach ok s₀ s₂ := by
  induction g with
  | init => exact h
  | step e _ hok hs ih => exact .step e ih hok hs

/-- A played run whose events are admitted reaches its last state. -/
theorem reach_run {ok : S.State → S.Event → Prop} {es : List S.Event} {s s' : S.State}
    (h : run s es = some s') (hok : Admitted ok s es) : Reach ok s s' := by
  induction es generalizing s with
  | nil => exact Option.some.inj h ▸ .init
  | cons e es ih =>
    obtain ⟨m, hm, hr⟩ := Option.bind_eq_some_iff.mp h
    exact (Reach.step e .init hok.1 hm).trans (ih hr (hok.2 m hm))

/-- The thread that acts in an event. -/
def Event.thread : S.Event → Option S.Tid
  | .exec t | .intr t _ => some t
  | .env _ => none

/-- What no event of a run changes is the same after it. -/
theorem run_keeps {α : Type} {f : S.State → α} {I : S.Event → Prop} {es : List S.Event}
    {s s' : S.State} (keeps : ∀ s e s', I e → step s e = some s' → f s' = f s)
    (all : ∀ e ∈ es, I e) (h : run s es = some s') : f s' = f s := by
  induction es generalizing s with
  | nil => exact Option.some.inj h ▸ rfl
  | cons e es ih =>
    obtain ⟨m, hm, hr⟩ := Option.bind_eq_some_iff.mp h
    rw [ih (fun e he => all e (List.mem_cons_of_mem _ he)) hr]
    exact keeps s e m (all e List.mem_cons_self) hm

/-- Only this thread acts in the event. -/
def Event.By (t : S.Tid) (e : S.Event) : Prop := e.thread = some t ∨ e.thread = none

instance (t : S.Tid) (e : S.Event) : Decidable (e.By t) :=
  inferInstanceAs (Decidable (e.thread = some t ∨ e.thread = none))

/-- Other threads have the same left to do when one acts. -/
theorem step_alone {e : S.Event} {s s' : S.State} {t u : S.Tid} (alone : e.By t) (other : u ≠ t)
    (h : step s e = some s') : s'.prog u = s.prog u := by
  cases e with
  | exec v =>
    obtain ⟨o, k, r, w, -, -, rfl⟩ := step_exec h
    obtain own | none := alone
    · obtain rfl := Option.some.inj own
      exact Function.update_of_ne other ..
    · cases none
  | intr v i =>
    obtain ⟨o, k, p, w, -, -, rfl⟩ := step_intr h
    obtain own | none := alone
    · obtain rfl := Option.some.inj own
      exact Function.update_of_ne other ..
    · cases none
  | env e =>
    obtain ⟨w, -, rfl⟩ := step_env h
    rfl

theorem run_alone {es : List S.Event} {s s' : S.State} {t u : S.Tid}
    (alone : ∀ e ∈ es, e.By t) (other : u ≠ t) (h : run s es = some s') :
    s'.prog u = s.prog u :=
  run_keeps (fun _ _ _ alone h => step_alone alone other h) alone h

/-- What a played run shows of its last state is shown by a reached state. -/
theorem reach_probe {α : Type} {ok : S.State → S.Event → Prop} {s : S.State}
    {es : List S.Event} {probe : S.State → α} {a : α} (hok : Admitted ok s es)
    (h : (run s es).map probe = some a) : ∃ s', Reach ok s s' ∧ probe s' = a := by
  obtain ⟨s', hs, ha⟩ := Option.map_eq_some_iff.mp h
  exact ⟨s', reach_run hs hok, ha⟩

/-- Events that are admitted in every state are admitted in a run. -/
theorem admitted_of_mem {ok : S.State → S.Event → Prop} {es : List S.Event}
    (h : ∀ e ∈ es, ∀ s, ok s e) (s : S.State) : Admitted ok s es := by
  induction es generalizing s with
  | nil => trivial
  | cons e es ih =>
    exact ⟨h e List.mem_cons_self s,
      fun s' _ => ih (fun e he => h e (List.mem_cons_of_mem _ he)) s'⟩

theorem admitted_of_forall {ok : S.State → S.Event → Prop} (h : ∀ s e, ok s e)
    (s : S.State) (es : List S.Event) : Admitted ok s es :=
  admitted_of_mem (fun e _ s => h s e) s

theorem reach_probe_any {α : Type} {s : S.State} {es : List S.Event} {probe : S.State → α}
    {a : α} (h : (run s es).map probe = some a) :
    ∃ s', Reach (fun _ _ => True) s s' ∧ probe s' = a :=
  reach_probe (admitted_of_forall (fun _ _ => trivial) s es) h

end System

end Lcw.Interleave
