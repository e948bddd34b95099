/- digest: Records an onlooker keeps of the runs of a system, without changing them. -/

import Lcw.Interleave.System

set_option autoImplicit false
set_option relaxedAutoImplicit false

namespace Lcw.Interleave

namespace System

/-- What an onlooker notes of the operations threads perform and of the code that is entered. -/
structure Observer (S : System) where
  Record : Type
  exec : S.Tid → (o : S.Op) → S.Ret o → Record → Record
  intr : S.Tid → S.Intr → Record → Record

namespace Observer

variable {S : System} (O : S.Observer)

/-- The system with the record of its onlooker next to the shared state. -/
def observed : System where
  Tid := S.Tid
  Op := S.Op
  Ret := S.Ret
  Shared := S.Shared × O.Record
  Intr := S.Intr
  Env := S.Env
  exec t o x := (S.exec t o x.1).map fun y => (y.1, y.2, O.exec t o y.1 x.2)
  intr t o i x := (S.intr t o i x.1).map fun y => (y.1, y.2, O.intr t i x.2)
  env e x := (S.env e x.1).map fun w => (w, x.2)

/-- A state next to a record. -/
def beside (s : S.State) (r : O.Record) : O.observed.State := ⟨(s.shared, r), s.prog⟩

/-- The state without the record. -/
def bare (s : O.observed.State) : S.State := ⟨s.shared.1, s.prog⟩

/-- The event of the system itself. -/
def event : O.observed.Event → S.Event
  | .exec t => .exec t
  | .intr t i => .intr t i
  | .env e => .env e

/-- An event of the system, observed. -/
def seen : S.Event → O.observed.Event
  | .exec t => .exec t
  | .intr t i => .intr t i
  | .env e => .env e

variable {O}

theorem exec_some {t : S.Tid} {o : S.Op} {x : S.Shared × O.Record} {r : S.Ret o}
    {y : S.Shared × O.Record} (h : O.observed.exec t o x = some (r, y)) :
    S.exec t o x.1 = some (r, y.1) ∧ y.2 = O.exec t o r x.2 := by
  obtain ⟨⟨r', w⟩, hx, e⟩ := Option.map_eq_some_iff.mp h
  obtain ⟨rfl, rfl⟩ := Prod.mk.inj e
  exact ⟨hx, rfl⟩

theorem intr_some {t : S.Tid} {o : S.Op} {i : S.Intr} {x y : S.Shared × O.Record}
    {p : Prog S.Op S.Ret Unit} (h : O.observed.intr t o i x = some (p, y)) :
    S.intr t o i x.1 = some (p, y.1) ∧ y.2 = O.intr t i x.2 := by
  obtain ⟨⟨p', w⟩, hx, e⟩ := Option.map_eq_some_iff.mp h
  obtain ⟨rfl, rfl⟩ := Prod.mk.inj e
  exact ⟨hx, rfl⟩

theorem env_some {e : S.Env} {x y : S.Shared × O.Record} (h : O.observed.env e x = some y) :
    S.env e x.1 = some y.1 ∧ y.2 = x.2 := by
  obtain ⟨w, hx, rfl⟩ := Option.map_eq_some_iff.mp h
  exact ⟨hx, rfl⟩

/-- Whatever the system does can be observed. -/
theorem step_seen {s s' : S.State} {e : S.Event} (r : O.Record)
    (h : System.step s e = some s') :
    ∃ r', System.step (O.beside s r) (O.seen e) = some (O.beside s' r') := by
  cases e with
  | exec t =>
    obtain ⟨o, k, x, w, hp, hx, rfl⟩ := System.step_exec h
    refine ⟨O.exec t o x r, ?_⟩
    simp only [System.step, seen, beside, observed, hp, hx, Option.map_some]
    rfl
  | intr t i =>
    obtain ⟨o, k, p, w, hp, hx, rfl⟩ := System.step_intr h
    refine ⟨O.intr t i r, ?_⟩
    simp only [System.step, seen, beside, observed, hp, hx, Option.map_some]
    rfl
  | env e =>
    obtain ⟨w, hx, rfl⟩ := System.step_env h
    refine ⟨r, ?_⟩
    simp only [System.step, seen, beside, observed, hx, Option.map_some]

/-- What is observed is what the system does. -/
theorem step_bare {s s' : O.observed.State} {e : O.observed.Event}
    (h : System.step s e = some s') :
    System.step (O.bare s) (O.event e) = some (O.bare s') := by
  cases e with
  | exec t =>
    obtain ⟨o, k, x, y, hp, hx, rfl⟩ := System.step_exec h
    have hx := (exec_some hx).1
    simp only [System.step, event, bare, hp, hx, Option.map_some]
    rfl
  | intr t i =>
    obtain ⟨o, k, p, y, hp, hx, rfl⟩ := System.step_intr h
    have hx := (intr_some hx).1
    simp only [System.step, event, bare, hp, hx, Option.map_some]
    rfl
  | env e =>
    obtain ⟨y, hx, rfl⟩ := System.step_env h
    have hx := (env_some hx).1
    simp only [System.step, event, bare, hx, Option.map_some]

/-- Every reached state of the system is reached under observation. -/
theorem reach_seen {ok : S.State → S.Event → Prop} {s₀ s : S.State} (r₀ : O.Record)
    (h : System.Reach ok s₀ s) :
    ∃ r, System.Reach (fun s e => ok (O.bare s) (O.event e)) (O.beside s₀ r₀)
      (O.beside s r) := by
  induction h with
  | init => exact ⟨r₀, .init⟩
  | step e _ hok hs ih =>
    obtain ⟨r, reached⟩ := ih
    obtain ⟨r', step⟩ := step_seen r hs
    refine ⟨r', .step (O.seen e) reached ?_ step⟩
    cases e <;> exact hok

/-- Observed runs are runs of the system. -/
theorem reach_bare {ok : S.State → S.Event → Prop} {s₀ s : O.observed.State}
    (h : System.Reach (fun s e => ok (O.bare s) (O.event e)) s₀ s) :
    System.Reach ok (O.bare s₀) (O.bare s) := by
  induction h with
  | init => exact .init
  | step e _ hok hs ih => exact .step (O.event e) ih hok (step_bare hs)

/-- Observing a system does not change what it can reach. -/
theorem reach_iff {s₀ s : S.State} (r₀ : O.Record) :
    System.Reach (fun _ _ => True) s₀ s ↔
      ∃ r, System.Reach (fun _ _ => True) (O.beside s₀ r₀) (O.beside s r) := by
  refine ⟨reach_seen r₀, fun ⟨r, h⟩ => ?_⟩
  have back : System.Reach (fun _ _ => True) (O.bare (O.beside s₀ r₀)) (O.bare (O.beside s r)) :=
    reach_bare h
  exact back

end Observer

end System

end Lcw.Interleave
