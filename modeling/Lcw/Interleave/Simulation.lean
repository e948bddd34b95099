/- digest: Specifications with visible and silent steps, and systems whose runs they allow. -/

import Lcw.Interleave.Observe

set_option autoImplicit false
set_option relaxedAutoImplicit false

namespace Lcw.Interleave

/-- A specification says which steps may be seen in a state, and which may pass unseen. -/
structure Spec where
  State : Type
  Act : Type
  visible : State → Act → State → Prop
  silent : State → State → Prop

namespace Spec

variable {A : Spec}

/-- What is seen of a run, in order. -/
inductive Runs (A : Spec) (s₀ : A.State) : List A.Act → A.State → Prop
  | init : Runs A s₀ [] s₀
  | act {as : List A.Act} {a : A.Act} {s s' : A.State} :
      Runs A s₀ as s → A.visible s a s' → Runs A s₀ (as ++ [a]) s'
  | silent {as : List A.Act} {s s' : A.State} :
      Runs A s₀ as s → A.silent s s' → Runs A s₀ as s'

/-- What every step keeps of the record and the state holds of every run. -/
theorem Runs.invariant {I : List A.Act → A.State → Prop} {s₀ s : A.State} {as : List A.Act}
    (h : A.Runs s₀ as s) (init : I [] s₀)
    (act : ∀ as s a s', I as s → A.visible s a s' → I (as ++ [a]) s')
    (silent : ∀ as s s', I as s → A.silent s s' → I as s') : I as s := by
  induction h with
  | init => exact init
  | act _ step ih => exact act _ _ _ _ ih step
  | silent _ step ih => exact silent _ _ _ ih step

/-- Every action of a run was allowed where it was seen. -/
theorem Runs.split {s₀ s : A.State} {as pre post : List A.Act} {a : A.Act}
    (h : A.Runs s₀ as s) (cut : as = pre ++ a :: post) :
    ∃ m m', A.Runs s₀ pre m ∧ A.visible m a m' := by
  induction h generalizing post with
  | init => simp at cut
  | @act bs b s s' prior step ih =>
    rcases List.eq_nil_or_concat post with rfl | ⟨post, c, rfl⟩
    · obtain ⟨rfl, last⟩ := List.append_inj' cut rfl
      obtain rfl := List.singleton_inj.mp last
      exact ⟨s, s', prior, step⟩
    · have cut : bs ++ [b] = (pre ++ a :: post) ++ [c] := by simpa using cut
      exact ih (List.append_inj' cut rfl).1
  | silent prior step ih => exact ih cut

end Spec

namespace System

variable {S : System}

/-- An onlooker that writes down what it is shown of the operations. -/
def writer {Act : Type} (shows : S.Tid → (o : S.Op) → S.Ret o → Option Act) : S.Observer where
  Record := List Act
  exec t o r as := as ++ (shows t o r).toList
  intr _ _ as := as

/-- What a step of the system is to its specification: the step that is shown, or one that is not,
or none. -/
def Answers (A : Spec) (x y : A.State) : Option A.Act → Prop
  | some a => A.visible x a y
  | none => x = y ∨ A.silent x y

/-- Each step of a system whose states are known to be good is a step of a specification. -/
structure Simulation (S : System) (known : S.State → Prop) (A : Spec) where
  shows : S.Tid → (o : S.Op) → S.Ret o → Option A.Act
  abs : S.Shared → A.State
  exec : ∀ (s : S.State) (t : S.Tid) (o : S.Op) (k : S.Ret o → Prog S.Op S.Ret Unit)
    (r : S.Ret o) (w : S.Shared), known s → s.prog t = .op o k →
    S.exec t o s.shared = some (r, w) → Answers A (abs s.shared) (abs w) (shows t o r)
  intr : ∀ (s : S.State) (t : S.Tid) (o : S.Op) (k : S.Ret o → Prog S.Op S.Ret Unit)
    (i : S.Intr) (p : Prog S.Op S.Ret Unit) (w : S.Shared), known s → s.prog t = .op o k →
    S.intr t o i s.shared = some (p, w) → Answers A (abs s.shared) (abs w) none
  env : ∀ (s : S.State) (e : S.Env) (w : S.Shared), known s → S.env e s.shared = some w →
    Answers A (abs s.shared) (abs w) none

namespace Simulation

variable {known : S.State → Prop} {A : Spec} (R : Simulation S known A)

/-- The onlooker of a simulated system writes a run of the specification. -/
def onlooker : S.Observer := writer R.shows

/-- What the onlooker has written. -/
def seen (s : R.onlooker.observed.State) : List A.Act := s.shared.2

theorem runs_answer {x y z : A.State} {as : List A.Act} {a : Option A.Act}
    (runs : A.Runs z as x) (answer : Answers A x y a) : A.Runs z (as ++ a.toList) y := by
  cases a with
  | some a => exact runs.act answer
  | none =>
    rw [Option.toList_none, List.append_nil]
    rcases answer with rfl | silent
    · exact runs
    · exact runs.silent silent

/-- What is seen of a system is seen of its specification. -/
theorem runs (ok : S.State → S.Event → Prop) {s₀ : S.State} {s : R.onlooker.observed.State}
    (known_of_reach : ∀ s, Reach ok s₀ s → known s)
    (h : Reach (fun s e => ok (R.onlooker.bare s) (R.onlooker.event e))
      (R.onlooker.beside s₀ ([] : List A.Act)) s) :
    A.Runs (R.abs s₀.shared) (R.seen s) (R.abs s.shared.1) := by
  induction h with
  | init => exact .init
  | @step s s' e prior hok hs ih =>
    have good := known_of_reach _ (Observer.reach_bare prior)
    cases e with
    | exec t =>
      obtain ⟨o, k, r, y, hp, hx, rfl⟩ := System.step_exec hs
      obtain ⟨hx, record⟩ := Observer.exec_some hx
      have answer := R.exec (R.onlooker.bare s) t o k r y.1 good hp hx
      have written : R.seen ⟨y, Function.update s.prog t (k r)⟩ =
          R.seen s ++ (R.shows t o r).toList := record
      rw [written]
      exact runs_answer ih answer
    | intr t i =>
      obtain ⟨o, k, p, y, hp, hi, rfl⟩ := System.step_intr hs
      obtain ⟨hi, record⟩ := Observer.intr_some hi
      have answer := R.intr (R.onlooker.bare s) t o k i p y.1 good hp hi
      have written : R.seen ⟨y, Function.update s.prog t (p.bind fun _ => .op o k)⟩ =
          R.seen s ++ (none : Option A.Act).toList := record.trans (List.append_nil _).symm
      rw [written]
      exact runs_answer ih answer
    | env e =>
      obtain ⟨y, he, rfl⟩ := System.step_env hs
      obtain ⟨he, record⟩ := Observer.env_some he
      have answer := R.env (R.onlooker.bare s) e y.1 good he
      have written : R.seen ⟨y, s.prog⟩ = R.seen s ++ (none : Option A.Act).toList :=
        record.trans (List.append_nil _).symm
      rw [written]
      exact runs_answer ih answer

end Simulation

end System

end Lcw.Interleave
