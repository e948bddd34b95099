/- digest: Queues whose front item takes its turn, and leaves or goes to the back. -/

import Lcw.Interleave.Simulation

set_option autoImplicit false
set_option relaxedAutoImplicit false

namespace Lcw.Interleave

open Function (update)

/-- The queues have names in `K` and hold items of `E`. -/
structure RoundRobin where
  K : Type
  E : Type
  [decK : DecidableEq K]

attribute [instance] RoundRobin.decK

namespace RoundRobin

variable (M : RoundRobin)

/-- An item joins a queue, or the front one takes its turn. -/
inductive Act
  | add (k : M.K) (e : M.E)
  | turn (k : M.K) (e : M.E) (leaves : Bool)

variable {M}

/-- Where the others are after a turn, and the item if it does not leave. -/
def after (e : M.E) (rest : List M.E) (leaves : Bool) : List M.E :=
  if leaves then rest else rest ++ [e]

inductive Visible (q : M.K → List M.E) : M.Act → (M.K → List M.E) → Prop
  | add (k : M.K) (e : M.E) : Visible q (.add k e) (update q k (q k ++ [e]))
  | turn (k : M.K) (e : M.E) (rest : List M.E) (leaves : Bool) (front : q k = e :: rest) :
      Visible q (.turn k e leaves) (update q k (after e rest leaves))

variable (M) in
def spec : Spec where
  State := M.K → List M.E
  Act := M.Act
  visible := Visible
  silent _ _ := False

section History

/-- The turns in a queue, and whether the item left. -/
def Act.turnOf (k : M.K) : M.Act → Option (M.E × Bool)
  | .turn k' e leaves => if k' = k then some (e, leaves) else none
  | _ => none

def Act.addOf (k : M.K) : M.Act → Option M.E
  | .add k' e => if k' = k then some e else none
  | _ => none

/-- What an action puts at the back of a queue. -/
def Act.backOf (k : M.K) : M.Act → Option M.E
  | .add k' e => if k' = k then some e else none
  | .turn k' e leaves => if k' = k ∧ leaves = false then some e else none

def turns (k : M.K) (as : List M.Act) : List (M.E × Bool) := as.filterMap (Act.turnOf k)

def adds (k : M.K) (as : List M.Act) : List M.E := as.filterMap (Act.addOf k)

def backs (k : M.K) (as : List M.Act) : List M.E := as.filterMap (Act.backOf k)

/-- The items that took their turn and did not leave. -/
def kept (ts : List (M.E × Bool)) : List M.E := (ts.filter fun x => !x.2).map Prod.fst

variable {as : List M.Act} {a : M.Act} {k : M.K} {q q' : M.K → List M.E}

theorem filterMap_snoc {α β : Type} {f : α → Option β} {l : List α} {x : α} :
    (l ++ [x]).filterMap f = l.filterMap f ++ (f x).toList := by
  cases e : f x <;> simp [e]

/-- What took its turn and what is there now is what was there and what was put at the back. -/
def Fifo (q : M.K → List M.E) (as : List M.Act) (q' : M.K → List M.E) : Prop :=
  ∀ k, (turns k as).map Prod.fst ++ q' k = q k ++ backs k as

theorem Fifo.visible {q'' : M.K → List M.E} (h : Fifo q as q') (step : Visible q' a q'') :
    Fifo q (as ++ [a]) q'' := by
  intro k
  have law := h k
  simp only [turns, backs, filterMap_snoc] at law ⊢
  cases step with
  | add k' e =>
    by_cases same : k' = k
    · subst same
      simp only [Act.turnOf, Act.backOf, if_true, Option.toList_none, Option.toList_some,
        List.append_nil, Function.update_self]
      rw [← List.append_assoc, law, List.append_assoc]
    · simp only [Act.turnOf, Act.backOf, if_neg same, Option.toList_none, List.append_nil,
        Function.update_of_ne (Ne.symm same)]
      exact law
  | turn k' e rest leaves front =>
    by_cases same : k' = k
    · subst same
      rw [front] at law
      cases leaves with
      | true => simpa [Act.turnOf, Act.backOf, after] using law
      | false => simpa [Act.turnOf, Act.backOf, after] using congrArg (· ++ [e]) law
    · simp only [Act.turnOf, Act.backOf, same, false_and, if_false, Option.toList_none,
        List.append_nil, Function.update_of_ne (Ne.symm same)]
      exact law

theorem Fifo.of_runs (h : M.spec.Runs q as q') : Fifo q as q' := by
  refine h.invariant (I := fun as q' => Fifo q as q') (fun k => ?_)
    (fun as s a s' inv step => ?_) fun _ _ _ _ never => never.elim
  · exact (List.append_nil (q k)).symm
  · exact inv.visible step

theorem filterMap_front {α β : Type} {f : α → Option β} {l : List α} {x : α} :
    (x :: l).filterMap f = (f x).toList ++ l.filterMap f := by
  cases e : f x <;> simp [e]

theorem kept_append (l l' : List (M.E × Bool)) : kept (l ++ l') = kept l ++ kept l' := by
  simp [kept]

/-- What an action puts at the back is new, or has taken its turn in vain. -/
theorem Act.parts (a : M.Act) (k : M.K) :
    (a.backOf k).toList = (a.addOf k).toList ++ kept (a.turnOf k).toList := by
  cases a with
  | add k' e => by_cases same : k' = k <;> simp [backOf, addOf, turnOf, kept, same]
  | turn k' e leaves =>
    by_cases same : k' = k <;> cases leaves <;> simp [backOf, addOf, turnOf, kept, same]

theorem backs_perm (k : M.K) (as : List M.Act) :
    (backs k as).Perm (adds k as ++ kept (turns k as)) := by
  induction as with
  | nil => exact .nil
  | cons a as ih =>
    simp only [backs, adds, turns, filterMap_front, kept_append, Act.parts,
      List.append_assoc] at ih ⊢
    exact ((ih.append_left _).trans (List.perm_append_comm_assoc ..)).append_left _

theorem adds_sublist (k : M.K) (as : List M.Act) : (adds k as).Sublist (backs k as) := by
  induction as with
  | nil => exact .slnil
  | cons a as ih =>
    simp only [backs, adds, filterMap_front, Act.parts, List.append_assoc] at ih ⊢
    exact (ih.trans (List.sublist_append_right _ _)).append_left _

theorem kept_sublist (k : M.K) (as : List M.Act) :
    (kept (turns k as)).Sublist (backs k as) := by
  induction as with
  | nil => exact .slnil
  | cons a as ih =>
    simp only [backs, turns, filterMap_front, kept_append, Act.parts,
      List.append_assoc] at ih ⊢
    exact (ih.append_left _).trans (List.sublist_append_right _ _)

/-- From `q` to `q'` the items of `q` took their turns first, in order; then what came to the back
meanwhile, the new ones and those that did not leave, each in order. -/
structure Swept (q : List M.E) (ts : List (M.E × Bool)) (new q' : List M.E) : Prop where
  inOrder : ∀ (i : Nat) (e : M.E), q[i]? = some e → i < ts.length →
    (ts[i]?).map Prod.fst = some e
  rest : ts.length ≤ q.length → ∃ back, q' = q.drop ts.length ++ back ∧
    back.Perm (new ++ kept ts) ∧ new.Sublist back ∧ (kept ts).Sublist back

/-- In every run each item waits for the turns of those before it, and for no other. -/
theorem swept (h : M.spec.Runs q as q') (k : M.K) :
    Swept (q k) (turns k as) (adds k as) (q' k) := by
  have law := Fifo.of_runs h k
  refine ⟨fun i e here early => ?_, fun few => ?_⟩
  · have first : ((turns k as).map Prod.fst ++ q' k)[i]? = ((turns k as)[i]?).map Prod.fst := by
      rw [List.getElem?_append_left (by rwa [List.length_map]), List.getElem?_map]
    have inside := (List.getElem?_eq_some_iff.mp here).1
    rw [← first, law, List.getElem?_append_left inside]
    exact here
  · have cut := congrArg (List.drop ((turns k as).map Prod.fst).length) law
    rw [List.drop_left, List.length_map, List.drop_append_of_le_length few] at cut
    exact ⟨backs k as, cut, backs_perm k as, adds_sublist k as, kept_sublist k as⟩

end History

end RoundRobin

end Lcw.Interleave
