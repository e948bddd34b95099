/- digest: Quantities that threads move, and that are in balance when no thread has anything left. -/

import Lcw.Interleave.System
import Mathlib.Algebra.BigOperators.Finprod

set_option autoImplicit false
set_option relaxedAutoImplicit false

namespace Lcw.Interleave

open Function (update)

section Sums

variable {ι A : Type} [AddCommGroup A]

/-- All but finitely many of the amounts are zero, and they add up to `a`. -/
def Sums (f : ι → A) (a : A) : Prop := f.support.Finite ∧ ∑ᶠ i, f i = a

namespace Sums

variable {f g : ι → A} {a x : A} {i : ι}

theorem zero : Sums (fun _ : ι => (0 : A)) 0 := by
  refine ⟨?_, finsum_zero⟩
  rw [Function.support_fun_zero]
  exact Set.finite_empty

theorem eq_zero (h : Sums f a) (none : ∀ i, f i = 0) : a = 0 := by
  have same : f = fun _ => 0 := funext none
  rw [← h.2, same, finsum_zero]

/-- Amounts may be looked at in part. -/
theorem map {B : Type} [AddCommGroup B] (h : Sums f a) (φ : A →+ B) :
    Sums (fun i => φ (f i)) (φ a) := by
  have fewer : (fun i => φ (f i)).support ⊆ f.support := by
    intro i hi none
    exact hi ((congrArg φ none).trans φ.map_zero)
  refine ⟨h.1.subset fewer, ?_⟩
  rw [← h.2, φ.map_finsum h.1]

theorem at' {κ : Type} {f : ι → κ → A} {a : κ → A} (h : Sums f a) (k : κ) :
    Sums (fun i => f i k) (a k) :=
  h.map (Pi.evalAddMonoidHom (fun _ => A) k)

/-- One of the amounts changes. -/
theorem change (h : Sums f a) (here : g i = f i + x) (other : ∀ j, j ≠ i → g j = f j) :
    Sums g (a + x) := by
  classical
  have single : (Pi.single i x : ι → A).support.Finite :=
    (Set.finite_singleton i).subset Pi.support_single_subset
  have split : g = fun j => f j + (Pi.single i x : ι → A) j := by
    funext j
    by_cases same : j = i
    · subst same
      rw [here, Pi.single_eq_same]
    · rw [other j same, Pi.single_eq_of_ne same, add_zero]
  refine ⟨?_, ?_⟩
  · rw [split]
    exact (h.1.union single).subset (Function.support_add _ _)
  · rw [split, finsum_add_distrib h.1 single, h.2]
    have elsewhere (j : ι) (hj : j ≠ i) : (Pi.single i x : ι → A) j = 0 := by simp [hj]
    rw [finsum_eq_single _ i elsewhere, Pi.single_eq_same]

theorem move [DecidableEq ι] (h : Sums f a) (i : ι) (x : A) :
    Sums (update f i (f i + x)) (a + x) :=
  h.change (Function.update_self ..) fun _ hj => Function.update_of_ne hj ..

end Sums

end Sums

/-- A tariff says what each operation moves on the account of its thread, what it needs and what
its reply tells. -/
structure Tariff (Op : Type) (Ret : Op → Type) (A : Type) where
  pre : Op → Prop
  info : (o : Op) → Ret o → Prop
  move : (o : Op) → Ret o → A

namespace Tariff

variable {Op : Type} {Ret : Op → Type} {A α β : Type} [AddCommGroup A] (T : Tariff Op Ret A)

/-- The tariff as a contract on the account. -/
def contract : Contract Op Ret A where
  pre o _ := T.pre o
  post o v r v' := T.info o r ∧ v' = v + T.move o r

/-- Every path of the program moves the account by `x`. -/
def Adds (p : Prog Op Ret α) (x : A) : Prop := ∀ v, T.contract.wp p (fun _ v' => v' = v + x) v

/-- Needs nothing, and moves nothing. -/
def Free (o : Op) : Prop := T.pre o ∧ ∀ r, T.move o r = 0

variable {T} {p q : Prog Op Ret α} {f : α → Prog Op Ret β} {o : Op} {x y z : A}

theorem adds_ret {a : α} : T.Adds (.ret a) 0 := fun v => (add_zero v).symm

theorem adds_then (hp : T.Adds p x) (hf : ∀ a, T.Adds (f a) y) (sum : x + y = z) :
    T.Adds (p.bind f) z := by
  intro v
  apply T.contract.wp_call (hp v)
  intro a v' hv
  rw [hv, ← sum, ← add_assoc]
  exact hf a (v + x)

theorem adds_bind (hp : T.Adds p 0) (hf : ∀ a, T.Adds (f a) x) : T.Adds (p.bind f) x :=
  adds_then hp hf (zero_add x)

theorem adds_ite {c : Prop} [Decidable c] (hp : c → T.Adds p x) (hq : ¬ c → T.Adds q x) :
    T.Adds (if c then p else q) x := by
  split
  · exact hp ‹_›
  · exact hq ‹_›

/-- The program continues with what the reply of an operation tells. -/
theorem adds_op {k : Ret o → Prog Op Ret β} (pre : T.pre o)
    (next : ∀ r, T.info o r → T.Adds (k r) (x - T.move o r)) :
    T.Adds ((Prog.perform o).bind k) x := by
  intro v
  refine T.contract.wp_act pre fun r v' hv => ?_
  obtain ⟨info, rfl⟩ := hv
  have rest := next r info (v + T.move o r)
  rwa [add_assoc, add_sub_cancel] at rest

theorem adds_act (pre : T.pre o) (move : ∀ r, T.move o r = x) : T.Adds (.perform o) x :=
  fun _ => ⟨pre, fun r _ hv => by rw [hv.2, move r]; rfl⟩

theorem adds_of_uses (h : p.Uses T.Free) : T.Adds p 0 := fun v => by
  rw [add_zero]
  refine T.contract.wp_of_uses (fun o u free => ⟨free.1, fun r u' hu => ?_⟩) h v
  rw [hu.2, free.2 r, add_zero]

section Steps

variable {Q : β → A → Prop} {v : A}

/-- A free operation is followed by what its reply tells. -/
theorem wp_free {k : Ret o → Prog Op Ret β} (free : T.Free o)
    (next : ∀ r, T.info o r → T.contract.wp (k r) Q v) :
    T.contract.wp ((Prog.perform o).bind k) Q v := by
  refine T.contract.wp_act free.1 fun r v' hv => ?_
  rw [hv.2, free.2, add_zero]
  exact next r hv.1

theorem wp_quiet (h : T.Adds p 0) (next : ∀ a, T.contract.wp (f a) Q v) :
    T.contract.wp (p.bind f) Q v := by
  refine T.contract.wp_call (h v) fun a v' hv => ?_
  rw [hv, add_zero]
  exact next a

end Steps

/-- A thread with one operation left that moves nothing owes nothing. -/
theorem settled_act {v : A} {k : Ret o → Prog Op Ret Unit} (r : Ret o) (info : T.info o r)
    (free : T.move o r = 0) (last : k r = .ret ())
    (h : T.contract.wp (.op o k) (fun _ v => v = 0) v) : v = 0 := by
  have done := h.2 r (v + T.move o r) ⟨info, rfl⟩
  rw [last, free, add_zero] at done
  exact done

end Tariff

/-- An accounting gives every thread an account, moved by its own operations only. The level of
the shared state moves by the same amounts. -/
structure Accounting (S : System) (ok : S.State → S.Event → Prop) (A : Type)
    [AddCommGroup A] where
  inv : S.Shared → Prop
  level : S.Shared → A → Prop
  tariff : S.Tid → Tariff S.Op S.Ret A
  exec : ∀ (s : S.State) (t : S.Tid) (o : S.Op) (k : S.Ret o → Prog S.Op S.Ret Unit)
    (r : S.Ret o) (w : S.Shared), inv s.shared → ok s (.exec t) → s.prog t = .op o k →
    (tariff t).pre o → S.exec t o s.shared = some (r, w) →
    inv w ∧ (tariff t).info o r ∧ ∀ a, level s.shared a → level w (a + (tariff t).move o r)
  intr : ∀ (s : S.State) (t : S.Tid) (o : S.Op) (k : S.Ret o → Prog S.Op S.Ret Unit)
    (i : S.Intr) (p : Prog S.Op S.Ret Unit) (w : S.Shared), inv s.shared → ok s (.intr t i) →
    s.prog t = .op o k → (tariff t).pre o → S.intr t o i s.shared = some (p, w) →
    inv w ∧ ∃ x, (tariff t).Adds p (-x) ∧ ∀ a, level s.shared a → level w (a + x)
  env : ∀ (s : S.State) (e : S.Env) (w : S.Shared), inv s.shared → ok s (.env e) →
    S.env e s.shared = some w → inv w ∧ ∀ a, level s.shared a → level w a

namespace Accounting

variable {S : System} {ok : S.State → S.Event → Prop} {A : Type} [AddCommGroup A]
  (D : Accounting S ok A)

/-- What a thread has left to do brings its account to zero. -/
def Settles (s : S.State) (t : S.Tid) (v : A) : Prop :=
  (D.tariff t).contract.wp (s.prog t) (fun _ v => v = 0) v

/-- The accounts add up to the level, and every thread settles its own. -/
def Balanced (s : S.State) : Prop :=
  D.inv s.shared ∧ ∃ (accounts : S.Tid → A) (a : A), D.level s.shared a ∧ Sums accounts a ∧
    ∀ t, D.Settles s t (accounts t)

private theorem settles_moved {s : S.State} {t : S.Tid} {p : Prog S.Op S.Ret Unit}
    {w : S.Shared} {accounts : S.Tid → A} {v : A} (all : ∀ u, D.Settles s u (accounts u))
    (mine : (D.tariff t).contract.wp p (fun _ v => v = 0) v) (u : S.Tid) :
    D.Settles ⟨w, update s.prog t p⟩ u (update accounts t v u) := by
  unfold Settles
  by_cases h : u = t
  · subst h
    simp only [Function.update_self]
    exact mine
  · simp only [Function.update_of_ne h]
    exact all u

theorem balanced_step {s s' : S.State} {e : S.Event} (h : D.Balanced s) (hok : ok s e)
    (hs : System.step s e = some s') : D.Balanced s' := by
  obtain ⟨inv, accounts, a, level, sums, all⟩ := h
  cases e with
  | exec t =>
    obtain ⟨o, k, r, w, hp, hx, rfl⟩ := System.step_exec hs
    have mine := all t
    rw [Settles, hp, Contract.wp_op] at mine
    obtain ⟨inv', info, moves⟩ := D.exec s t o k r w inv hok hp mine.1 hx
    have next := mine.2 r _ ⟨info, rfl⟩
    exact ⟨inv', _, _, moves a level, sums.move t _, D.settles_moved all next⟩
  | intr t i =>
    obtain ⟨o, k, p, w, hp, hx, rfl⟩ := System.step_intr hs
    have mine := all t
    rw [Settles, hp] at mine
    obtain ⟨inv', x, call, moves⟩ := D.intr s t o k i p w inv hok hp mine.1 hx
    refine ⟨inv', _, _, moves a level, sums.move t x, D.settles_moved all ?_⟩
    apply (D.tariff t).contract.wp_call (call _)
    intro _ v hv
    rw [hv, add_neg_cancel_right]
    exact mine
  | env e =>
    obtain ⟨w, hx, rfl⟩ := System.step_env hs
    obtain ⟨inv', moves⟩ := D.env s e w inv hok hx
    exact ⟨inv', accounts, a, moves a level, sums, all⟩

theorem reach {s₀ s : S.State} (init : D.Balanced s₀) (h : System.Reach ok s₀ s) :
    D.Balanced s :=
  h.invariant init fun _ _ _ hi hok hs => D.balanced_step hi hok hs

/-- Before any thread has moved anything the level is zero. -/
theorem balanced_start {s : S.State} (inv : D.inv s.shared) (level : D.level s.shared 0)
    (idle : ∀ t, D.Settles s t 0) : D.Balanced s :=
  ⟨inv, fun _ => 0, 0, level, Sums.zero, idle⟩

/-- When no thread has anything left to settle the level is zero. -/
theorem level_zero {s : S.State} (h : D.Balanced s) (rest : ∀ t v, D.Settles s t v → v = 0) :
    D.level s.shared 0 := by
  obtain ⟨-, accounts, a, level, sums, all⟩ := h
  obtain rfl := sums.eq_zero fun t => rest t _ (all t)
  exact level

end Accounting

end Lcw.Interleave
