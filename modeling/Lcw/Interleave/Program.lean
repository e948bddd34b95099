/- digest: Programs as finite trees of atomic operations, with a weakest-precondition calculus. -/

import Mathlib.Logic.Function.Basic

set_option autoImplicit false
set_option relaxedAutoImplicit false

namespace Lcw.Interleave

/-- A program stops with a value, or performs one atomic operation and continues with its reply. -/
inductive Prog (Op : Type) (Ret : Op → Type) (α : Type) : Type
  | ret (a : α)
  | op (o : Op) (k : Ret o → Prog Op Ret α)

namespace Prog

variable {Op : Type} {Ret : Op → Type} {α β : Type}

/-- Sequencing grafts the continuation at every leaf. -/
def bind : Prog Op Ret α → (α → Prog Op Ret β) → Prog Op Ret β
  | .ret a, f => f a
  | .op o k, f => .op o (fun r => (k r).bind f)

/-- One operation on its own. -/
def perform (o : Op) : Prog Op Ret (Ret o) := .op o .ret

instance : Monad (Prog Op Ret) where
  pure := .ret
  bind := Prog.bind

@[simp] theorem pure_eq (a : α) : (pure a : Prog Op Ret α) = .ret a := rfl

@[simp] theorem bind_eq (p : Prog Op Ret α) (f : α → Prog Op Ret β) : p >>= f = p.bind f := rfl

@[simp] theorem ret_bind (a : α) (f : α → Prog Op Ret β) : (Prog.ret a).bind f = f a := rfl

@[simp] theorem op_bind (o : Op) (k : Ret o → Prog Op Ret α) (f : α → Prog Op Ret β) :
    (Prog.op o k).bind f = .op o (fun r => (k r).bind f) := rfl

/-- Every operation on every path of the program is one of these. -/
def Uses (I : Op → Prop) : Prog Op Ret α → Prop
  | .ret _ => True
  | .op o k => I o ∧ ∀ r, (k r).Uses I

variable {I : Op → Prop}

theorem uses_bind {p : Prog Op Ret α} {f : α → Prog Op Ret β} (hp : p.Uses I)
    (hf : ∀ a, (f a).Uses I) : (p.bind f).Uses I := by
  induction p with
  | ret a => exact hf a
  | op o k ih => exact ⟨hp.1, fun r => ih r (hp.2 r)⟩

/-- Every path of the program ends with one of these operations. -/
def EndsIn (I : Op → Prop) : Prog Op Ret α → Prop
  | .ret _ => False
  | .op o k => ∀ r, (I o ∧ ∃ a, k r = .ret a) ∨ (k r).EndsIn I

theorem endsIn_bind {p : Prog Op Ret α} {f : α → Prog Op Ret β} (hf : ∀ a, (f a).EndsIn I) :
    (p.bind f).EndsIn I := by
  induction p with
  | ret a => exact hf a
  | op o k ih => exact fun r => .inr (ih r)

theorem uses_then {o : Op} {k : Ret o → Prog Op Ret α} (h : I o) (hk : ∀ r, (k r).Uses I) :
    ((Prog.perform o).bind k).Uses I := ⟨h, hk⟩

end Prog

/-- What a thread must know before an operation and learns from it, stated on its own view. -/
structure Contract (Op : Type) (Ret : Op → Type) (View : Type) where
  pre : Op → View → Prop
  post : (o : Op) → View → Ret o → View → Prop

namespace Contract

variable {Op : Type} {Ret : Op → Type} {View α β : Type} (C : Contract Op Ret View)

/-- Every path of the program meets each operation's precondition and ends in `Q`. -/
def wp : Prog Op Ret α → (α → View → Prop) → View → Prop
  | .ret a, Q, v => Q a v
  | .op o k, Q, v => C.pre o v ∧ ∀ r v', C.post o v r v' → wp (k r) Q v'

@[simp] theorem wp_ret (a : α) (Q : α → View → Prop) (v : View) :
    C.wp (.ret a) Q v = Q a v := rfl

theorem wp_op (o : Op) (k : Ret o → Prog Op Ret α) (Q : α → View → Prop) (v : View) :
    C.wp (.op o k) Q v = (C.pre o v ∧ ∀ r v', C.post o v r v' → C.wp (k r) Q v') := rfl

theorem wp_perform (o : Op) (Q : Ret o → View → Prop) (v : View) :
    C.wp (.perform o) Q v = (C.pre o v ∧ ∀ r v', C.post o v r v' → Q r v') := rfl

/-- One operation at the front of a program. -/
theorem wp_act {o : Op} {k : Ret o → Prog Op Ret α} {Q : α → View → Prop} {v : View}
    (pre : C.pre o v) (next : ∀ r v', C.post o v r v' → C.wp (k r) Q v') :
    C.wp ((Prog.perform o).bind k) Q v := ⟨pre, next⟩

theorem wp_bind (p : Prog Op Ret α) (f : α → Prog Op Ret β) (Q : β → View → Prop) (v : View) :
    C.wp (p.bind f) Q v ↔ C.wp p (fun a v' => C.wp (f a) Q v') v := by
  induction p generalizing v with
  | ret a => rfl
  | op o k ih =>
    simp only [Prog.op_bind, wp_op]
    exact and_congr_right fun _ => forall_congr' fun r => forall_congr' fun v' =>
      imp_congr_right fun _ => ih r v'

theorem wp_mono {p : Prog Op Ret α} {Q R : α → View → Prop} {v : View}
    (h : C.wp p Q v) (hQR : ∀ a v', Q a v' → R a v') : C.wp p R v := by
  induction p generalizing v with
  | ret a => exact hQR a v h
  | op o k ih => exact ⟨h.1, fun r v' hp => ih r (h.2 r v' hp)⟩

/-- A callee's contract is used at a call by framing the caller's continuation over it. -/
theorem wp_call {p : Prog Op Ret α} {f : α → Prog Op Ret β} {Q : β → View → Prop}
    {R : α → View → Prop} {v : View} (h : C.wp p R v)
    (hf : ∀ a v', R a v' → C.wp (f a) Q v') : C.wp (p.bind f) Q v :=
  (C.wp_bind p f Q v).mpr (C.wp_mono h hf)

/-- Operations without effect on a view make programs without effect on it. -/
theorem wp_of_uses_at {I : Op → Prop} {v : View}
    (quiet : ∀ o, I o → C.pre o v ∧ ∀ r v', C.post o v r v' → v' = v) {p : Prog Op Ret α}
    (h : p.Uses I) : C.wp p (fun _ v' => v' = v) v := by
  induction p with
  | ret a => exact rfl
  | op o k ih =>
    refine ⟨(quiet o h.1).1, fun r v' hv => ?_⟩
    rw [(quiet o h.1).2 r v' hv]
    exact ih r (h.2 r)

theorem wp_of_uses {I : Op → Prop}
    (quiet : ∀ o v, I o → C.pre o v ∧ ∀ r v', C.post o v r v' → v' = v) {p : Prog Op Ret α}
    (h : p.Uses I) (v : View) : C.wp p (fun _ v' => v' = v) v :=
  C.wp_of_uses_at (fun o => quiet o v) h

end Contract

end Lcw.Interleave
