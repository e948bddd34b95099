/- digest: What `do_progress` returns on GASNet-EX, against the completions signalled during it. -/

import Lcw.Gex.Machine
import Lcw.Interleave.Discipline
import Lcw.Interleave.Metering
import Lcw.Interleave.Observe

set_option autoImplicit false
set_option relaxedAutoImplicit false

namespace Lcw.Gex

open Interleave
open Lcw.Mpi (OpCode Counter Rank Tid Byte toSize)

/-- The calls whose result says whether something was done. -/
def Call.asks : Call → Bool
  | .doProgress _ => true
  | _ => false

def CallResult.answer : CallResult → Option Bool
  | .progressed b => some b
  | _ => none

variable (cfg : Config)

/-- An onlooker that counts the completions signalled in each call; a handler is on its own until
it has signalled its message. -/
def meter : (system cfg).Observer where
  Record := Frames Tid Call CallResult
  exec (t : Tid) (o : Op) _ (g : Frames Tid Call CallResult) := match o with
    | .signal _ _ none => g.signal t
    | .signal _ _ (some _) => (g.signal t).leave t
    | .endCall r => g.close t r
    | _ => g
  intr (t : Tid) (i : Intr) (g : Frames Tid Call CallResult) := match i with
    | .call c => g.enter t (some c)
    | .deliver _ => g.enter t none

abbrev metered : System := (meter cfg).observed

def meteredStart : (metered cfg).State := (meter cfg).beside (start cfg) Frames.empty

/-- GASNet runs no handler in a `do_progress`. -/
def Undisturbed (s : (metered cfg).State) : (metered cfg).Event → Prop
  | .intr t (.deliver _) => Stack.Covered Call.asks (Frames.stack s.shared.2 t)
  | _ => True

variable {cfg}

/-- Operations that neither signal nor end a call, nor run code of the client. -/
def Op.silent : Op → Prop
  | .signal .. | .endCall _ | .userCode => False
  | _ => True

def progressContract (q : Prop) : Contract Op Op.Ret (Stack Call) where
  pre
    | .endCall r, v => ∃ c n rest, v = (some c, n) :: rest ∧
        (c.asks → ∃ b, r.answer = some b ∧ (b = true ↔ 0 < n))
    | .userCode, v => q → v.Covered Call.asks
    | .signal _ _ (some _), v => ∃ n rest, v = (none, n) :: rest
    | _, _ => True
  post
    | .signal _ _ none, v, _, v' => v' = v.signalled
    | .signal _ _ (some _), v, _, v' | .endCall _, v, _, v' => v' = v.tail
    | _, v, _, v' => v' = v

section Programs

variable {q : Prop} {isHandler : Comp → Bool}

theorem silent_quiet (o : Op) (v : Stack Call) (h : o.silent) : (progressContract q).pre o v ∧
    ∀ r v', (progressContract q).post o v r v' → v' = v := by
  cases o <;> first | exact h.elim | exact ⟨trivial, fun _ _ hv => hv⟩

theorem silent_stack {α : Type} {p : Code α} (h : p.Uses Op.silent) (v : Stack Call) :
    (progressContract q).wp p (fun _ v' => v' = v) v :=
  (progressContract q).wp_of_uses silent_quiet h v

theorem uses_act {o : Op} (h : o.silent) : Prog.Uses Op.silent (act o) := ⟨h, fun _ => trivial⟩

theorem uses_doProgress : doProgress.Uses Op.silent := Prog.uses_then trivial fun _ => trivial

theorem uses_allocDevice {c : Comp} : (allocDevice c).Uses Op.silent := by
  refine Prog.uses_then trivial fun d => Prog.uses_then trivial fun _ => ?_
  refine Prog.uses_then trivial fun n => Prog.uses_then trivial fun _ => ?_
  exact Prog.uses_then trivial fun _ => trivial

/-- Calls other than `put` signal nothing. -/
theorem uses_callBody {c : Call}
    (other : ∀ d rank buf length comp ctx, c ≠ .put d rank buf length comp ctx) :
    (callBody isHandler c).Uses Op.silent := by
  cases c with
  | put d rank buf length comp ctx => exact absurd rfl (other _ _ _ _ _ _)
  | pollCq c =>
    refine Prog.uses_then trivial fun _ => Prog.uses_then trivial fun q => ?_
    cases q with
    | none => trivial
    | some q => exact Prog.uses_then trivial fun _ => trivial
  | doProgress d =>
    refine Prog.uses_then trivial fun _ => ?_
    exact Prog.uses_bind uses_doProgress fun _ => trivial
  | barrier d =>
    exact Prog.uses_bind (Prog.uses_then trivial fun _ => uses_act trivial) fun _ => trivial
  | allocDevice n c => exact Prog.uses_bind uses_allocDevice fun _ => trivial
  | freeDevice d => exact Prog.uses_bind (uses_act trivial) fun _ => trivial

theorem put_stack {d : Dev} {rank : Int} {buf : Buffer} {length : Int} {comp : Comp} {ctx : Nat}
    {c : Call} {rest : Stack Call} (other : c.asks = false) :
    (progressContract q).wp (put isHandler d rank buf length comp ctx)
      (fun _ v => v = (some c, 1) :: rest) ((some c, 0) :: rest) := by
  refine (progressContract q).wp_act trivial fun id v hv => ?_
  rw [show v = _ from hv]
  refine (progressContract q).wp_act trivial fun _ v hv => ?_
  rw [show v = _ from hv]
  refine (progressContract q).wp_call (R := fun _ v => v = (some c, 1) :: rest) ?_
    fun _ _ hv => hv
  refine (progressContract q).wp_act trivial fun _ v hv => ?_
  rw [show v = (some c, 1) :: rest from hv]
  cases isHandler comp with
  | false => exact rfl
  | true =>
    refine ⟨fun _ c' n rest' top asks => ?_, fun _ _ hu => hu⟩
    obtain ⟨own, -⟩ := List.cons.inj top
    obtain ⟨called, -⟩ := Prod.mk.inj own
    obtain rfl := Option.some.inj called
    rw [other] at asks
    cases asks

/-- A call leaves the calls around it as they were. -/
theorem apiCall_stack (c : Call) (rest : Stack Call) :
    (progressContract q).wp (apiCall isHandler c) (fun _ v => v = rest)
      ((some c, 0) :: rest) := by
  cases hc : c with
  | put d rank buf length comp ctx =>
    refine (progressContract q).wp_call (R := fun _ v =>
      v = (some (.put d rank buf length comp ctx), 1) :: rest) ?_ fun r v hv => ?_
    · refine (progressContract q).wp_call (put_stack rfl) fun b v hv => ?_
      rw [hv]
      exact ⟨trivial, fun _ _ hu => hu⟩
    · rw [hv]
      exact ⟨⟨_, 1, rest, rfl, fun asks => by cases asks⟩, fun _ _ hu => hu⟩
  | doProgress d =>
    refine (progressContract q).wp_call (R := fun r v => r = .progressed false ∧
      v = (some (.doProgress d), 0) :: rest) ?_ fun r v hv => ?_
    · refine (progressContract q).wp_act trivial fun _ v hv => ?_
      rw [show v = _ from hv]
      exact (progressContract q).wp_act trivial fun _ v hv => ⟨rfl, hv⟩
    · obtain ⟨rfl, rfl⟩ := hv
      exact ⟨⟨_, 0, rest, rfl, fun _ => ⟨false, rfl, by simp⟩⟩, fun _ _ hu => hu⟩
  | _ =>
    rw [← hc]
    refine (progressContract q).wp_call (silent_stack (uses_callBody ?_) _) fun r v hv => ?_
    · rw [hc]
      exact fun _ _ _ _ _ _ => Call.noConfusion
    · rw [hv]
      refine ⟨⟨c, 0, rest, rfl, fun asks => ?_⟩, fun _ _ hu => hu⟩
      rw [hc] at asks
      cases asks

/-- A handler leaves the calls around it as they were. -/
theorem gexReqhandler_stack (m : Message) (rest : Stack Call) (top : q → rest.Covered Call.asks) :
    (progressContract q).wp (gexReqhandler isHandler m) (fun _ v => v = rest)
      ((none, 0) :: rest) := by
  refine (progressContract q).wp_act trivial fun b v hv => ?_
  rw [show v = _ from hv]
  cases b with
  | none => exact ⟨trivial, fun r => r.elim⟩
  | some b =>
    refine (progressContract q).wp_act trivial fun _ v hv => ?_
    rw [show v = _ from hv]
    refine (progressContract q).wp_act trivial fun d v hv => ?_
    rw [show v = _ from hv]
    refine (progressContract q).wp_act trivial fun _ v hv => ?_
    rw [show v = _ from hv]
    refine (progressContract q).wp_act trivial fun comp v hv => ?_
    rw [show v = _ from hv]
    refine (progressContract q).wp_act ⟨0, rest, rfl⟩ fun _ v hv => ?_
    rw [show v = rest from hv]
    cases isHandler comp with
    | false => exact rfl
    | true => exact ⟨top, fun _ _ hu => hu⟩

end Programs

section Metering

variable {q : Prop} {x y : World × Frames Tid Call CallResult} {t : Tid}

/-- The record of an operation follows the contract of its thread. -/
theorem exec_metered {o : Op} {r : o.Ret}
    (h : Metered Call.asks CallResult.answer q x.2)
    (pre : (progressContract q).pre o (x.2.stack t))
    (record : y.2 = (meter cfg).exec t o r x.2) :
    Metered Call.asks CallResult.answer q y.2 ∧
      (progressContract q).post o (x.2.stack t) r (y.2.stack t) ∧
      ∀ u, u ≠ t → y.2.stack u = x.2.stack u := by
  rw [record]
  cases o with
  | signal c request origin =>
    cases origin with
    | none => exact ⟨h.signal, Frames.stack_signal, fun u hu => Frames.stack_signal_other hu⟩
    | some m =>
      obtain ⟨n, rest, top⟩ := pre
      refine ⟨h.signal.leave, ?_, fun u hu => ?_⟩
      · simp only [meter, progressContract, Frames.stack_leave, Frames.stack_signal, top,
          Stack.signalled, List.tail_cons]
      · exact (Frames.stack_leave_other hu).trans (Frames.stack_signal_other hu)
  | endCall result =>
    obtain ⟨c, n, rest, top, told⟩ := pre
    refine ⟨h.close result fun c' n' rest' top' asks => ?_, Frames.stack_close result,
      fun u hu => Frames.stack_close_other hu result⟩
    obtain ⟨own, -⟩ := List.cons.inj (top.symm.trans top')
    obtain ⟨called, rfl⟩ := Prod.mk.inj own
    obtain rfl := Option.some.inj called
    exact told asks
  | _ => exact ⟨h, rfl, fun u _ => rfl⟩

theorem intr_metered {o : Op} {i : Intr} {p : Code Unit}
    (h : Metered Call.asks CallResult.answer q x.2)
    (pre : (progressContract q).pre o (x.2.stack t))
    (still : ∀ j, i = .deliver j → q → (x.2.stack t).Covered Call.asks)
    (hi : intr cfg t o i x.1 = some (p, y.1)) (record : y.2 = (meter cfg).intr t i x.2) :
    Metered Call.asks CallResult.answer q y.2 ∧
      (progressContract q).wp p (fun _ v => v = x.2.stack t) (y.2.stack t) ∧
      ∀ u, u ≠ t → y.2.stack u = x.2.stack u := by
  rw [record]
  cases i with
  | call c =>
    simp only [intr] at hi
    split at hi
    · rename_i may
      obtain ⟨rfl, -⟩ := Prod.mk.inj (Option.some.inj hi)
      obtain ⟨rfl, -⟩ := may
      refine ⟨h.enter (some c) pre, ?_, fun u hu => Frames.stack_enter_other hu _⟩
      simp only [meter, Frames.stack_enter]
      exact apiCall_stack c _
    · cases hi
  | deliver j =>
    obtain ⟨m, -, rest⟩ := Option.bind_eq_some_iff.mp hi
    split at rest
    · obtain ⟨rfl, -⟩ := Prod.mk.inj (Option.some.inj rest)
      refine ⟨h.enter none (still j rfl), ?_, fun u hu => Frames.stack_enter_other hu _⟩
      simp only [meter, Frames.stack_enter]
      exact gexReqhandler_stack m _ (still j rfl)
    · cases rest

/-- Threads signal by the contract in all runs, and outside of `do_progress` in undisturbed
ones. -/
def progressing (cfg : Config) (q : Prop) :
    Discipline (metered cfg) fun s e => q → Undisturbed cfg s e where
  View := Stack Call
  view t x := x.2.stack t
  inv x := Metered Call.asks CallResult.answer q x.2
  contract _ := progressContract q
  exec _ _ _ _ _ _ inv _ _ pre hx :=
    exec_metered inv pre (System.Observer.exec_some hx).2
  intr s t o k i p w inv ok _ pre hi := by
    obtain ⟨inner, record⟩ := System.Observer.intr_some hi
    refine intr_metered inv pre (fun j hi still => ?_) inner record
    subst hi
    exact ok still
  env _ _ _ inv _ he := by
    have record := (System.Observer.env_some he).2
    exact ⟨record ▸ inv, fun _ => by rw [record]⟩

theorem progressing_start (cfg : Config) (q : Prop) :
    (progressing cfg q).Holds (meteredStart cfg) :=
  ⟨Metered.empty, fun _ => ⟨fun _ _ _ _ top => (by cases top), fun _ _ _ => trivial⟩⟩

theorem metered_of_reach {s : (metered cfg).State}
    (h : System.Reach (fun s e => q → Undisturbed cfg s e) (meteredStart cfg) s) :
    Metered Call.asks CallResult.answer q s.shared.2 :=
  ((progressing cfg q).reach (progressing_start cfg q) h).1

end Metering

end Lcw.Gex
