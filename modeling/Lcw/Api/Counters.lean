/- digest: The performance counters as balances of operations and completions. -/

import Lcw.Mpi.Types
import Mathlib.Algebra.BigOperators.Group.List.Basic
import Mathlib.Algebra.Group.Pi.Basic
import Mathlib.Algebra.Ring.Int.Defs
import Mathlib.Data.List.Perm.Basic

set_option autoImplicit false
set_option relaxedAutoImplicit false

namespace Lcw.Api

open Function (update)
open Lcw.Mpi (OpCode Counter Rank)

/-- What the counters come in pairs for: the operations of each kind, and the completions. -/
inductive Law
  | op (k : OpCode)
  | comp
  deriving DecidableEq, Repr

abbrev Balance := Law → Int

/-- An operation of the client; incoming puts are not started by it. -/
def operation : OpCode → Balance
  | .putSignal => 0
  | k => Pi.single (.op k) 1

def completion : Balance := Pi.single .comp 1

/-- What one bump of a counter adds. -/
def gain : Counter → Balance
  | .sendStart => operation .send
  | .recvStart => operation .recv
  | .putStart => operation .put
  | .sendEnd => -operation .send
  | .recvEnd => -operation .recv
  | .putEnd => -operation .put
  | .compProduce => completion
  | .compConsume => -completion
  | _ => 0

/-- Started less ended operations, and produced less consumed completions. -/
def net (counters : Counter → Nat) : Balance
  | .op .send => (counters .sendStart : Int) - counters .sendEnd
  | .op .recv => (counters .recvStart : Int) - counters .recvEnd
  | .op .put => (counters .putStart : Int) - counters .putEnd
  | .op .putSignal => 0
  | .comp => (counters .compProduce : Int) - counters .compConsume

/-- Every started operation has ended. -/
def Conserved (counters : Counter → Nat) : Prop :=
  counters .sendStart = counters .sendEnd ∧ counters .recvStart = counters .recvEnd ∧
    counters .putStart = counters .putEnd

theorem net_zero : net (fun _ => 0) = 0 := by
  funext l
  cases l with
  | op k => cases k <;> rfl
  | comp => rfl

theorem net_bump (counters : Counter → Nat) (k : Counter) :
    net (update counters k (counters k + 1)) = net counters + gain k := by
  funext l
  cases k <;> cases l with
  | op k => cases k <;> simp [net, gain, operation, completion] <;> omega
  | comp => simp [net, gain, operation, completion] <;> omega

/-- The balances of all processes. -/
def nets (counters : Rank → Counter → Nat) : Rank → Balance := fun r => net (counters r)

theorem nets_zero : nets (fun _ _ => 0) = 0 := funext fun _ => net_zero

theorem nets_bump (counters : Rank → Counter → Nat) (r : Rank) (k : Counter) :
    nets (update counters r (update (counters r) k (counters r k + 1))) =
      nets counters + Pi.single r (gain k) := by
  funext u
  by_cases h : u = r
  · subst h
    simp [nets, net_bump]
  · simp [nets, h]

/-- What equal amounts at the places of a list come to, at one place. -/
theorem sum_single {α : Type} (l : List α) (place : α → Rank) (b : Balance) (r : Rank) (k : Law) :
    (l.map fun x => (Pi.single (place x) b : Rank → Balance)).sum r k =
      (l.countP fun x => place x = r) * b k := by
  induction l with
  | nil => simp
  | cons x l ih =>
    rw [List.map_cons, List.sum_cons, Pi.add_apply, Pi.add_apply, ih, List.countP_cons]
    by_cases h : place x = r
    · subst h
      simp [add_mul, add_comm]
    · simp [h, Ne.symm h]

theorem sum_operation (l : List OpCode) : (l.map operation).sum .comp = 0 ∧
    ∀ k, k ≠ .putSignal → (l.map operation).sum (.op k) = l.count k := by
  induction l with
  | nil => simp
  | cons x l ih =>
    simp only [List.map_cons, List.sum_cons, Pi.add_apply, List.count_cons]
    refine ⟨?_, fun k client => ?_⟩
    · rw [ih.1]
      cases x <;> simp [operation]
    · rw [ih.2 k client]
      cases x <;> cases k <;> simp [operation, add_comm] at client ⊢

/-- An entry that leaves a list takes its amount along. -/
theorem sum_eraseIdx {α A : Type} [AddCommGroup A] {l : List α} {i : Nat} {x : α} (f : α → A)
    (found : l[i]? = some x) : (l.map f).sum = f x + ((l.eraseIdx i).map f).sum := by
  obtain ⟨bound, rfl⟩ := List.getElem?_eq_some_iff.mp found
  have moved := (List.getElem_cons_eraseIdx_perm bound).map f
  rw [← moved.sum_eq, List.map_cons, List.sum_cons]

theorem conserved_iff {counters : Counter → Nat} :
    Conserved counters ↔ ∀ k, net counters (.op k) = 0 := by
  constructor
  · rintro ⟨send, recv, put⟩ k
    cases k <;> simp [net, send, recv, put]
  · intro zero
    have send := zero .send
    have recv := zero .recv
    have put := zero .put
    simp only [net] at send recv put
    exact ⟨by omega, by omega, by omega⟩

end Lcw.Api
