/- digest: The table of spinlock operations, what replaces it, and the locks it made. -/

import Lcw.Interleave.Run
import Mathlib.Logic.Function.Basic

set_option autoImplicit false
set_option relaxedAutoImplicit false

namespace Lcw.Util

open Function (update)
open Interleave

/-- A function that may stand in the table: one of `lcw::detail`, or one of the client's. -/
inductive Fn
  | pthreadSpinlockAlloc | pthreadSpinlockFree | pthreadSpinlockLock
  | pthreadSpinlockTrylock | pthreadSpinlockUnlock
  | client (n : Nat)
  deriving DecidableEq, Repr

/-- `custom_spinlock_op_t`. -/
structure CustomSpinlockOp where
  name : String := "Unknown"
  alloc : Option Fn := none
  free : Option Fn := none
  lock : Option Fn := none
  trylock : Option Fn := none
  unlock : Option Fn := none
  deriving DecidableEq, Repr

/-- The set that `custom_spinlock_init` installs. -/
def pthreadSpinlock : CustomSpinlockOp where
  name := "pthread_spinlock"
  alloc := some .pthreadSpinlockAlloc
  free := some .pthreadSpinlockFree
  lock := some .pthreadSpinlockLock
  trylock := some .pthreadSpinlockTrylock
  unlock := some .pthreadSpinlockUnlock

/-- The same operations, under whatever name. -/
def CustomSpinlockOp.Same (a b : CustomSpinlockOp) : Prop :=
  a.alloc = b.alloc ∧ a.free = b.free ∧ a.lock = b.lock ∧ a.trylock = b.trylock ∧
    a.unlock = b.unlock

instance (a b : CustomSpinlockOp) : Decidable (a.Same b) :=
  inferInstanceAs (Decidable (_ ∧ _))

theorem CustomSpinlockOp.Same.refl (a : CustomSpinlockOp) : a.Same a :=
  ⟨rfl, rfl, rfl, rfl, rfl⟩

theorem CustomSpinlockOp.Same.symm {a b : CustomSpinlockOp} (h : a.Same b) : b.Same a :=
  ⟨h.1.symm, h.2.1.symm, h.2.2.1.symm, h.2.2.2.1.symm, h.2.2.2.2.symm⟩

theorem CustomSpinlockOp.Same.trans {a b c : CustomSpinlockOp} (h : a.Same b) (g : b.Same c) :
    a.Same c :=
  ⟨h.1.trans g.1, h.2.1.trans g.2.1, h.2.2.1.trans g.2.2.1, h.2.2.2.1.trans g.2.2.2.1,
    h.2.2.2.2.trans g.2.2.2.2⟩

/-- `config_t`. -/
structure Config where
  forceDefaultSpinlock : Bool := false
  deriving DecidableEq, Repr

/-- A `spinlock_t`: the pointer `l`, with the set whose `alloc` returned it as history. -/
structure Spinlock where
  l : Nat
  creator : CustomSpinlockOp
  deriving DecidableEq, Repr

/-- The members of `spinlock_t` that use an existing lock. -/
inductive Method
  | lock | tryLock | unlock | destroy
  deriving DecidableEq, Repr

/-- The table's entry that a member calls. -/
def Method.entry (op : CustomSpinlockOp) : Method → Option Fn
  | .lock => op.lock
  | .tryLock => op.trylock
  | .unlock => op.unlock
  | .destroy => op.free

/-- A call on a lock: the set that carried it out and the set that made the lock. -/
structure Use where
  method : Method
  carrier : CustomSpinlockOp
  creator : CustomSpinlockOp
  deriving DecidableEq, Repr

/-- The globals of the library that matter to spinlocks, the live locks by the address of
their object, and what was done with locks so far. -/
structure Globals where
  setuped : Bool := false
  spinlockOp : CustomSpinlockOp := {}
  config : Config := {}
  backend : Bool := false
  locks : Nat → Option Spinlock := fun _ => none
  warnings : List String := []
  uses : List Use := []

/-- `custom_spinlock_setup`. -/
def customSpinlockSetup (op : CustomSpinlockOp) (g : Globals) : Globals :=
  { g with
    warnings := if g.setuped then g.warnings ++ [g.spinlockOp.name] else g.warnings
    setuped := true
    spinlockOp := op }

/-- `custom_spinlock_init`. -/
def customSpinlockInit (g : Globals) : Globals :=
  if !g.setuped || g.config.forceDefaultSpinlock then { g with spinlockOp := pthreadSpinlock }
  else g

/-- `init_env`; `p` is the integer value of `LCW_FORCE_PTHREAD_SPINLOCK` if it is set. -/
def initEnv (p : Option Int) (g : Globals) : Globals :=
  match p with
  | some n => { g with config := { g.config with forceDefaultSpinlock := n ≠ 0 } }
  | none => g

/-- `lcw::initialize`, which aborts when a backend exists. -/
def lcwInitialize (p : Option Int) (g : Globals) : Option Globals :=
  if g.backend then none
  else some { initEnv p (customSpinlockInit g) with backend := true }

/-- `lcw::finalize`, which asserts that a backend exists. -/
def lcwFinalize (g : Globals) : Option Globals :=
  if g.backend then some { g with backend := false } else none

/-- `spinlock_t::spinlock_t` at address `x`, where `alloc` returns `l`. A null `alloc` crashes. -/
def construct (x l : Nat) (g : Globals) : Option Globals :=
  if (g.locks x).isSome || g.spinlockOp.alloc.isNone then none
  else some { g with locks := update g.locks x (some ⟨l, g.spinlockOp⟩) }

/-- A member of the lock at address `x`, carried out by whatever the table holds now. -/
def call (x : Nat) (m : Method) (g : Globals) : Option Globals := do
  let lock ← g.locks x
  let _ ← m.entry g.spinlockOp
  return { g with
    uses := g.uses ++ [⟨m, g.spinlockOp, lock.creator⟩]
    locks := if m = .destroy then update g.locks x none else g.locks }

/-- What clients and backends do with the table and with locks, on any thread. -/
inductive Action
  | setup (op : CustomSpinlockOp)
  | lcwInitialize (p : Option Int)
  | lcwFinalize
  | construct (x l : Nat)
  | call (x : Nat) (m : Method)
  deriving DecidableEq, Repr

def step (g : Globals) : Action → Option Globals
  | .setup op => some (customSpinlockSetup op g)
  | .lcwInitialize p => lcwInitialize p g
  | .lcwFinalize => lcwFinalize g
  | .construct x l => construct x l g
  | .call x m => call x m g

/-- Every call so far was carried out by the operations that made its lock. -/
def Consistent (g : Globals) : Prop := ∀ u ∈ g.uses, u.carrier.Same u.creator

/-- The table still holds the operations that made each live lock. -/
def Tied (g : Globals) : Prop :=
  ∀ x lock, g.locks x = some lock → g.spinlockOp.Same lock.creator

/-- The set an action puts into the table, if it is one that replaces it. -/
def replacement (g : Globals) : Action → Option CustomSpinlockOp
  | .setup op => some op
  | .lcwInitialize _ =>
    if !g.setuped || g.config.forceDefaultSpinlock then some pthreadSpinlock else none
  | _ => none

/-- No live lock sees the table change to other operations. -/
def Undisturbed (g : Globals) (a : Action) : Prop :=
  ∀ op, replacement g a = some op → (∃ x, (g.locks x).isSome) → op.Same g.spinlockOp

section Steps

variable {g g' : Globals} {a : Action}

/-- What one action does to the table, the locks and the history. -/
theorem step_cases (h : step g a = some g') :
    (g'.uses = g.uses ∧ g'.locks = g.locks ∧
      g'.spinlockOp = (replacement g a).getD g.spinlockOp) ∨
    (∃ x l, a = .construct x l ∧ g'.uses = g.uses ∧ g'.spinlockOp = g.spinlockOp ∧
      g'.locks = update g.locks x (some ⟨l, g.spinlockOp⟩)) ∨
    (∃ x m lock, a = .call x m ∧ g.locks x = some lock ∧ g'.spinlockOp = g.spinlockOp ∧
      g'.uses = g.uses ++ [⟨m, g.spinlockOp, lock.creator⟩] ∧
      g'.locks = if m = .destroy then update g.locks x none else g.locks) := by
  cases a with
  | setup op =>
    obtain rfl := Option.some.inj h
    exact .inl ⟨rfl, rfl, rfl⟩
  | lcwInitialize p =>
    simp only [step, lcwInitialize] at h
    split at h
    · cases h
    · obtain rfl := Option.some.inj h
      refine .inl ?_
      unfold customSpinlockInit replacement initEnv
      cases p <;> dsimp only <;> split <;> exact ⟨rfl, rfl, rfl⟩
  | lcwFinalize =>
    simp only [step, lcwFinalize] at h
    split at h
    · obtain rfl := Option.some.inj h
      exact .inl ⟨rfl, rfl, rfl⟩
    · cases h
  | construct x l =>
    simp only [step, construct] at h
    split at h
    · cases h
    · obtain rfl := Option.some.inj h
      exact .inr (.inl ⟨x, l, rfl, rfl, rfl, rfl⟩)
  | call x m =>
    obtain ⟨lock, here, rest⟩ := Option.bind_eq_some_iff.mp h
    obtain ⟨f, -, last⟩ := Option.bind_eq_some_iff.mp rest
    obtain rfl := Option.some.inj last
    exact .inr (.inr ⟨x, m, lock, rfl, here, rfl, rfl, rfl⟩)

theorem Tied.step (tied : Tied g) (quiet : Undisturbed g a) (h : Util.step g a = some g') :
    Tied g' := by
  intro y lock hy
  rcases step_cases h with ⟨-, locks, table⟩ | ⟨x, l, -, -, table, locks⟩ |
    ⟨x, m, used, -, -, table, -, locks⟩
  · rw [locks] at hy
    have old := tied y lock hy
    rw [table]
    cases e : replacement g a with
    | none => exact old
    | some op => exact (quiet op e ⟨y, by simp [hy]⟩).trans old
  · rw [locks] at hy
    rw [table]
    by_cases hx : y = x
    · subst hx
      rw [Function.update_self] at hy
      obtain rfl := Option.some.inj hy
      exact .refl _
    · rw [Function.update_of_ne hx] at hy
      exact tied y lock hy
  · rw [locks] at hy
    rw [table]
    split at hy
    · by_cases hx : y = x
      · rw [hx, Function.update_self] at hy
        cases hy
      · rw [Function.update_of_ne hx] at hy
        exact tied y lock hy
    · exact tied y lock hy

theorem Consistent.step (consistent : Consistent g) (tied : Tied g)
    (h : Util.step g a = some g') : Consistent g' := by
  intro u hu
  rcases step_cases h with ⟨uses, -, -⟩ | ⟨x, l, -, uses, -, -⟩ |
    ⟨x, m, lock, -, here, -, uses, -⟩
  · rw [uses] at hu
    exact consistent u hu
  · rw [uses] at hu
    exact consistent u hu
  · rw [uses, List.mem_append, List.mem_singleton] at hu
    rcases hu with hu | rfl
    · exact consistent u hu
    · exact tied x lock here

end Steps

/-- While the table changes only when no lock is alive, each lock is served by its makers. -/
theorem spinlock_calls_consistent {as : List Action} {g : Globals}
    (quiet : Guarded step Undisturbed {} as) (run : play step {} as = some g) :
    Consistent g ∧ Tied g := by
  have start : Consistent {} ∧ Tied {} := by
    refine ⟨fun u hu => ?_, fun x lock here => ?_⟩
    · cases hu
    · cases here
  refine play_invariant (I := fun g => Consistent g ∧ Tied g) quiet run start ?_
  intro s a s' inv ok h
  obtain ⟨consistent, tied⟩ := inv
  exact ⟨consistent.step tied h, tied.step ok h⟩

/-- A lock made, used and destroyed by the default set, before a client supplies its own. -/
theorem spinlock_calls_consistent_default :
    ∃ g, play step {} [.lcwInitialize none, .construct 0 0, .call 0 .lock, .call 0 .unlock,
      .call 0 .destroy, .lcwFinalize, .setup { alloc := some (.client 0) }] = some g ∧
      g.uses.length = 3 ∧ Consistent g ∧ Tied g := by
  obtain ⟨g, run, three⟩ : ∃ g, play step {} [.lcwInitialize none, .construct 0 0,
      .call 0 .lock, .call 0 .unlock, .call 0 .destroy, .lcwFinalize,
      .setup { alloc := some (.client 0) }] = some g ∧ g.uses.length = 3 := by
    simp [play, step, lcwInitialize, customSpinlockInit, initEnv, construct, call, lcwFinalize,
      pthreadSpinlock, Method.entry, customSpinlockSetup]
  refine ⟨g, run, three, spinlock_calls_consistent ?_ run⟩
  simp [Guarded, step, Undisturbed, replacement, lcwInitialize, customSpinlockInit, initEnv,
    construct, call, lcwFinalize, pthreadSpinlock, Method.entry]

/-- The default set locks a mutex that a client's first set, supplied later, then unlocks. -/
theorem first_setup_takes_over_live_lock :
    ¬ ∀ as g, play step {} as = some g → Consistent g := by
  let own : CustomSpinlockOp :=
    ⟨"own", some (.client 0), some (.client 1), some (.client 2), some (.client 3),
      some (.client 4)⟩
  intro claim
  have run : ∃ g, play step {} [.lcwInitialize none, .construct 0 0, .call 0 .lock, .setup own,
      .call 0 .unlock] = some g ∧ g.warnings = [] ∧
      ⟨.unlock, own, pthreadSpinlock⟩ ∈ g.uses := by
    simp [play, step, lcwInitialize, customSpinlockInit, initEnv, construct, call,
      pthreadSpinlock, Method.entry, customSpinlockSetup, own]
  obtain ⟨g, hg, -, used⟩ := run
  have same := claim _ g hg _ used
  exact absurd same (by decide)

/-- The table stays tied to the live locks exactly as long as it is left alone. -/
theorem tied_throughout_iff (as : List Action) :
    Throughout step Tied {} as ↔ Guarded step Undisturbed {} as := by
  constructor
  · intro tied
    refine guarded_of_throughout tied fun s a s' before after h op replaced alive => ?_
    obtain ⟨x, live⟩ := alive
    obtain ⟨lock, here⟩ := Option.isSome_iff_exists.mp live
    rcases step_cases h with ⟨-, locks, table⟩ | ⟨y, l, rfl, -⟩ | ⟨y, m, used, rfl, -⟩
    · have now := after x lock (locks ▸ here)
      rw [table, replaced] at now
      exact now.trans (before x lock here).symm
    · cases replaced
    · cases replaced
  · intro quiet
    exact throughout_invariant quiet (fun x lock h => nomatch h) fun s a s' tied ok h =>
      tied.step ok h

end Lcw.Util
