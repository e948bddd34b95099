/- digest: Which set of spinlock operations each start of the library uses. -/

import Lcw.Util.Spinlock

set_option autoImplicit false
set_option relaxedAutoImplicit false

namespace Lcw.Util

open Interleave

/-- The variable's integer value is non-zero. -/
def forced : Option Int → Bool
  | some n => n ≠ 0
  | none => false

section History

/-- The custom set supplied last, from the actions so far, the latest first. -/
def lastCustom : List Action → Option CustomSpinlockOp
  | [] => none
  | .setup op :: _ => some op
  | _ :: as => lastCustom as

/-- The latest start at which the variable was set found it non-zero. -/
def leftForced : List Action → Bool
  | [] => false
  | .lcwInitialize (some n) :: _ => n ≠ 0
  | _ :: as => leftForced as

/-- A start since the custom set was supplied came after one that left the default forced. -/
def overwritten : List Action → Bool
  | [] => false
  | .setup _ :: _ => false
  | .lcwInitialize _ :: as => leftForced as || overwritten as
  | _ :: as => overwritten as

/-- The set that a start with this value of the variable should use. -/
def expected (as : List Action) (p : Option Int) : CustomSpinlockOp :=
  if forced p then pthreadSpinlock else (lastCustom as).getD pthreadSpinlock

/-- The earlier starts leave the default in force when the variable asks for it, and only then,
as far as it matters. -/
def Selects (as : List Action) (p : Option Int) : Prop :=
  ∀ op, lastCustom as = some op → op ≠ pthreadSpinlock →
    forced p = (leftForced as || overwritten as)

/-- What the globals remember of the actions so far. -/
structure Remembers (g : Globals) (as : List Action) : Prop where
  setuped : g.setuped = (lastCustom as).isSome
  force : g.config.forceDefaultSpinlock = leftForced as
  table : ∀ op, lastCustom as = some op →
    g.spinlockOp = if overwritten as then pthreadSpinlock else op

theorem Remembers.start : Remembers {} [] where
  setuped := rfl
  force := rfl
  table _ h := by cases h

variable {g g' : Globals} {as : List Action} {p : Option Int}

/-- The set in force after `custom_spinlock_init`. -/
theorem Remembers.init (h : Remembers g as) (init : lcwInitialize p g = some g') :
    g'.spinlockOp = (lastCustom as).elim pthreadSpinlock fun op =>
      if leftForced as || overwritten as then pthreadSpinlock else op := by
  unfold lcwInitialize at init
  split at init
  · cases init
  · obtain rfl := Option.some.inj init
    have same : ({ initEnv p (customSpinlockInit g) with backend := true } : Globals).spinlockOp =
        (customSpinlockInit g).spinlockOp := by
      unfold initEnv
      cases p <;> rfl
    rw [same]
    unfold customSpinlockInit
    rw [h.setuped, h.force]
    cases custom : lastCustom as with
    | none => rfl
    | some op =>
      have table := h.table op custom
      cases leftForced as with
      | true => rfl
      | false => exact table

theorem Remembers.step {a : Action} (h : Remembers g as) (taken : Util.step g a = some g') :
    Remembers g' (a :: as) := by
  cases a with
  | setup op =>
    obtain rfl := Option.some.inj taken
    refine ⟨rfl, h.force, fun op' e => ?_⟩
    exact Option.some.inj e
  | lcwInitialize p =>
    have table := h.init taken
    simp only [Util.step, lcwInitialize] at taken
    split at taken
    · cases taken
    · obtain rfl := Option.some.inj taken
      have kept : (customSpinlockInit g).setuped = g.setuped ∧
          (customSpinlockInit g).config = g.config := by
        unfold customSpinlockInit
        split <;> exact ⟨rfl, rfl⟩
      refine ⟨?_, ?_, fun op e => ?_⟩
      · cases p <;> exact kept.1.trans h.setuped
      · cases p with
        | none => exact (congrArg Config.forceDefaultSpinlock kept.2).trans h.force
        | some n => rfl
      · have e : lastCustom as = some op := by cases p <;> exact e
        rw [table, e]
        cases p <;> rfl
  | lcwFinalize =>
    simp only [Util.step, lcwFinalize] at taken
    split at taken
    · obtain rfl := Option.some.inj taken
      exact ⟨h.setuped, h.force, h.table⟩
    · cases taken
  | construct x l =>
    simp only [Util.step, construct] at taken
    split at taken
    · cases taken
    · obtain rfl := Option.some.inj taken
      exact ⟨h.setuped, h.force, h.table⟩
  | call x m =>
    obtain ⟨lock, here, rest⟩ := Option.bind_eq_some_iff.mp taken
    obtain ⟨f, -, last⟩ := Option.bind_eq_some_iff.mp rest
    obtain rfl := Option.some.inj last
    exact ⟨h.setuped, h.force, h.table⟩

theorem Remembers.play {bs : List Action} (h : Remembers g as)
    (run : Interleave.play Util.step g bs = some g') : Remembers g' (bs.reverse ++ as) := by
  induction bs generalizing g as with
  | nil => exact Option.some.inj run ▸ h
  | cons b bs ih =>
    obtain ⟨m, taken, rest⟩ := play_cons.mp run
    rw [List.reverse_cons, List.append_assoc]
    exact ih (h.step taken) rest

end History

/-- A start uses the set it should exactly when the flag that earlier starts left behind, and
what they did to the table, agree with the variable. -/
theorem selection_iff {as : List Action} {g g' : Globals} {p : Option Int}
    (run : play step {} as = some g) (init : lcwInitialize p g = some g') :
    g'.spinlockOp = expected as.reverse p ↔ Selects as.reverse p := by
  have remembers : Remembers g as.reverse := by
    have all := Remembers.start.play run
    rwa [List.append_nil] at all
  rw [remembers.init init]
  unfold expected Selects
  cases custom : lastCustom as.reverse with
  | none => simp
  | some op =>
    simp only [Option.elim_some, Option.getD_some, Option.some.injEq]
    generalize (leftForced as.reverse || overwritten as.reverse) = masked
    constructor
    · rintro same op' rfl own
      cases force : forced p with
      | true =>
        cases masked with
        | true => rfl
        | false => exact absurd (by simpa [force] using same) own
      | false =>
        cases masked with
        | true => exact absurd (by simpa [force, eq_comm] using same) own
        | false => rfl
    · intro agrees
      by_cases own : op = pthreadSpinlock
      · simp [own]
      · rw [agrees op rfl own]

/-- A custom set is used by a start that finds the variable unset. -/
theorem selection_iff_unset : ∃ g g' : Globals, ∃ own : CustomSpinlockOp,
    play step {} [.setup own] = some g ∧ lcwInitialize none g = some g' ∧
      own ≠ pthreadSpinlock ∧ g'.spinlockOp = own := by
  let own : CustomSpinlockOp := { alloc := some (.client 0) }
  let g := customSpinlockSetup own {}
  have run : play step {} [.setup own] = some g := rfl
  obtain ⟨g', init⟩ : ∃ g', lcwInitialize none g = some g' := ⟨_, rfl⟩
  refine ⟨g, g', own, run, init, by decide, ?_⟩
  refine (selection_iff run init).mpr fun op custom _ => ?_
  cases custom
  rfl

/-- The first start ignores a variable that forces the default set. -/
theorem first_start_ignores_force : ¬ ∀ as g g' p, play step {} as = some g →
    lcwInitialize p g = some g' → g'.spinlockOp = expected as.reverse p := by
  intro claim
  let own : CustomSpinlockOp := { alloc := some (.client 0) }
  have same := claim [.setup own] _ _ (some 1) rfl rfl
  exact absurd same (by decide)

end Lcw.Util
