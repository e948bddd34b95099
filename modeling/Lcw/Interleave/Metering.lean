/- digest: Counting what happens during nested calls, apart from what their own code does. -/

import Mathlib.Data.Option.Basic
import Mathlib.Logic.Function.Basic

set_option autoImplicit false
set_option relaxedAutoImplicit false

namespace Lcw.Interleave

open Function (update)

/-- A call in progress, or code run for another reason when there is none: how many signals its
own code gave, and how many the code that ran inside it did. -/
structure Frame (C : Type) where
  call : Option C
  own : Nat
  inner : Nat
  deriving DecidableEq

/-- The frames of each thread, the innermost first, and the calls that have returned. -/
structure Frames (T C R : Type) where
  open' : T → List (Frame C)
  returned : List (Frame C × R)

section Metering

variable {T C R : Type}

def Frame.is (asks : C → Bool) (f : Frame C) : Bool := f.call.any asks

theorem Frame.is_iff {asks : C → Bool} {f : Frame C} :
    f.is asks ↔ ∃ c, f.call = some c ∧ asks c := by
  rw [Frame.is, Option.any_eq_true]

namespace Frames

def empty : Frames T C R := ⟨fun _ => [], []⟩

def count : List (Frame C) → List (Frame C)
  | [] => []
  | f :: rest => { f with own := f.own + 1 } :: rest.map fun f => { f with inner := f.inner + 1 }

variable [DecidableEq T] (g : Frames T C R) (t : T)

def enter (c : Option C) : Frames T C R :=
  { g with open' := update g.open' t (⟨c, 0, 0⟩ :: g.open' t) }

def leave : Frames T C R := { g with open' := update g.open' t (g.open' t).tail }

def signal : Frames T C R := { g with open' := update g.open' t (count (g.open' t)) }

def close (r : R) : Frames T C R :=
  { g.leave t with
    returned := match g.open' t with
      | f :: _ => g.returned ++ [(f, r)]
      | [] => g.returned }

end Frames

/-- The calls a thread is in, each with the signals of its own code. -/
abbrev Stack (C : Type) := List (Option C × Nat)

namespace Stack

def signalled : Stack C → Stack C
  | [] => []
  | (c, n) :: rest => (c, n + 1) :: rest

/-- The innermost call has signalled if it is one that answers. -/
def Covered (asks : C → Bool) (v : Stack C) : Prop :=
  ∀ c n rest, v = (some c, n) :: rest → asks c → 0 < n

end Stack

namespace Frames

variable (g : Frames T C R) (t u : T)

def stack : Stack C := (g.open' t).map fun f => (f.call, f.own)

variable {g t u} [DecidableEq T]

@[simp] theorem stack_enter (c : Option C) : (g.enter t c).stack t = (c, 0) :: g.stack t := by
  simp [stack, enter]

@[simp] theorem stack_leave : (g.leave t).stack t = (g.stack t).tail := by
  simp [stack, leave, List.map_tail]

@[simp] theorem stack_close (r : R) : (g.close t r).stack t = (g.stack t).tail := by
  simp [stack, close, leave, List.map_tail]

@[simp] theorem stack_signal : (g.signal t).stack t = (g.stack t).signalled := by
  simp only [stack, signal, Function.update_self]
  cases g.open' t with
  | nil => rfl
  | cons f rest => simp [count, Stack.signalled]

theorem stack_enter_other (h : u ≠ t) (c : Option C) : (g.enter t c).stack u = g.stack u := by
  simp [stack, enter, h]

theorem stack_leave_other (h : u ≠ t) : (g.leave t).stack u = g.stack u := by
  simp [stack, leave, h]

theorem stack_close_other (h : u ≠ t) (r : R) : (g.close t r).stack u = g.stack u := by
  simp [stack, close, leave, h]

theorem stack_signal_other (h : u ≠ t) : (g.signal t).stack u = g.stack u := by
  simp [stack, signal, h]

end Frames

/-- The answer of a call tells whether anything was signalled during it. -/
def Tells (answer : R → Option Bool) (f : Frame C) (r : R) : Prop :=
  ∃ b, answer r = some b ∧ (b = true ↔ 0 < f.own + f.inner)

variable (asks : C → Bool) (answer : R → Option Bool)

/-- Every call that answers has told whether anything was signalled during it. -/
def AllTell (g : Frames T C R) : Prop := ∀ e ∈ g.returned, e.1.is asks → Tells answer e.1 e.2

/-- Exactly those calls told it in which nothing was signalled, or something by their own code. -/
def TellUnlessInner (g : Frames T C R) : Prop :=
  ∀ e ∈ g.returned, e.1.is asks → (Tells answer e.1 e.2 ↔ e.1.inner = 0 ∨ 0 < e.1.own)

/-- Calls answer for their own code; in quiet runs, nothing happens in a call that answers before
its own code has signalled. -/
structure Metered (quiet : Prop) (g : Frames T C R) : Prop where
  own : ∀ e ∈ g.returned, e.1.is asks → ∃ b, answer e.2 = some b ∧ (b = true ↔ 0 < e.1.own)
  settled : quiet → ∀ e ∈ g.returned, e.1.is asks → 0 < e.1.inner → 0 < e.1.own
  covered : quiet → ∀ t, ∀ f ∈ (g.open' t).tail, f.is asks → 0 < f.own
  inner : quiet → ∀ t, ∀ f ∈ g.open' t, f.is asks → 0 < f.inner → 0 < f.own

namespace Metered

variable {asks : C → Bool} {answer : R → Option Bool} {quiet : Prop} {g : Frames T C R} {t : T}

theorem empty : Metered asks answer quiet (Frames.empty : Frames T C R) where
  own _ he := by cases he
  settled _ _ he := by cases he
  covered _ _ _ hf := by cases hf
  inner _ _ _ hf := by cases hf

/-- The answer is right unless something was signalled inside the call and not by it. -/
theorem tell_unless_inner (h : Metered asks answer quiet g) : TellUnlessInner asks answer g := by
  intro e he is
  obtain ⟨b, hb, told⟩ := h.own e he is
  constructor
  · rintro ⟨b', hb', told'⟩
    obtain rfl := Option.some.inj (hb.symm.trans hb')
    by_cases own : 0 < e.1.own
    · exact .inr own
    · have nothing : ¬ 0 < e.1.own + e.1.inner := fun all => own (told.mp (told'.mpr all))
      exact .inl (by omega)
  · intro alone
    refine ⟨b, hb, told.trans ⟨fun own => by omega, fun all => ?_⟩⟩
    omega

theorem all_tell (h : Metered asks answer quiet g) (still : quiet) : AllTell asks answer g := by
  intro e he is
  refine (h.tell_unless_inner e he is).mpr ?_
  have own := h.settled still e he is
  omega

variable [DecidableEq T]

/-- The frames of one thread change. -/
theorem frames (h : Metered asks answer quiet g) {fs : List (Frame C)} {g' : Frames T C R}
    (open' : g'.open' = update g.open' t fs) (returned : g'.returned = g.returned)
    (covered : quiet → ∀ f ∈ fs.tail, f.is asks → 0 < f.own)
    (inner : quiet → ∀ f ∈ fs, f.is asks → 0 < f.inner → 0 < f.own) :
    Metered asks answer quiet g' where
  own e he := by
    rw [returned] at he
    exact h.own e he
  settled q e he := by
    rw [returned] at he
    exact h.settled q e he
  covered q u f hf := by
    rw [open'] at hf
    by_cases same : u = t
    · subst same
      rw [Function.update_self] at hf
      exact covered q f hf
    · rw [Function.update_of_ne same] at hf
      exact h.covered q u f hf
  inner q u f hf := by
    rw [open'] at hf
    by_cases same : u = t
    · subst same
      rw [Function.update_self] at hf
      exact inner q f hf
    · rw [Function.update_of_ne same] at hf
      exact h.inner q u f hf

theorem leave (h : Metered asks answer quiet g) : Metered asks answer quiet (g.leave t) :=
  h.frames rfl rfl (fun q f hf => h.covered q t f (List.mem_of_mem_tail hf))
    fun q f hf => h.inner q t f (List.mem_of_mem_tail hf)

theorem signal (h : Metered asks answer quiet g) : Metered asks answer quiet (g.signal t) := by
  have below (q : quiet) : ∀ f ∈ (Frames.count (g.open' t)).tail, f.is asks → 0 < f.own := by
    intro f hf is
    cases e : g.open' t with
    | nil =>
      rw [e] at hf
      cases hf
    | cons top rest =>
      rw [e] at hf
      obtain ⟨f', hf', rfl⟩ := List.mem_map.mp hf
      exact h.covered q t f' (by rw [e]; exact hf') is
  refine h.frames rfl rfl below fun q f hf is _ => ?_
  cases e : g.open' t with
  | nil =>
    rw [e] at hf
    cases hf
  | cons top rest =>
    rw [e] at hf below
    rcases List.mem_cons.mp hf with rfl | hf
    · exact Nat.succ_pos _
    · exact below q f hf is

/-- Code is entered where the innermost call has signalled if it is one that answers. -/
theorem enter (h : Metered asks answer quiet g) (c : Option C)
    (top : quiet → (g.stack t).Covered asks) : Metered asks answer quiet (g.enter t c) := by
  refine h.frames rfl rfl (fun q f hf is => ?_) fun q f hf is pos => ?_
  · cases e : g.open' t with
    | nil =>
      rw [List.tail_cons, e] at hf
      cases hf
    | cons f' rest =>
      rw [List.tail_cons, e] at hf
      rcases List.mem_cons.mp hf with rfl | hf
      · obtain ⟨c', hc, is⟩ := Frame.is_iff.mp is
        exact top q c' f.own (rest.map fun f => (f.call, f.own))
          (by simp [Frames.stack, e, hc]) is
      · exact h.covered q t f (by rw [e]; exact hf) is
  · rcases List.mem_cons.mp hf with rfl | hf
    · exact absurd pos (Nat.lt_irrefl 0)
    · exact h.inner q t f hf is pos

/-- A call returns with the right answer for its own code. -/
theorem close (h : Metered asks answer quiet g) (r : R)
    (right : ∀ c n rest, g.stack t = (some c, n) :: rest → asks c →
      ∃ b, answer r = some b ∧ (b = true ↔ 0 < n)) :
    Metered asks answer quiet (g.close t r) := by
  have left := h.leave (t := t)
  have members : ∀ e ∈ (g.close t r).returned,
      e ∈ g.returned ∨ ∃ f rest, g.open' t = f :: rest ∧ e = (f, r) := by
    intro e he
    cases top : g.open' t with
    | nil =>
      simp only [Frames.close, top] at he
      exact .inl he
    | cons f rest =>
      simp only [Frames.close, top, List.mem_append, List.mem_singleton] at he
      exact he.imp id fun same => ⟨f, rest, rfl, same⟩
  refine ⟨fun e he is => ?_, fun q e he is pos => ?_, left.covered, left.inner⟩
  · rcases members e he with old | ⟨f, rest, top, rfl⟩
    · exact h.own e old is
    · obtain ⟨c, hc, is⟩ := Frame.is_iff.mp is
      have called : f.call = some c := hc
      exact right c f.own (rest.map fun f => (f.call, f.own))
        (by simp [Frames.stack, top, called]) is
  · rcases members e he with old | ⟨f, rest, top, rfl⟩
    · exact h.settled q e old is pos
    · exact h.inner q t f (by rw [top]; exact List.mem_cons_self) is pos

end Metered

end Metering

end Lcw.Interleave
