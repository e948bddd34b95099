/- digest: A completion service: a job that was posted ends in one notice, handed out in order. -/

import Lcw.Interleave.Simulation

set_option autoImplicit false
set_option relaxedAutoImplicit false

namespace Lcw.Interleave

open Function (update)

/-- The terms of a service: the completion object a job names, which notice a status may lead to,
and which completion objects keep their notices until they are taken. -/
structure Service where
  Job : Type
  Comp : Type
  Status : Type
  Notice : Type
  [decJob : DecidableEq Job]
  [decComp : DecidableEq Comp]
  names : Job → Option Comp
  reports : Job → Status → Notice → Prop
  keeps : Comp → Bool

attribute [instance] Service.decJob Service.decComp

namespace Service

variable (M : Service)

inductive Phase
  | unposted
  | pending
  | finished (st : M.Status)
  | told

variable {M} in
def Phase.isTold : M.Phase → Bool
  | .told => true
  | _ => false

/-- The phase of every job, and the notices that wait to be taken. -/
structure Desk where
  phase : M.Job → M.Phase
  waiting : M.Comp → List M.Notice

inductive Act
  | post (j : M.Job)
  | tell (j : M.Job) (c : M.Comp) (n : M.Notice)
  | take (c : M.Comp) (n : M.Notice)
  | nothing (c : M.Comp)

/-- Before the first post. -/
def idle : M.Desk := ⟨fun _ => .unposted, fun _ => []⟩

variable {M}

namespace Desk

variable (d : M.Desk)

def setPhase (j : M.Job) (x : M.Phase) : M.Desk := { d with phase := update d.phase j x }

/-- A notice is given to a completion object, which may keep it. -/
def tell (j : M.Job) (c : M.Comp) (n : M.Notice) : M.Desk where
  phase := update d.phase j .told
  waiting := if M.keeps c then update d.waiting c (d.waiting c ++ [n]) else d.waiting

def take (c : M.Comp) (rest : List M.Notice) : M.Desk :=
  { d with waiting := update d.waiting c rest }

end Desk

/-- A job is posted once and, after it has finished, told once to what it names. -/
inductive Visible (d : M.Desk) : M.Act → M.Desk → Prop
  | post (j : M.Job) (fresh : d.phase j = .unposted) : Visible d (.post j) (d.setPhase j .pending)
  | tell (j : M.Job) (c : M.Comp) (n : M.Notice) (st : M.Status)
      (done : d.phase j = .finished st) (named : M.names j = some c)
      (fits : M.reports j st n) : Visible d (.tell j c n) (d.tell j c n)
  | take (c : M.Comp) (n : M.Notice) (rest : List M.Notice) (front : d.waiting c = n :: rest) :
      Visible d (.take c n) (d.take c rest)
  | nothing (c : M.Comp) (empty : d.waiting c = []) : Visible d (.nothing c) d

/-- A job finishes unseen. -/
inductive Silent (d : M.Desk) : M.Desk → Prop
  | finish (j : M.Job) (st : M.Status) (pending : d.phase j = .pending) :
      Silent d (d.setPhase j (.finished st))

variable (M) in
/-- The service as a specification. -/
def spec : Spec where
  State := M.Desk
  Act := M.Act
  visible := Visible
  silent := Silent

section History

/-- The notice of a completion object in an action. -/
def Act.told (c : M.Comp) : M.Act → Option M.Notice
  | .tell _ c' n => if c' = c then some n else none
  | _ => none

def Act.taken (c : M.Comp) : M.Act → Option M.Notice
  | .take c' n => if c' = c then some n else none
  | _ => none

/-- The job an action tells of. -/
def Act.job : M.Act → Option M.Job
  | .tell j .. => some j
  | _ => none

/-- The notices a completion object was given, in order. -/
def tells (c : M.Comp) (as : List M.Act) : List M.Notice := as.filterMap (Act.told c)

/-- The notices that were taken from a completion object, in order. -/
def takes (c : M.Comp) (as : List M.Act) : List M.Notice := as.filterMap (Act.taken c)

/-- How often a job was told of. -/
def mentions (j : M.Job) (as : List M.Act) : Nat := as.countP fun a => a.job = some j

variable {as : List M.Act} {a : M.Act} {c : M.Comp} {j : M.Job}

theorem tells_snoc : tells c (as ++ [a]) = tells c as ++ (a.told c).toList := by
  cases e : a.told c <;> simp [tells, e]

theorem takes_snoc : takes c (as ++ [a]) = takes c as ++ (a.taken c).toList := by
  cases e : a.taken c <;> simp [takes, e]

theorem mentions_snoc : mentions j (as ++ [a]) =
    mentions j as + if a.job = some j then 1 else 0 := by
  simp [mentions, List.countP_append]

/-- What the desk holds is what the history left there. -/
structure Kept (as : List M.Act) (d : M.Desk) : Prop where
  posted : ∀ j, d.phase j ≠ .unposted → .post j ∈ as
  mentions : ∀ j, mentions j as = if (d.phase j).isTold then 1 else 0
  fifo : ∀ c, if M.keeps c then tells c as = takes c as ++ d.waiting c
    else takes c as = [] ∧ d.waiting c = []

theorem Kept.idle : Kept [] M.idle where
  posted _ h := absurd rfl h
  mentions _ := rfl
  fifo c := by
    split
    · rfl
    · exact ⟨rfl, rfl⟩

variable {d d' : M.Desk}

/-- A job passes to another phase without being told of. -/
theorem Kept.setPhase {x : M.Phase} (h : Kept as d) (j : M.Job)
    (early : (d.phase j).isTold = false) (untold : x.isTold = false) (here : .post j ∈ as) :
    Kept as (d.setPhase j x) where
  posted k hk := by
    by_cases e : k = j
    · subst e
      exact here
    · exact h.posted k fun none => hk ((Function.update_of_ne e _ _).trans none)
  mentions k := by
    by_cases e : k = j
    · subst e
      have now : (d.setPhase k x).phase k = x := Function.update_self ..
      rw [now, h.mentions k, early, untold]
    · have now : (d.setPhase j x).phase k = d.phase k := Function.update_of_ne e ..
      rw [now]
      exact h.mentions k
  fifo := h.fifo

/-- An action that tells, hands out and posts nothing. -/
theorem Kept.add (h : Kept as d) (job : a.job = none) (told : ∀ c, a.told c = none)
    (taken : ∀ c, a.taken c = none) : Kept (as ++ [a]) d where
  posted j hj := List.mem_append_left _ (h.posted j hj)
  mentions j := by
    rw [mentions_snoc, job, if_neg (by simp), Nat.add_zero]
    exact h.mentions j
  fifo c := by
    rw [tells_snoc, takes_snoc, told, taken, Option.toList_none, List.append_nil, List.append_nil]
    exact h.fifo c

theorem Kept.visible (h : Kept as d) (step : Visible d a d') : Kept (as ++ [a]) d' := by
  cases step with
  | post j fresh =>
    refine (h.add (a := .post j) rfl (fun _ => rfl) fun _ => rfl).setPhase j ?_ ?_ ?_
    · rw [fresh]
      rfl
    · rfl
    · exact List.mem_append_right _ (List.mem_singleton_self _)
  | tell j c n st done named fits =>
    refine ⟨fun k hk => List.mem_append_left _ (h.posted k ?_), fun k => ?_, fun c' => ?_⟩
    · by_cases e : k = j
      · simp [e, done]
      · exact fun none => hk ((Function.update_of_ne e _ _).trans none)
    · rw [mentions_snoc]
      by_cases e : k = j
      · subst e
        have now : (d.tell k c n).phase k = .told := Function.update_self ..
        rw [now, h.mentions k, done, Act.job, if_pos rfl]
        rfl
      · have now : (d.tell j c n).phase k = d.phase k := Function.update_of_ne e ..
        have other : ¬ (Act.tell j c n).job = some k := fun same => e (Option.some.inj same).symm
        rw [now, if_neg other, Nat.add_zero]
        exact h.mentions k
    · have before := h.fifo c'
      rw [tells_snoc, takes_snoc]
      by_cases e : c = c'
      · subst e
        simp only [Act.told, Act.taken, if_true, Option.toList_none, Option.toList_some,
          List.append_nil, Desk.tell]
        split at before
        · rename_i keeps
          rw [if_pos keeps, if_pos keeps, Function.update_self, before, List.append_assoc]
        · rename_i keeps
          rw [if_neg keeps, if_neg keeps]
          exact before
      · have still : (d.tell j c n).waiting c' = d.waiting c' := by
          unfold Desk.tell
          dsimp only
          split
          · exact Function.update_of_ne (Ne.symm e) ..
          · rfl
        simp only [Act.told, Act.taken, if_neg e, Option.toList_none, List.append_nil, still]
        exact before
  | take c n rest front =>
    refine ⟨fun k hk => List.mem_append_left _ (h.posted k hk), fun k => ?_, fun c' => ?_⟩
    · have silent : (Act.take c n : M.Act).job = none := rfl
      rw [mentions_snoc, silent, if_neg (by simp), Nat.add_zero]
      exact h.mentions k
    · have before := h.fifo c'
      rw [tells_snoc, takes_snoc]
      by_cases e : c = c'
      · subst e
        simp only [Act.told, Act.taken, if_true, Option.toList_none, Option.toList_some,
          List.append_nil, Desk.take, Function.update_self]
        split at before
        · rename_i keeps
          rw [if_pos keeps, before, front, List.append_assoc]
          rfl
        · rename_i keeps
          rw [before.2] at front
          cases front
      · have still : (d.take c rest).waiting c' = d.waiting c' :=
          Function.update_of_ne (Ne.symm e) ..
        simp only [Act.told, Act.taken, if_neg e, Option.toList_none, List.append_nil, still]
        exact before
  | nothing c empty => exact h.add rfl (fun _ => rfl) fun _ => rfl

theorem Kept.of_runs (h : M.spec.Runs M.idle as d) : Kept as d := by
  refine h.invariant (I := fun as d => Kept as d) .idle (fun as d a d' kept step => ?_)
    fun as d d' kept step => ?_
  · exact kept.visible step
  · obtain ⟨j, st, pending⟩ := step
    have posted : d.phase j ≠ .unposted := by simp [pending]
    exact kept.setPhase j (by rw [pending]; rfl) rfl (kept.posted j posted)

/-- What a client of the service sees: one notice a job, after its post, given to the completion
object it names; notices are taken in the order they were given, and none is held back. -/
structure Served (as : List M.Act) : Prop where
  once : ∀ j, mentions j as ≤ 1
  own : ∀ pre post j c n, as = pre ++ .tell j c n :: post →
    .post j ∈ pre ∧ M.names j = some c ∧ ∃ st, M.reports j st n
  inOrder : ∀ c, takes c as <+: tells c as
  drained : ∀ pre post c, M.keeps c = true → as = pre ++ .nothing c :: post →
    takes c pre = tells c pre

/-- Every run of the service serves its client. -/
theorem served (h : M.spec.Runs M.idle as d) : Served as := by
  have kept := Kept.of_runs h
  refine ⟨fun j => ?_, fun pre post j c n cut => ?_, fun c => ?_, fun pre post c keeps cut => ?_⟩
  · rw [kept.mentions j]
    split
    · exact Nat.le_refl 1
    · exact Nat.zero_le 1
  · obtain ⟨m, m', before, step⟩ := h.split cut
    cases step with
    | tell j c n st done named fits =>
      exact ⟨(Kept.of_runs before).posted j (by simp [done]), named, st, fits⟩
  · have fifo := kept.fifo c
    split at fifo
    · exact ⟨d.waiting c, fifo.symm⟩
    · rw [fifo.1]
      exact List.nil_prefix
  · obtain ⟨m, m', before, step⟩ := h.split cut
    have fifo := (Kept.of_runs before).fifo c
    rw [if_pos keeps] at fifo
    cases step with
    | nothing c empty => rw [fifo, empty, List.append_nil]

end History

end Service

end Lcw.Interleave
