/- digest: What every function of the MPI backend counts, against the operations it moves. -/

import Lcw.Api.Counters
import Lcw.Interleave.Accounting
import Lcw.Mpi.Quiet
import Lcw.Mpi.Structure

set_option autoImplicit false
set_option relaxedAutoImplicit false

namespace Lcw.Mpi

open Interleave
open Api (Balance operation completion gain)

/-- The completion object of an entry is one of the process `r`. -/
def Entry.Home (home : Comp → Rank) (e : Entry) (r : Rank) : Prop :=
  ∀ c, e.completion = some c → home c = r

/-- The completion object a call names. -/
def Call.comp? : Call → Option Comp
  | .send _ _ _ _ _ c _ | .recv _ _ _ _ _ c _ | .put _ _ _ _ c _ | .allocDevice _ c => c
  | .pollCq c => some c
  | _ => none

/-- What every operation moves: an operation is owed while it is with no manager, a completion
while it is with no completion object. -/
def tariff (home : Comp → Rank) (t : Tid) : Tariff Op Op.Ret (Rank → Balance) where
  pre
    | .pushBack m e | .continue m e _ => m.rank = t.rank ∧ e.Home home m.rank
    | .popFront m => m.rank = t.rank
    | .writeSlot d e => e.Home home d.rank
    | .signal c _ _ | .cqPop c => home c = t.rank
    | _ => True
  info
    | .popFront m, e => Entry.Home home e m.rank
    | .readSlot d, e => Entry.Home home e d.rank ∧ (Entry.request e).posted.op = .putSignal ∧
        (Entry.request e).posted.device = d
    | .readRequest p, q => Request.op q = p.posted.op ∧ Request.device q = p.posted.device
    | .newRequest q _, p => RequestPtr.posted p = q
    | .readDevice d, dev => (Device.manager dev).rank = d.rank
    | .newDevice, d => Dev.rank d = t.rank
    | _, _ => True
  move
    | .pcounterAdd k, _ => Pi.single t.rank (gain k)
    | .pushBack _ e, _ | .continue _ e _, _ => -Pi.single t.rank (operation e.request.posted.op)
    | .popFront _, e => Pi.single t.rank (operation (Entry.request e).posted.op)
    | .signal .., _ => -Pi.single t.rank completion
    | .cqPop _, r => match (r : Option Request) with
      | some _ => Pi.single t.rank completion
      | none => 0
    | _, _ => 0

section Programs

variable {cfg : Config} {home : Comp → Rank} {t : Tid} {α β : Type} {x y : Rank → Balance}

theorem free_of_plain (o : Op) (h : o.plain) : (tariff home t).Free o := by
  cases o <;> first | exact h.elim | exact ⟨trivial, fun _ => rfl⟩

theorem adds_free {p : Code α} (h : p.Uses (tariff home t).Free) :
    (tariff home t).Adds p 0 := Tariff.adds_of_uses h

theorem adds_act {o : Op} (free : (tariff home t).Free o) :
    (tariff home t).Adds (act o) 0 := Tariff.adds_act free.1 free.2

theorem free_isend {a : Buffer} {n : Nat} {rank tag : Int} {comm : Comm} {p : RequestPtr} :
    (isend a n rank tag comm p).Uses (tariff home t).Free :=
  Prog.uses_bind (uses_describe free_of_plain n) fun _ =>
    Prog.uses_then ⟨trivial, fun _ => rfl⟩ (uses_safecall free_of_plain p)

theorem free_irecv {a : Buffer} {n : Nat} {rank tag : Int} {comm : Comm} {p : RequestPtr} :
    (irecv a n rank tag comm p).Uses (tariff home t).Free :=
  Prog.uses_bind (uses_describe free_of_plain n) fun _ =>
    Prog.uses_then ⟨trivial, fun _ => rfl⟩ (uses_safecall free_of_plain p)

/-- A stopped process settles everything. -/
theorem adds_assert_false {why : Failure} :
    (tariff home t).Adds (lcwAssert false why) x := fun _ => ⟨trivial, fun r => r.elim⟩

theorem adds_assert {c : Bool} {why : Failure} : (tariff home t).Adds (lcwAssert c why) 0 :=
  adds_free (uses_assert free_of_plain)

/-- Counting the end of an operation pays for it. -/
theorem adds_countCompletion {op : OpCode} {p : RequestPtr} :
    (tariff home t).Adds (countCompletion cfg op p) (-Pi.single t.rank (operation op)) := by
  have sub : (tariff home t).Adds (when (cfg.pendingMsgMax > 0) (act (.fetchSubPending p))) 0 :=
    adds_free (uses_when (uses_act (free_of_plain _ trivial)))
  have count {k : Counter} (h : gain k = -operation op) :
      (tariff home t).Adds (act (.pcounterAdd k)) (-Pi.single t.rank (operation op)) :=
    Tariff.adds_act trivial fun _ => by simp [tariff, h, Pi.single_neg]
  cases op with
  | send | put => exact Tariff.adds_bind sub fun _ => count rfl
  | recv => exact count rfl
  | putSignal => exact count (by simp [gain, operation])

/-- Telling the client of an operation pays for it. -/
theorem adds_signalComp {e : Entry} (own : e.Home home t.rank) :
    (tariff home t).Adds (signalComp cfg e)
      (-Pi.single t.rank (operation e.request.posted.op)) := by
  refine Tariff.adds_op trivial fun q info => ?_
  rw [show (tariff home t).move (.readRequest e.request) q = 0 from rfl, sub_zero, ← info.1]
  refine Tariff.adds_then adds_countCompletion (fun _ => ?_) (add_zero _)
  have produced : (tariff home t).Adds (act (.pcounterAdd .compProduce))
      (Pi.single t.rank completion) := Tariff.adds_act trivial fun _ => rfl
  refine Tariff.adds_then produced (fun _ => ?_) (add_neg_cancel _)
  refine Tariff.adds_then ?_ (fun _ => adds_act (free_of_plain _ trivial)) (add_zero _)
  unfold utilSignalComp
  cases named : e.completion with
  | none => exact adds_assert_false
  | some c =>
    refine Tariff.adds_then (Tariff.adds_act (own c named) fun _ => rfl) (fun _ => ?_) (add_zero _)
    exact adds_free (uses_when (uses_act ⟨trivial, fun _ => rfl⟩))

section Managers

variable {m : Manager}

theorem free_locks (m : Manager) : (tariff home t).Free (.tryLock (.manager m)) ∧
    (tariff home t).Free (.lock (.manager m)) ∧
      (tariff home t).Free (.unlock (.manager m)) :=
  ⟨⟨trivial, fun _ => rfl⟩, ⟨trivial, fun _ => rfl⟩, ⟨trivial, fun _ => rfl⟩⟩

/-- An operation that a manager takes is no longer owed. -/
theorem adds_addEntry {e : Entry} (rank : m.rank = t.rank) (own : e.Home home m.rank) :
    (tariff home t).Adds (addEntry cfg m e)
      (-Pi.single t.rank (operation e.request.posted.op)) := by
  unfold addEntry
  cases cfg.compType with
  | request =>
    refine Tariff.adds_bind (adds_act (free_locks m).2.1) fun _ => ?_
    refine Tariff.adds_then (Tariff.adds_act ⟨rank, own⟩ fun _ => rfl) (fun _ => ?_) (add_zero _)
    exact adds_act (free_locks m).2.2
  | «continue» =>
    refine Tariff.adds_bind (adds_free (uses_enter free_of_plain)) fun _ => ?_
    refine Tariff.adds_then (Tariff.adds_act ⟨rank, own⟩ fun _ => rfl) (fun _ => ?_) (add_zero _)
    refine Tariff.adds_bind (adds_act (free_of_plain _ trivial)) fun _ => ?_
    exact adds_free (uses_leave free_of_plain)

theorem adds_managerReqComplete {e : Entry} {st : Status} (own : e.Home home t.rank) :
    (tariff home t).Adds (managerReqComplete cfg e st)
      (-Pi.single t.rank (operation e.request.posted.op)) := by
  refine Tariff.adds_bind (adds_act (free_of_plain _ trivial)) fun q => ?_
  refine Tariff.adds_bind adds_assert fun _ => ?_
  refine Tariff.adds_bind ?_ fun _ => adds_signalComp own
  exact adds_free (uses_when (uses_act (free_of_plain _ trivial)))

theorem adds_managerReq (rank : m.rank = t.rank) :
    (tariff home t).Adds (managerReqDoProgress cfg m) 0 := by
  have look : (tariff home t).Adds (act (.entriesEmpty m)) 0 :=
    adds_act (free_of_plain _ trivial)
  have unlock {b : Bool} :
      (tariff home t).Adds ((act (.unlock (.manager m))).bind fun _ => .ret b) 0 :=
    Tariff.adds_bind (adds_act (free_locks m).2.2) fun _ => Tariff.adds_ret
  refine Tariff.adds_bind look fun empty => Tariff.adds_ite (fun _ => Tariff.adds_ret) fun _ => ?_
  refine Tariff.adds_bind (adds_act (free_locks m).1) fun taken => ?_
  refine Tariff.adds_ite (fun _ => Tariff.adds_ret) fun _ => ?_
  refine Tariff.adds_bind look fun empty => Tariff.adds_ite (fun _ => unlock) fun _ => ?_
  refine Tariff.adds_op rank fun e own => ?_
  have test : (managerReqTest cfg e).Uses (tariff home t).Free :=
    uses_managerReqTest free_of_plain fun _ => ⟨trivial, fun _ => rfl⟩
  have owed : (0 : Rank → Balance) - (tariff home t).move (.popFront m) e =
      -Pi.single t.rank (operation e.request.posted.op) := zero_sub _
  rw [owed]
  refine Tariff.adds_bind (adds_free test) fun st => ?_
  cases st with
  | none =>
    have push : (tariff home t).Adds (act (.pushBack m e))
        (-Pi.single t.rank (operation e.request.posted.op)) :=
      Tariff.adds_act ⟨rank, own⟩ fun _ => rfl
    exact Tariff.adds_then push (fun _ => unlock) (add_zero _)
  | some st =>
    refine Tariff.adds_bind (adds_act (free_locks m).2.2) fun _ => ?_
    have mine : Entry.Home home e t.rank := by
      rw [← rank]
      exact own
    have complete : (tariff home t).Adds (managerReqComplete cfg { e with mpiReq := none } st)
        (-Pi.single t.rank (operation e.request.posted.op)) := adds_managerReqComplete mine
    exact Tariff.adds_then complete (fun _ => Tariff.adds_ret) (add_zero _)

theorem adds_manager (rank : m.rank = t.rank) :
    (tariff home t).Adds (managerDoProgress cfg m) 0 := by
  unfold managerDoProgress
  cases cfg.compType with
  | request => exact adds_managerReq rank
  | «continue» => exact adds_free (uses_managerContDoProgress free_of_plain free_locks)

end Managers

section PutSlot

variable {d : Dev}

theorem adds_postPutRecv {c : Option Comp} (own : ∀ k, c = some k → home k = d.rank) :
    (tariff home t).Adds (postPutRecv cfg d c) 0 := by
  refine Tariff.adds_bind (adds_act (free_of_plain _ trivial)) fun device => ?_
  refine Tariff.adds_bind (adds_act (free_of_plain _ trivial)) fun p => ?_
  refine Tariff.adds_bind (adds_free (uses_enter free_of_plain)) fun _ => ?_
  refine Tariff.adds_bind (adds_act (free_of_plain _ trivial)) fun q => ?_
  refine Tariff.adds_bind (adds_free free_irecv) fun h => ?_
  refine Tariff.adds_bind (adds_free (uses_leave free_of_plain)) fun _ => ?_
  exact adds_act ⟨own, fun _ => rfl⟩

/-- The entry taken from a put slot is for no operation that was started. -/
theorem wp_putSlotTake {st : Status} (v : Rank → Balance) :
    (tariff home t).contract.wp (putSlotTake cfg d st)
      (fun e v' => (e.Home home d.rank ∧ e.request.posted.op = .putSignal) ∧ v' = v) v := by
  refine Tariff.wp_free (free_of_plain _ trivial) fun e ⟨own, op, device⟩ => ?_
  refine Tariff.wp_free (free_of_plain _ trivial) fun q info => ?_
  refine Tariff.wp_quiet adds_assert fun _ => ?_
  refine Tariff.wp_free (free_of_plain _ trivial) fun b _ => ?_
  cases b with
  | none => exact Tariff.wp_quiet adds_assert fun _ => ⟨⟨own, op⟩, rfl⟩
  | some b =>
    refine Tariff.wp_free (free_of_plain _ trivial) fun _ _ => ?_
    refine Tariff.wp_free (free_of_plain _ trivial) fun _ _ => ?_
    refine Tariff.wp_quiet (adds_postPutRecv fun k named => ?_) fun _ => ⟨⟨own, op⟩, rfl⟩
    rw [info.2, device]
    exact own k named

theorem adds_putSlot (rank : d.rank = t.rank) (device : Device) :
    (tariff home t).Adds (putSlotProgress cfg d device) 0 := by
  have slot : (tariff home t).Adds (act (.slotRequest d)) 0 := adds_act (free_of_plain _ trivial)
  have unlocked : (tariff home t).Adds (act (.unlock (.put d))) 0 :=
    adds_act ⟨trivial, fun _ => rfl⟩
  have unlock {b : Bool} : (tariff home t).Adds ((act (.unlock (.put d))).bind fun _ => .ret b) 0 :=
    Tariff.adds_bind unlocked fun _ => Tariff.adds_ret
  refine Tariff.adds_ite (fun _ => Tariff.adds_ret) fun _ => Tariff.adds_bind slot fun h => ?_
  refine Tariff.adds_ite (fun _ => Tariff.adds_ret) fun _ => ?_
  refine Tariff.adds_bind (adds_act ⟨trivial, fun _ => rfl⟩) fun taken => ?_
  refine Tariff.adds_ite (fun _ => Tariff.adds_ret) fun _ => Tariff.adds_bind slot fun h => ?_
  refine Tariff.adds_ite (fun _ => unlock) fun _ => ?_
  have test : (putSlotTest cfg d).Uses (tariff home t).Free :=
    uses_putSlotTest free_of_plain fun _ => ⟨trivial, fun _ => rfl⟩
  refine Tariff.adds_bind (adds_free test) fun st => ?_
  cases st with
  | none => exact unlock
  | some st =>
    intro v
    refine (tariff home t).contract.wp_call (wp_putSlotTake v) fun e v' hv => ?_
    obtain ⟨⟨own, op⟩, rfl⟩ := hv
    have told : (tariff home t).Adds (signalComp cfg e) 0 := by
      have mine : e.Home home t.rank := by
        rw [← rank]
        exact own
      have paid : (tariff home t).Adds (signalComp cfg e) _ := adds_signalComp mine
      rw [op, operation, Pi.single_zero, neg_zero] at paid
      exact paid
    refine Tariff.wp_quiet unlocked fun _ => Tariff.wp_quiet told fun _ => ?_
    exact (add_zero _).symm

theorem adds_doProgress (rank : d.rank = t.rank) : (tariff home t).Adds (doProgress cfg d) 0 := by
  intro v
  refine Tariff.wp_free (free_of_plain _ trivial) fun device managed => ?_
  refine Tariff.wp_quiet (adds_putSlot rank device) fun _ => ?_
  refine Tariff.wp_quiet (adds_manager (managed.trans rank)) fun _ => ?_
  exact (add_zero _).symm

end PutSlot

section Calls

variable {d : Dev}

/-- A post that is accepted owes its start. -/
theorem wp_postEntry {device : Device} {q : Request} {c : Option Comp}
    {call : Request → RequestPtr → Code (Option Handle)} (rank : device.manager.rank = t.rank)
    (own : ∀ k, c = some k → home k = t.rank)
    (free : ∀ q p, (call q p).Uses (tariff home t).Free) (v : Rank → Balance) :
    (tariff home t).contract.wp (postEntry cfg d device q c call)
      (fun ret v' => v' = v + if ret then -Pi.single t.rank (operation q.op) else 0) v := by
  refine Tariff.wp_free (free_of_plain _ trivial) fun p posted => ?_
  refine Tariff.wp_quiet (adds_free (uses_enter free_of_plain)) fun _ => ?_
  refine Tariff.wp_quiet (adds_free (free q p)) fun h => ?_
  refine Tariff.wp_quiet (adds_free (uses_leave free_of_plain)) fun _ => ?_
  have mine : Entry.Home home ⟨h, d, c, p⟩ device.manager.rank := fun k named =>
    (own k named).trans rank.symm
  refine (tariff home t).contract.wp_call (adds_addEntry rank mine v) fun _ v' hv => ?_
  rw [hv, show p.posted = q from posted]
  exact rfl

/-- Counting the start of an accepted post pays for it. -/
theorem adds_counted {post : Code Bool} {start retry : Counter} {k : OpCode}
    (h : ∀ v, (tariff home t).contract.wp post
      (fun ret v' => v' = v + if ret then -Pi.single t.rank (operation k) else 0) v)
    (starts : gain start = operation k) (retries : gain retry = 0) :
    (tariff home t).Adds (counted post start retry) 0 := by
  intro v
  refine (tariff home t).contract.wp_call (h v) fun ret v' hv => ?_
  refine (tariff home t).contract.wp_act trivial fun _ v'' hv' => ?_
  obtain ⟨-, rfl⟩ := hv'
  rw [hv]
  cases ret <;> simp [tariff, starts, retries]

theorem adds_allocDevice {n : Int} {c : Option Comp} (own : ∀ k, c = some k → home k = t.rank) :
    (tariff home t).Adds (allocDevice cfg n c) 0 := by
  intro v
  have free {o : Op} (pre : (tariff home t).pre o) (move : ∀ r, (tariff home t).move o r = 0) :
      (tariff home t).Free o := ⟨pre, move⟩
  refine Tariff.wp_free (free trivial fun _ => rfl) fun d rank => ?_
  refine Tariff.wp_free (free_of_plain _ trivial) fun id _ => ?_
  refine Tariff.wp_free (free trivial fun _ => rfl) fun comm _ => ?_
  refine Tariff.wp_free (free trivial fun _ => rfl) fun _ _ => ?_
  have listen : (tariff home t).Adds (postPutRecv cfg d c) 0 :=
    adds_postPutRecv fun k named => (own k named).trans (show d.rank = t.rank from rank).symm
  exact Tariff.wp_quiet listen fun _ => (add_zero _).symm

theorem adds_pollCq {c : Comp} (own : home c = t.rank) :
    (tariff home t).Adds (apiPollCq c) 0 := by
  have count {k : Counter} {x : Rank → Balance} (h : Pi.single t.rank (gain k) = x) :
      (tariff home t).Adds (act (.pcounterAdd k)) x := Tariff.adds_act trivial fun _ => h
  refine Tariff.adds_bind (count (by simp [gain])) fun _ => Tariff.adds_op own fun q _ => ?_
  cases q with
  | none => exact Tariff.adds_ret
  | some q =>
    have owed : (0 : Rank → Balance) - (tariff home t).move (.cqPop c) (some q) =
        -Pi.single t.rank completion := zero_sub _
    rw [owed]
    have consumed := count (k := .compConsume) (Pi.single_neg ..)
    exact Tariff.adds_then consumed (fun _ => Tariff.adds_ret) (add_zero _)

theorem adds_callBody {c : Call} (rank : ∀ d, c.device? = some d → d.rank = t.rank)
    (own : ∀ k, c.comp? = some k → home k = t.rank) :
    (tariff home t).Adds (callBody cfg c) 0 := by
  have quiet {p : Code Unit} (h : p.Uses (tariff home t).Free) :
      (tariff home t).Adds (p.bind fun _ => .ret CallResult.void) 0 :=
    Tariff.adds_bind (adds_free h) fun _ => Tariff.adds_ret
  have admits : (tariff home t).Adds (admitPost cfg) 0 :=
    adds_free (uses_admitPost free_of_plain)
  cases c with
  | send d r tag buf length comp ctx =>
    refine adds_counted (k := .send) (fun v => Tariff.wp_quiet admits fun ok => ?_) rfl rfl
    cases ok with
    | false => exact (add_zero _).symm
    | true =>
      refine Tariff.wp_free (free_of_plain _ trivial) fun device managed => ?_
      exact wp_postEntry (managed.trans (rank d rfl)) own (fun _ _ => free_isend) v
  | recv d r tag buf length comp ctx =>
    refine adds_counted (k := .recv) (fun v => ?_) rfl rfl
    refine Tariff.wp_free (free_of_plain _ trivial) fun device managed => ?_
    exact wp_postEntry (managed.trans (rank d rfl)) own (fun _ _ => free_irecv) v
  | put d r buf length comp ctx =>
    refine adds_counted (k := .put) (fun v => ?_) rfl rfl
    refine Tariff.wp_free (free_of_plain _ trivial) fun device managed => ?_
    refine Tariff.wp_quiet adds_assert fun _ => Tariff.wp_quiet admits fun ok => ?_
    cases ok with
    | false => exact (add_zero _).symm
    | true =>
      simp only [Bool.not_true, Bool.false_eq_true, if_false]
      exact wp_postEntry (managed.trans (rank d rfl)) own (fun _ _ => free_isend) v
  | doProgress d =>
    have count : (tariff home t).Adds (act (.pcounterAdd .progress)) 0 :=
      Tariff.adds_act trivial fun _ => by simp [tariff, gain]
    refine Tariff.adds_bind count fun _ => ?_
    exact Tariff.adds_bind (adds_doProgress (rank d rfl)) fun _ => Tariff.adds_ret
  | pollCq c => exact adds_pollCq (own c rfl)
  | barrier d => exact quiet (uses_barrier free_of_plain d)
  | allocDevice n c => exact Tariff.adds_bind (adds_allocDevice own) fun _ => Tariff.adds_ret
  | freeDevice d => exact quiet (uses_freeDevice free_of_plain d)

/-- A call of a process that names its own devices and completion objects settles what it owes. -/
theorem adds_apiCall {c : Call} (rank : ∀ d, c.device? = some d → d.rank = t.rank)
    (own : ∀ k, c.comp? = some k → home k = t.rank) :
    (tariff home t).Adds (apiCall cfg c) 0 :=
  Tariff.adds_bind (adds_callBody rank own) fun _ => adds_act ⟨trivial, fun _ => rfl⟩

/-- A continuation pays for the operation it was registered for. -/
theorem adds_completeCb {success : Bool} {e : Entry} (own : e.Home home t.rank) :
    (tariff home t).Adds (completeCb cfg success e)
      (-Pi.single t.rank (operation e.request.posted.op)) := by
  refine Tariff.adds_bind adds_assert fun _ => Tariff.adds_then (adds_signalComp own) ?_ (add_zero _)
  exact fun _ => adds_act ⟨trivial, fun _ => rfl⟩

end Calls

end Programs

end Lcw.Mpi
