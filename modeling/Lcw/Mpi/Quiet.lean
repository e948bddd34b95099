/- digest: The functions of the backend that use only operations without rules of their own. -/

import Lcw.Mpi.Backend

set_option autoImplicit false
set_option relaxedAutoImplicit false

namespace Lcw.Mpi

open Interleave

variable {cfg : Config} {I : Op → Prop}

section Forms

theorem uses_act {o : Op} (h : I o) : Prog.Uses I (act o) := ⟨h, fun _ => trivial⟩

theorem uses_when {c : Bool} {p : Code Unit} (h : p.Uses I) : (when c p).Uses I := by
  cases c
  · trivial
  · exact h

theorem uses_ite {α : Type} {c : Prop} [Decidable c] {p q : Code α} (hp : p.Uses I)
    (hq : q.Uses I) : (if c then p else q).Uses I := by
  split
  · exact hp
  · exact hq

end Forms

/-- Operations that hand nothing to MPI, to a manager, to a put slot or to the client, make no
device, count nothing and take no lock but that of a stream. -/
def Op.plain : Op → Prop
  | .userCode | .endCall _ | .endCallback | .signal .. | .cqPop _ | .pushBack .. | .popFront _
  | .writeSlot .. | .isend .. | .irecv .. | .test _ | .continue .. | .newDevice | .commCreate _
  | .initDevice .. | .pcounterAdd _ | .tryLock _ => False
  | .lock l | .unlock l => ∃ d, l = .stream d
  | _ => True

/-- Operations that signal nothing, run no code of the client, and concern no manager. -/
def Op.unmanaged : Op → Prop
  | .userCode | .endCall _ | .endCallback | .signal .. | .cqPop _ | .pushBack .. | .popFront _
  | .continue .. | .tryLock _ => False
  | .lock l | .unlock l => ∃ d, l = .stream d
  | _ => True

theorem Op.plain.unmanaged {o : Op} (h : o.plain) : o.unmanaged := by
  cases o <;> first | exact h | exact h.elim

section Plain

variable (plain : ∀ o : Op, o.plain → I o)

include plain

theorem uses_assert {c : Bool} {why : Failure} : (lcwAssert c why).Uses I := by
  cases c
  · exact ⟨plain _ trivial, fun r => r.elim⟩
  · trivial

theorem uses_describe (n : Nat) : (describe n).Uses I := by
  unfold describe
  refine uses_ite ?_ trivial
  refine Prog.uses_bind ?_ fun _ => trivial
  exact Prog.uses_bind (uses_assert plain) fun _ =>
    Prog.uses_bind (uses_assert plain) fun _ => trivial

theorem uses_safecall (p : RequestPtr) (x : Option (Option Handle)) :
    (mpiSafecall p x).Uses I := by
  cases x with
  | none => exact Prog.uses_bind (uses_assert plain) fun _ => trivial
  | some h => trivial

theorem uses_enter {d : Dev} : (enterStreamCs cfg d).Uses I :=
  uses_when (uses_act (plain _ ⟨d, rfl⟩))

theorem uses_leave {d : Dev} : (leaveStreamCs cfg d).Uses I :=
  uses_when (uses_act (plain _ ⟨d, rfl⟩))

theorem uses_admitPost : (admitPost cfg).Uses I := by
  unfold admitPost
  refine uses_ite trivial (Prog.uses_then (plain _ trivial) fun n => uses_ite trivial ?_)
  exact Prog.uses_then (plain _ trivial) fun _ => trivial

theorem uses_countCompletion (count : ∀ k, I (.pcounterAdd k)) (op : OpCode) (p : RequestPtr) :
    (countCompletion cfg op p).Uses I := by
  cases op with
  | send | put =>
    exact Prog.uses_bind (uses_when (uses_act (plain _ trivial))) fun _ => uses_act (count _)
  | recv | putSignal => exact uses_act (count _)

theorem uses_barrier (d : Dev) : (barrier d).Uses I :=
  Prog.uses_then (plain _ trivial) fun _ => uses_act (plain _ trivial)

theorem uses_freeDevice (d : Dev) : (freeDevice d).Uses I := by
  refine Prog.uses_then (plain _ trivial) fun device => ?_
  exact Prog.uses_bind (uses_when (uses_act (plain _ trivial))) fun _ => uses_act (plain _ trivial)

section Test

variable (test : ∀ h, I (.test h))

include test

theorem uses_mpiTest (h : Option Handle) : (mpiTest h).Uses I := by
  refine Prog.uses_then (test h) fun r => ?_
  cases r with
  | notYet => trivial
  | done st => trivial
  | failed => exact Prog.uses_bind (uses_assert plain) fun _ => trivial

theorem uses_putSlotTest {d : Dev} : (putSlotTest cfg d).Uses I := by
  refine Prog.uses_bind (uses_enter plain) fun _ => Prog.uses_then (plain _ trivial) fun h => ?_
  refine Prog.uses_bind (uses_mpiTest plain test h) fun r => ?_
  refine Prog.uses_bind (uses_when (uses_act (plain _ trivial))) fun _ => ?_
  exact Prog.uses_bind (uses_leave plain) fun _ => trivial

theorem uses_managerReqTest {e : Entry} : (managerReqTest cfg e).Uses I := by
  unfold managerReqTest
  split
  · trivial
  · refine Prog.uses_bind (uses_enter plain) fun _ =>
      Prog.uses_bind (uses_mpiTest plain test _) fun _ => ?_
    exact Prog.uses_bind (uses_leave plain) fun _ => trivial

end Test

section Managers

variable (locks : ∀ m, I (.tryLock (.manager m)) ∧ I (.lock (.manager m)) ∧
  I (.unlock (.manager m)))

include locks

theorem uses_addEntry {m : Manager} {e : Entry} (push : I (.pushBack m e))
    (attach : I (.continue m e cfg.contFlags)) : (addEntry cfg m e).Uses I := by
  unfold addEntry
  cases cfg.compType with
  | request =>
    refine Prog.uses_then (locks m).2.1 fun _ => Prog.uses_then push fun _ => ?_
    exact uses_act (locks m).2.2
  | «continue» =>
    refine Prog.uses_bind (uses_enter plain) fun _ => Prog.uses_then attach fun _ => ?_
    exact Prog.uses_then (plain _ trivial) fun _ => uses_leave plain

theorem uses_managerContDoProgress {m : Manager} : (managerContDoProgress cfg m).Uses I := by
  unfold managerContDoProgress
  refine uses_ite trivial (Prog.uses_then (locks m).1 fun taken => uses_ite trivial ?_)
  refine Prog.uses_then (plain _ trivial) fun b => ?_
  refine Prog.uses_bind (uses_when (uses_act (plain _ trivial))) fun _ => ?_
  exact Prog.uses_then (locks m).2.2 fun _ => trivial

end Managers

end Plain

section Unmanaged

variable (all : ∀ o : Op, o.unmanaged → I o)

include all

theorem uses_isend {a : Buffer} {n : Nat} {rank tag : Int} {comm : Comm} {p : RequestPtr} :
    (isend a n rank tag comm p).Uses I := by
  refine Prog.uses_bind (uses_describe (fun o h => all o h.unmanaged) n) fun _ => ?_
  exact Prog.uses_then (all _ trivial) (uses_safecall (fun o h => all o h.unmanaged) p)

theorem uses_irecv {a : Buffer} {n : Nat} {rank tag : Int} {comm : Comm} {p : RequestPtr} :
    (irecv a n rank tag comm p).Uses I := by
  refine Prog.uses_bind (uses_describe (fun o h => all o h.unmanaged) n) fun _ => ?_
  exact Prog.uses_then (all _ trivial) (uses_safecall (fun o h => all o h.unmanaged) p)

theorem uses_postPutRecv {d : Dev} {c : Option Comp} : (postPutRecv cfg d c).Uses I := by
  have plain (o : Op) (h : o.plain) : I o := all o h.unmanaged
  refine Prog.uses_then (plain _ trivial) fun device => ?_
  refine Prog.uses_then (plain _ trivial) fun p => ?_
  refine Prog.uses_bind (uses_enter plain) fun _ => ?_
  refine Prog.uses_then (plain _ trivial) fun q => ?_
  refine Prog.uses_bind (uses_irecv all) fun h => ?_
  exact Prog.uses_bind (uses_leave plain) fun _ => uses_act (all _ trivial)

theorem uses_putSlotTake {d : Dev} {st : Status} : (putSlotTake cfg d st).Uses I := by
  have plain (o : Op) (h : o.plain) : I o := all o h.unmanaged
  refine Prog.uses_then (plain _ trivial) fun e => ?_
  refine Prog.uses_then (plain _ trivial) fun q => ?_
  refine Prog.uses_bind (uses_assert plain) fun _ => ?_
  refine Prog.uses_then (plain _ trivial) fun b => ?_
  cases b with
  | none => exact Prog.uses_bind (uses_assert plain) fun _ => trivial
  | some b =>
    refine Prog.uses_then (plain _ trivial) fun _ => Prog.uses_then (plain _ trivial) fun _ => ?_
    exact Prog.uses_bind (uses_postPutRecv all) fun _ => trivial

theorem uses_allocDevice {n : Int} {c : Option Comp} : (allocDevice cfg n c).Uses I := by
  refine Prog.uses_then (all _ trivial) fun d => Prog.uses_then (all _ trivial) fun id => ?_
  refine Prog.uses_then (all _ trivial) fun comm => Prog.uses_then (all _ trivial) fun _ => ?_
  exact Prog.uses_bind (uses_when (uses_postPutRecv all)) fun _ => trivial

section Handing

variable (handed : ∀ m e, (addEntry cfg m e).Uses I)

include handed

theorem uses_postEntry {d : Dev} {device : Device} {q : Request} {c : Option Comp}
    {call : Request → RequestPtr → Code (Option Handle)} (h : ∀ q p, (call q p).Uses I) :
    (postEntry cfg d device q c call).Uses I := by
  have plain (o : Op) (h : o.plain) : I o := all o h.unmanaged
  refine Prog.uses_then (plain _ trivial) fun p => Prog.uses_bind (uses_enter plain) fun _ => ?_
  refine Prog.uses_bind (h q p) fun x => Prog.uses_bind (uses_leave plain) fun _ => ?_
  exact Prog.uses_bind (handed _ _) fun _ => trivial

theorem uses_send {d : Dev} {rank tag : Int} {buf : Buffer} {length : Int} {c : Option Comp}
    {ctx : Nat} : (send cfg d rank tag buf length c ctx).Uses I := by
  have plain (o : Op) (h : o.plain) : I o := all o h.unmanaged
  refine Prog.uses_bind (uses_admitPost plain) fun ok => uses_ite trivial ?_
  exact Prog.uses_then (plain _ trivial) fun _ =>
    uses_postEntry all handed fun _ _ => uses_isend all

theorem uses_recv {d : Dev} {rank tag : Int} {buf : Buffer} {length : Int} {c : Option Comp}
    {ctx : Nat} : (recv cfg d rank tag buf length c ctx).Uses I :=
  Prog.uses_then (all _ trivial) fun _ =>
    uses_postEntry all handed fun _ _ => uses_irecv all

theorem uses_put {d : Dev} {rank : Int} {buf : Buffer} {length : Int} {c : Option Comp}
    {ctx : Nat} : (put cfg d rank buf length c ctx).Uses I := by
  have plain (o : Op) (h : o.plain) : I o := all o h.unmanaged
  refine Prog.uses_then (plain _ trivial) fun device => ?_
  refine Prog.uses_bind (uses_assert plain) fun _ => ?_
  refine Prog.uses_bind (uses_admitPost plain) fun ok => uses_ite trivial ?_
  exact uses_postEntry all handed fun _ _ => uses_isend all

end Handing

end Unmanaged

section Counting

variable (count : ∀ k, I (.pcounterAdd k))

include count

theorem uses_counted {post : Code Bool} {start retry : Counter} (h : post.Uses I) :
    (counted post start retry).Uses I :=
  Prog.uses_bind h fun _ => Prog.uses_then (count _) fun _ => trivial

theorem uses_pollCq {c : Comp} (pop : I (.cqPop c)) : (apiPollCq c).Uses I := by
  refine Prog.uses_then (count _) fun _ => Prog.uses_then pop fun q => ?_
  exact Prog.uses_bind (uses_when (uses_act (count _))) fun _ => trivial

end Counting

section Telling

variable (all : ∀ o : Op, o.unmanaged → I o) (user : I .userCode)
  (tell : ∀ c q p, I (.signal c q p)) (locks : ∀ l, I (.lock l) ∧ I (.tryLock l) ∧ I (.unlock l))

section Signal

include all user tell

theorem uses_signalComp {e : Entry} : (signalComp cfg e).Uses I := by
  have plain (o : Op) (h : o.plain) : I o := all o h.unmanaged
  refine Prog.uses_then (plain _ trivial) fun q => ?_
  refine Prog.uses_bind (uses_countCompletion plain (fun _ => all _ trivial) _ _) fun _ => ?_
  refine Prog.uses_then (all _ trivial) fun _ => Prog.uses_bind ?_ fun _ =>
    uses_act (plain _ trivial)
  cases e.completion with
  | none => exact uses_assert plain
  | some c => exact Prog.uses_then (tell _ _ _) fun _ => uses_when (uses_act user)

theorem uses_completeCb {success : Bool} {e : Entry} (done : I .endCallback) :
    (completeCb cfg success e).Uses I := by
  have plain (o : Op) (h : o.plain) : I o := all o h.unmanaged
  refine Prog.uses_bind (uses_assert plain) fun _ => ?_
  exact Prog.uses_bind (uses_signalComp all user tell) fun _ => uses_act done

include locks

theorem uses_putSlotProgress {d : Dev} {device : Device} :
    (putSlotProgress cfg d device).Uses I := by
  have plain (o : Op) (h : o.plain) : I o := all o h.unmanaged
  have unlock : I (.unlock (.put d)) := (locks _).2.2
  refine uses_ite trivial (Prog.uses_then (plain _ trivial) fun _ => uses_ite trivial ?_)
  refine Prog.uses_then (locks _).2.1 fun _ => uses_ite trivial ?_
  refine Prog.uses_then (plain _ trivial) fun _ => ?_
  refine uses_ite (Prog.uses_then unlock fun _ => trivial) ?_
  refine Prog.uses_bind (uses_putSlotTest plain fun _ => all _ trivial) fun st => ?_
  cases st with
  | none => exact Prog.uses_then unlock fun _ => trivial
  | some st =>
    refine Prog.uses_bind (uses_putSlotTake all) fun e => ?_
    refine Prog.uses_then unlock fun _ => ?_
    exact Prog.uses_bind (uses_signalComp all user tell) fun _ => trivial

/-- Any call, over what it asks of the manager. -/
theorem uses_callBody {c : Call} (handed : ∀ m e, (addEntry cfg m e).Uses I)
    (managed : ∀ m, (managerDoProgress cfg m).Uses I) (pop : ∀ c, I (.cqPop c)) :
    (callBody cfg c).Uses I := by
  have plain (o : Op) (h : o.plain) : I o := all o h.unmanaged
  have count (k : Counter) : I (.pcounterAdd k) := all _ trivial
  cases c with
  | send d rank tag buf length comp ctx => exact uses_counted count (uses_send all handed)
  | recv d rank tag buf length comp ctx => exact uses_counted count (uses_recv all handed)
  | put d rank buf length comp ctx => exact uses_counted count (uses_put all handed)
  | doProgress d =>
    refine Prog.uses_then (count _) fun _ => Prog.uses_bind ?_ fun _ => trivial
    refine Prog.uses_then (plain _ trivial) fun device => ?_
    refine Prog.uses_bind (uses_putSlotProgress all user tell locks) fun _ => ?_
    exact Prog.uses_bind (managed _) fun _ => trivial
  | pollCq c => exact uses_pollCq count (pop c)
  | barrier d => exact Prog.uses_bind (uses_barrier plain d) fun _ => trivial
  | allocDevice n c => exact Prog.uses_bind (uses_allocDevice all) fun _ => trivial
  | freeDevice d => exact Prog.uses_bind (uses_freeDevice plain d) fun _ => trivial

end Signal

end Telling

end Lcw.Mpi
