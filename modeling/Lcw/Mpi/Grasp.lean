/- digest: Threads look only for what is there: an entry, a put slot, the device of their call. -/

import Lcw.Mpi.LedgerApi
import Lcw.Mpi.Quiet

set_option autoImplicit false
set_option relaxedAutoImplicit false

namespace Lcw.Mpi

open Interleave
open Function (update)

/-- What a thread can rely on: the calls it is in, whether the deques it has locked have entries,
and which of the devices it is allocating have been written. -/
@[ext]
structure Grasp where
  calls : List Call
  deque : Manager → Option Bool
  made : Set Dev

namespace Grasp

variable (v : Grasp)

def see (m : Manager) (b : Option Bool) : Grasp := { v with deque := update v.deque m b }

/-- The device is that of the call in progress, or one the thread is allocating. -/
def Names (d : Dev) : Prop := d ∈ v.made ∨ ∃ c rest, v.calls = c :: rest ∧ c.device? = some d

/-- What a call has left the thread with when its body is done. -/
def Left (r : CallResult) (v' : Grasp) : Prop :=
  (∃ d, r = .device d ∧ d ∉ v.made ∧ v' = { v with made := insert d v.made }) ∨
    (∀ d, r ≠ .device d) ∧ v' = v

variable {v}

theorem see_none {m : Manager} {b b' : Option Bool} (away : v.deque m = none) :
    ((v.see m b).see m b').see m none = v := by
  have same : update (update (update v.deque m b) m b') m none = v.deque := by
    rw [Function.update_idem, Function.update_idem, ← away, Function.update_eq_self]
  exact congrArg (fun f => Grasp.mk v.calls f v.made) same

theorem see_once {m : Manager} {b : Option Bool} (away : v.deque m = none) :
    (v.see m b).see m none = v := by
  have same : update (update v.deque m b) m none = v.deque := by
    rw [Function.update_idem, ← away, Function.update_eq_self]
  exact congrArg (fun f => Grasp.mk v.calls f v.made) same

end Grasp

def graspPre (o : Op) (v : Grasp) : Prop :=
  match o with
  | .popFront m => v.deque m = some true
  | .slotRequest d | .readSlot d | .clearSlot d => ∃ rest, v.calls = .doProgress d :: rest
  | .readDevice d => v.Names d
  | .deleteDevice d => ∃ rest, v.calls = .freeDevice d :: rest
  | .endCall (.device d) => d ∈ v.made
  | _ => True

def graspPost (o : Op) (v : Grasp) (r : o.Ret) (v' : Grasp) : Prop :=
  match o with
  | .lock (.manager m) => v.deque m = none ∧ ∃ b, v' = v.see m b
  | .tryLock (.manager m) => match (r : Bool) with
    | true => v.deque m = none ∧ ∃ b, v' = v.see m (some b)
    | false => v' = v
  | .unlock (.manager m) => v' = v.see m none
  | .entriesEmpty m => v' = v ∧ (v.deque m ≠ none → v.deque m = some !(r : Bool))
  | .pushBack m _ | .popFront m => ∃ b, v' = v.see m b
  | .newDevice => v' = v ∧ (r : Dev) ∉ v.made
  | .initDevice d _ => v' = { v with made := insert d v.made }
  | .readRequest p => v' = v ∧ Request.device r = p.posted.device
  | .readSlot d => v' = v ∧ Entry.SlotOf r d
  | .endCall x => v' = { v with
      calls := v.calls.tail
      made := match x with
        | .device d => v.made \ {d}
        | _ => v.made }
  | _ => v' = v

def graspContract : Contract Op Op.Ret Grasp where
  pre := graspPre
  post := graspPost

section Programs

/-- Operations that need nothing to be there and leave the thread with what it had. -/
def Op.light : Op → Prop
  | .popFront _ | .pushBack .. | .slotRequest _ | .readSlot _ | .clearSlot _ | .readDevice _
  | .deleteDevice _ | .initDevice .. | .endCall _ => False
  | .lock l | .tryLock l | .unlock l => ∀ m, l ≠ .manager m
  | _ => True

variable {cfg : Config} {v : Grasp} {α β : Type} {d : Dev}

theorem light_pre {o : Op} (h : o.light) : graspPre o v := by
  cases o <;> first | exact h.elim | exact trivial

theorem light_post {o : Op} (h : o.light) {r : o.Ret} {v' : Grasp} (post : graspPost o v r v') :
    v' = v := by
  cases o with
  | lock l | tryLock l | unlock l =>
    cases l with
    | manager m => exact absurd rfl (h m)
    | _ => exact post
  | entriesEmpty m | newDevice | readRequest p => exact post.1
  | popFront _ | pushBack _ _ | slotRequest _ | readSlot _ | clearSlot _ | readDevice _
  | deleteDevice _ | initDevice _ _ | endCall _ => exact h.elim
  | _ => exact post

/-- A program that finds what it looks for, and leaves its thread with what it had. -/
def Rests (v : Grasp) (p : Code α) : Prop := graspContract.wp p (fun _ v' => v' = v) v

theorem rests_ret {a : α} : Rests v (.ret a : Code α) := rfl

theorem rests_light {p : Code α} (h : p.Uses Op.light) : Rests v p :=
  graspContract.wp_of_uses (fun _ _ h => ⟨light_pre h, fun _ _ post => light_post h post⟩) h v

theorem rests_bind {p : Code α} {f : α → Code β} (hp : Rests v p) (hf : ∀ a, Rests v (f a)) :
    Rests v (p.bind f) :=
  graspContract.wp_call hp fun a _ hv => hv ▸ hf a

theorem rests_ite {c : Prop} [Decidable c] {p q : Code α} (hp : Rests v p) (hq : Rests v q) :
    Rests v (if c then p else q) := by
  split
  · exact hp
  · exact hq

/-- An operation that needs something to be there, and changes nothing of it. -/
theorem rests_act {o : Op} {f : o.Ret → Code α} (pre : graspPre o v)
    (post : ∀ r v', graspPost o v r v' → v' = v ∧ Rests v (f r)) : Rests v ((act o).bind f) :=
  graspContract.wp_act pre fun r v' hv => by
    obtain ⟨rfl, rest⟩ := post r v' hv
    exact rest

theorem rests_readDevice {f : Device → Code α} (named : v.Names d)
    (rest : ∀ device, Rests v (f device)) : Rests v ((act (.readDevice d)).bind f) :=
  rests_act named fun device _ same => ⟨same, rest device⟩

section Light

theorem light_assert {c : Bool} {why : Failure} : (lcwAssert c why).Uses Op.light := by
  cases c
  · exact ⟨trivial, fun r => r.elim⟩
  · trivial

theorem light_describe (n : Nat) : (describe n).Uses Op.light := by
  unfold describe
  refine uses_ite (Prog.uses_bind ?_ fun _ => trivial) trivial
  exact Prog.uses_bind light_assert fun _ => Prog.uses_bind light_assert fun _ => trivial

theorem light_safecall (p : RequestPtr) (x : Option (Option Handle)) :
    (mpiSafecall p x).Uses Op.light := by
  cases x with
  | none => exact Prog.uses_bind light_assert fun _ => trivial
  | some h => trivial

theorem light_isend {a : Buffer} {n : Nat} {rank tag : Int} {comm : Comm} {p : RequestPtr} :
    (isend a n rank tag comm p).Uses Op.light :=
  Prog.uses_bind (light_describe n) fun _ => Prog.uses_then trivial (light_safecall p)

theorem light_irecv {a : Buffer} {n : Nat} {rank tag : Int} {comm : Comm} {p : RequestPtr} :
    (irecv a n rank tag comm p).Uses Op.light :=
  Prog.uses_bind (light_describe n) fun _ => Prog.uses_then trivial (light_safecall p)

theorem light_enter : (enterStreamCs cfg d).Uses Op.light :=
  uses_when (uses_act fun _ other => by cases other)

theorem light_leave : (leaveStreamCs cfg d).Uses Op.light :=
  uses_when (uses_act fun _ other => by cases other)

theorem light_mpiTest (h : Option Handle) : (mpiTest h).Uses Op.light := by
  refine Prog.uses_then trivial fun r => ?_
  cases r with
  | failed => exact Prog.uses_bind light_assert fun _ => trivial
  | _ => trivial

theorem light_managerReqTest {e : Entry} : (managerReqTest cfg e).Uses Op.light := by
  unfold managerReqTest
  split
  · trivial
  · refine Prog.uses_bind light_enter fun _ => Prog.uses_bind (light_mpiTest _) fun _ => ?_
    exact Prog.uses_bind light_leave fun _ => trivial

theorem light_admitPost : (admitPost cfg).Uses Op.light := by
  unfold admitPost
  refine uses_ite trivial (Prog.uses_then trivial fun n => uses_ite trivial ?_)
  exact Prog.uses_then trivial fun _ => trivial

theorem light_signalComp {e : Entry} : (signalComp cfg e).Uses Op.light := by
  have counted (op : OpCode) : (countCompletion cfg op e.request).Uses Op.light := by
    cases op with
    | send | put =>
      exact Prog.uses_bind (uses_when (uses_act trivial)) fun _ => uses_act trivial
    | recv | putSignal => exact uses_act trivial
  refine Prog.uses_then trivial fun q => Prog.uses_bind (counted q.op) fun _ => ?_
  refine Prog.uses_then trivial fun _ => Prog.uses_bind ?_ fun _ => uses_act trivial
  cases e.completion with
  | none => exact light_assert
  | some c => exact Prog.uses_then trivial fun _ => uses_when (uses_act trivial)

theorem light_completeCb {success : Bool} {e : Entry} :
    (completeCb cfg success e).Uses Op.light :=
  Prog.uses_bind light_assert fun _ => Prog.uses_bind light_signalComp fun _ => uses_act trivial

end Light

section Managers

variable {m : Manager} {e : Entry}

theorem rests_addEntry : Rests v (addEntry cfg m e) := by
  unfold addEntry
  cases cfg.compType with
  | request =>
    refine graspContract.wp_act trivial fun _ v₁ ⟨away, b, locked⟩ => ?_
    refine graspContract.wp_act trivial fun _ v₂ ⟨b', pushed⟩ => ?_
    refine ⟨trivial, fun _ v₃ back => ?_⟩
    rw [show v₃ = v₂.see m none from back, pushed, locked]
    exact Grasp.see_none away
  | «continue» =>
    refine rests_bind (rests_light light_enter) fun _ => rests_bind (rests_light ?_) fun _ => ?_
    · exact uses_act trivial
    · exact rests_bind (rests_light (uses_act trivial)) fun _ => rests_light light_leave

/-- An entry is popped under the lock, after the deque was seen not to be empty. -/
theorem rests_managerReq : Rests v (managerReqDoProgress cfg m) := by
  refine rests_bind (rests_light (uses_act trivial)) fun _ => rests_ite rests_ret ?_
  refine graspContract.wp_act trivial fun taken v₁ post => ?_
  cases taken with
  | false =>
    obtain rfl := post
    exact rests_ret
  | true =>
    obtain ⟨away, b, rfl⟩ := post
    have unlock {x : Bool} {b : Option Bool} : graspContract.wp
        ((act (.unlock (.manager m))).bind fun _ => .ret x) (fun _ v' => v' = v) (v.see m b) :=
      graspContract.wp_act trivial fun _ v₂ back =>
        (show v₂ = (v.see m b).see m none from back).trans (Grasp.see_once away)
    refine graspContract.wp_act trivial fun empty v₂ ⟨same, seen⟩ => ?_
    obtain rfl := same
    have here : (v.see m (some b)).deque m = some b := Function.update_self ..
    cases empty with
    | true => exact unlock
    | false =>
      have full : (v.see m (some b)).deque m = some true := seen (by simp [here])
      refine graspContract.wp_act full fun entry v₃ ⟨b', popped⟩ => ?_
      have popped : v₃ = v.see m b' := by
        rw [popped]
        exact congrArg (fun f => Grasp.mk v.calls f v.made) (Function.update_idem ..)
      subst popped
      refine graspContract.wp_call (rests_light light_managerReqTest) fun st v₃ hv => ?_
      subst hv
      cases st with
      | none =>
        refine graspContract.wp_act trivial fun _ v₃ ⟨b'', pushed⟩ => ?_
        have pushed : v₃ = v.see m b'' := by
          rw [pushed]
          exact congrArg (fun f => Grasp.mk v.calls f v.made) (Function.update_idem ..)
        subst pushed
        exact unlock
      | some st =>
        refine graspContract.wp_act trivial fun _ v₃ back => ?_
        obtain rfl : v₃ = v := (show v₃ = (v.see m b').see m none from back).trans
          (Grasp.see_once away)
        refine rests_bind (rests_light ?_) fun _ => rests_ret
        refine Prog.uses_then trivial fun q => Prog.uses_bind light_assert fun _ => ?_
        exact Prog.uses_bind (uses_when (uses_act trivial)) fun _ => light_signalComp

theorem rests_managerCont : Rests v (managerContDoProgress cfg m) := by
  unfold managerContDoProgress
  refine rests_ite rests_ret (graspContract.wp_act trivial fun taken v₁ post => ?_)
  cases taken with
  | false =>
    obtain rfl := post
    exact rests_ret
  | true =>
    obtain ⟨away, b, rfl⟩ := post
    refine graspContract.wp_call (rests_light (uses_act trivial)) fun succeed v₂ same => ?_
    subst same
    refine graspContract.wp_call (rests_light (uses_when (uses_act trivial))) fun _ v₂ same => ?_
    subst same
    exact graspContract.wp_act trivial fun _ v₂ back =>
      (show v₂ = (v.see m (some b)).see m none from back).trans (Grasp.see_once away)

theorem rests_manager : Rests v (managerDoProgress cfg m) := by
  unfold managerDoProgress
  cases cfg.compType with
  | request => exact rests_managerReq
  | «continue» => exact rests_managerCont

end Managers

section Slot

theorem rests_postPutRecv {c : Option Comp} (named : v.Names d) : Rests v (postPutRecv cfg d c) := by
  refine rests_readDevice named fun device => rests_light ?_
  refine Prog.uses_then trivial fun p => Prog.uses_bind light_enter fun _ => ?_
  refine Prog.uses_then trivial fun q => Prog.uses_bind light_irecv fun h => ?_
  exact Prog.uses_bind light_leave fun _ => uses_act trivial

variable (progress : ∃ rest, v.calls = .doProgress d :: rest)

include progress

theorem names_progress : v.Names d := by
  obtain ⟨rest, calls⟩ := progress
  exact .inr ⟨_, rest, calls, rfl⟩

/-- The put receive is reposted on the device whose slot was read. -/
theorem rests_putSlotTake {st : Status} : Rests v (putSlotTake cfg d st) := by
  refine rests_act progress fun entry _ ⟨same, slot⟩ => ⟨same, ?_⟩
  refine rests_act trivial fun q _ ⟨same, posted⟩ => ⟨same, ?_⟩
  have here : q.device = d := by
    rw [posted, ← slot.coherent.device, slot.device]
  refine rests_bind (rests_light light_assert) fun _ => ?_
  refine rests_bind (rests_light (uses_act trivial)) fun b => ?_
  cases b with
  | none => exact rests_bind (rests_light light_assert) fun _ => rests_ret
  | some b =>
    refine rests_bind (rests_light (uses_act trivial)) fun _ => ?_
    refine rests_bind (rests_light (uses_act trivial)) fun _ => ?_
    refine rests_bind (rests_postPutRecv ?_) fun _ => rests_ret
    rw [here]
    exact names_progress progress

theorem rests_putSlotTest : Rests v (putSlotTest cfg d) := by
  refine rests_bind (rests_light light_enter) fun _ => ?_
  refine rests_act progress fun h _ same => ⟨same, ?_⟩
  refine rests_bind (rests_light (light_mpiTest h)) fun st => rests_bind ?_ fun _ => ?_
  · cases st with
    | none => exact rests_ret
    | some st => exact rests_act progress fun _ _ same => ⟨same, rests_ret⟩
  · exact rests_bind (rests_light light_leave) fun _ => rests_ret

theorem rests_putSlot {device : Device} : Rests v (putSlotProgress cfg d device) := by
  have unlock {b : Bool} : Rests v ((act (.unlock (.put d))).bind fun _ => .ret b) :=
    rests_bind (rests_light (uses_act fun _ other => by cases other)) fun _ => rests_ret
  refine rests_ite rests_ret (rests_act progress fun h _ same => ⟨same, rests_ite rests_ret ?_⟩)
  refine rests_bind (rests_light (uses_act fun _ other => by cases other)) fun taken => ?_
  refine rests_ite rests_ret (rests_act progress fun h _ same => ⟨same, rests_ite unlock ?_⟩)
  refine rests_bind (rests_putSlotTest progress) fun st => ?_
  cases st with
  | none => exact unlock
  | some st =>
    refine rests_bind (rests_putSlotTake progress) fun e => rests_bind ?_ fun _ => ?_
    · exact rests_light (uses_act fun _ other => by cases other)
    · exact rests_bind (rests_light light_signalComp) fun _ => rests_ret

theorem rests_doProgress : Rests v (doProgress cfg d) := by
  refine rests_readDevice (names_progress progress) fun device => ?_
  refine rests_bind (rests_putSlot progress) fun _ => ?_
  exact rests_bind rests_manager fun _ => rests_ret

end Slot

section Calls

variable {c : Call} {rest : List Call}

theorem rests_postEntry {device : Device} {q : Request} {comp : Option Comp}
    {call : Request → RequestPtr → Code (Option Handle)} (h : ∀ q p, (call q p).Uses Op.light) :
    Rests v (postEntry cfg d device q comp call) := by
  refine rests_bind (rests_light (uses_act trivial)) fun p => ?_
  refine rests_bind (rests_light light_enter) fun _ => rests_bind (rests_light (h q p)) fun x => ?_
  exact rests_bind (rests_light light_leave) fun _ => rests_bind rests_addEntry fun _ => rests_ret

/-- A call that returns no device. -/
theorem left_of_rests {p : Code α} {f : α → CallResult} (h : Rests v p)
    (other : ∀ a d, f a ≠ .device d) :
    graspContract.wp (p.bind fun a => .ret (f a)) v.Left v :=
  graspContract.wp_call h fun a _ same => .inr ⟨other a, same⟩

theorem left_counted {post : Code Bool} {start retry : Counter} (h : Rests v post) :
    graspContract.wp (counted post start retry) v.Left v := by
  refine graspContract.wp_call h fun ret _ same => ?_
  subst same
  exact left_of_rests (f := fun _ => .bool ret) (rests_light (uses_act trivial)) (by simp)

/-- The device that is allocated has been written when its put receive is posted. -/
theorem made_allocDevice {n : Int} {comp : Option Comp} :
    graspContract.wp (allocDevice cfg n comp)
      (fun d v' => d ∉ v.made ∧ v' = { v with made := insert d v.made }) v := by
  refine graspContract.wp_act trivial fun d v₁ ⟨same, new⟩ => ?_
  obtain rfl : v = v₁ := same.symm
  refine graspContract.wp_act trivial fun id v₁ same => ?_
  obtain rfl : v = v₁ := Eq.symm same
  refine graspContract.wp_act trivial fun comm v₁ same => ?_
  obtain rfl : v = v₁ := Eq.symm same
  refine graspContract.wp_act trivial fun _ v₁ written => ?_
  obtain rfl : { v with made := insert (d : Dev) v.made } = v₁ := Eq.symm written
  refine graspContract.wp_call (rests_postPutRecv (.inl (Set.mem_insert _ _))) ?_
  rintro _ _ rfl
  exact ⟨new, rfl⟩

theorem left_callBody (calls : v.calls = c :: rest) :
    graspContract.wp (callBody cfg c) v.Left v := by
  have named {d : Dev} (device : c.device? = some d) : v.Names d := .inr ⟨c, rest, calls, device⟩
  cases c with
  | send d rank tag buf length comp ctx =>
    refine left_counted (rests_bind (rests_light light_admitPost) fun ok => ?_)
    refine rests_ite rests_ret (rests_readDevice (named rfl) fun device => ?_)
    exact rests_postEntry fun _ _ => light_isend
  | recv d rank tag buf length comp ctx =>
    refine left_counted (rests_readDevice (named rfl) fun device => ?_)
    exact rests_postEntry fun _ _ => light_irecv
  | put d rank buf length comp ctx =>
    refine left_counted (rests_readDevice (named rfl) fun device => ?_)
    refine rests_bind (rests_light light_assert) fun _ => ?_
    refine rests_bind (rests_light light_admitPost) fun ok => rests_ite rests_ret ?_
    exact rests_postEntry fun _ _ => light_isend
  | doProgress d =>
    refine graspContract.wp_act trivial fun _ v₁ same => ?_
    obtain rfl : v = v₁ := Eq.symm same
    exact left_of_rests (f := .bool) (rests_doProgress ⟨rest, calls⟩) (by simp)
  | pollCq c =>
    refine graspContract.wp_act trivial fun _ v₁ same => ?_
    obtain rfl : v = v₁ := Eq.symm same
    refine graspContract.wp_act trivial fun q v₁ same => ?_
    obtain rfl : v = v₁ := Eq.symm same
    exact left_of_rests (f := fun _ => .polled q) (rests_light (uses_when (uses_act trivial)))
      (by simp)
  | barrier d =>
    refine left_of_rests (f := fun _ => .void) (rests_readDevice (named rfl) fun device => ?_)
      (by simp)
    exact rests_light (uses_act trivial)
  | allocDevice n comp =>
    refine graspContract.wp_call made_allocDevice ?_
    rintro d _ ⟨new, rfl⟩
    exact .inl ⟨d, rfl, new, rfl⟩
  | freeDevice d =>
    refine left_of_rests (f := fun _ => .void) (rests_readDevice (named rfl) fun device => ?_)
      (by simp)
    refine rests_bind (rests_light (uses_when (uses_act trivial))) fun _ => ?_
    exact rests_act ⟨rest, calls⟩ fun _ _ same => ⟨same, rests_ret⟩

/-- A call finds what it looks for, and returns with what its thread had before. -/
theorem grasps_apiCall : graspContract.wp (apiCall cfg c) (fun _ v' => v' = v)
    { v with calls := c :: v.calls } := by
  refine graspContract.wp_call (left_callBody rfl) fun r v₁ left => ?_
  rcases left with ⟨d, rfl, new, rfl⟩ | ⟨other, rfl⟩
  · refine ⟨Set.mem_insert _ _, fun _ v₂ back => ?_⟩
    rw [show v₂ = _ from back]
    exact congrArg (Grasp.mk v.calls v.deque) (Set.insert_sdiff_self_of_notMem new)
  · refine ⟨?_, fun _ v₂ back => ?_⟩
    · cases r with
      | device d => exact absurd rfl (other d)
      | _ => trivial
    · rw [show v₂ = _ from back]
      cases r with
      | device d => exact absurd rfl (other d)
      | _ => rfl

end Calls

end Programs

end Lcw.Mpi
