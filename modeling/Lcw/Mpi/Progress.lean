/- digest: What `do_progress` returns, against the completions signalled while it runs. -/

import Lcw.Interleave.Discipline
import Lcw.Interleave.Metering
import Lcw.Interleave.Observe
import Lcw.Mpi.Machine
import Lcw.Mpi.Quiet

set_option autoImplicit false
set_option relaxedAutoImplicit false

namespace Lcw.Mpi

open Interleave
open Function (update)

/-- The calls whose result says whether something was done. -/
def Call.asks : Call → Bool
  | .doProgress _ => true
  | _ => false

def CallResult.answer : CallResult → Option Bool
  | .bool b => some b
  | _ => none

variable (cfg : Config)

/-- An onlooker that counts the completions signalled in each call. -/
def meter : (machine cfg).Observer where
  Record := Frames Tid Call CallResult
  exec (t : Tid) (o : Op) _ (g : Frames Tid Call CallResult) := match o with
    | .signal .. => g.signal t
    | .endCall r => g.close t r
    | .endCallback => g.leave t
    | _ => g
  intr (t : Tid) (i : Intr) (g : Frames Tid Call CallResult) := match i with
    | .call c => g.enter t (some c)
    | .continuation .. => g.enter t none

abbrev metered : System := (meter cfg).observed

def meteredStart : (metered cfg).State := (meter cfg).beside (start cfg) Frames.empty

/-- MPI runs no continuation in a `do_progress` that has not signalled a completion itself. -/
def Undisturbed (s : (metered cfg).State) : (metered cfg).Event → Prop
  | .intr t (.continuation ..) => cfg.compType = .continue →
      Stack.Covered Call.asks (Frames.stack s.shared.2 t)
  | _ => True

variable {cfg}

/-- Operations that neither signal nor end a call, nor run code of the client. -/
def Op.silent : Op → Prop
  | .signal .. | .endCall _ | .endCallback | .userCode => False
  | _ => True

def progressContract : Contract Op Op.Ret (Stack Call) where
  pre
    | .endCall r, v => ∃ c n rest, v = (some c, n) :: rest ∧
        (c.asks → ∃ b, r.answer = some b ∧ (b = true ↔ 0 < n))
    | .endCallback, v => ∃ n rest, v = (none, n) :: rest
    | .userCode, v => v.Covered Call.asks
    | _, _ => True
  post
    | .signal .., v, _, v' => v' = v.signalled
    | .endCall _, v, _, v' | .endCallback, v, _, v' => v' = v.tail
    | _, v, _, v' => v' = v

section Programs

theorem silent_quiet (o : Op) (v : Stack Call) (h : o.silent) : progressContract.pre o v ∧
    ∀ r v', progressContract.post o v r v' → v' = v := by
  cases o <;> first | exact h.elim | exact ⟨trivial, fun _ _ hv => hv⟩

theorem silent_stack {α : Type} {p : Code α} (h : p.Uses Op.silent) (v : Stack Call) :
    progressContract.wp p (fun _ v' => v' = v) v :=
  progressContract.wp_of_uses silent_quiet h v

theorem silent_of_plain (o : Op) (h : o.plain) : o.silent := by
  cases o <;> first | exact h.elim | exact trivial

theorem silent_of_unmanaged (o : Op) (h : o.unmanaged) : o.silent := by
  cases o <;> first | exact h.elim | exact trivial

/-- Calls other than `do_progress` signal nothing. -/
theorem silent_callBody {c : Call} (other : c.asks = false) :
    (callBody cfg c).Uses Op.silent := by
  have count (k : Counter) : Op.silent (.pcounterAdd k) := trivial
  have handed (m : Manager) (e : Entry) : (addEntry cfg m e).Uses Op.silent :=
    uses_addEntry silent_of_plain (fun _ => ⟨trivial, trivial, trivial⟩) trivial trivial
  cases c with
  | send d rank tag buf length comp ctx =>
    exact uses_counted count (uses_send silent_of_unmanaged handed)
  | recv d rank tag buf length comp ctx =>
    exact uses_counted count (uses_recv silent_of_unmanaged handed)
  | put d rank buf length comp ctx =>
    exact uses_counted count (uses_put silent_of_unmanaged handed)
  | doProgress d => cases other
  | pollCq c => exact uses_pollCq count trivial
  | barrier d => exact Prog.uses_bind (uses_barrier silent_of_plain d) fun _ => trivial
  | allocDevice n c =>
    exact Prog.uses_bind (uses_allocDevice silent_of_unmanaged) fun _ => trivial
  | freeDevice d => exact Prog.uses_bind (uses_freeDevice silent_of_plain d) fun _ => trivial

/-- A call of one's own frame with one more completion. -/
theorem utilSignalComp_stack {completion : Option Comp} {q : Request} {p : RequestPtr}
    {c : Option Call} {n : Nat} {rest : Stack Call} :
    progressContract.wp (utilSignalComp cfg completion q p)
      (fun _ v => v = (c, n + 1) :: rest) ((c, n) :: rest) := by
  cases completion with
  | none => exact ⟨trivial, fun r => r.elim⟩
  | some k =>
    refine ⟨trivial, fun _ v hv => ?_⟩
    rw [show v = (c, n + 1) :: rest from hv]
    simp only [Prog.ret_bind, when]
    cases cfg.isHandler k with
    | false => exact rfl
    | true =>
      refine ⟨fun d m rest' same _ => ?_, fun _ _ hu => hu⟩
      obtain ⟨own, -⟩ := List.cons.inj same
      obtain ⟨-, rfl⟩ := Prod.mk.inj own
      exact Nat.succ_pos n

theorem signalComp_stack {e : Entry} {c : Option Call} {n : Nat} {rest : Stack Call} :
    progressContract.wp (signalComp cfg e) (fun _ v => v = (c, n + 1) :: rest)
      ((c, n) :: rest) := by
  refine progressContract.wp_act trivial fun q v hv => ?_
  rw [show v = (c, n) :: rest from hv]
  have counted : (countCompletion cfg q.op e.request).Uses Op.silent :=
    uses_countCompletion silent_of_plain (fun _ => trivial) q.op e.request
  refine progressContract.wp_call (silent_stack counted _) fun _ v hv => ?_
  rw [hv]
  refine progressContract.wp_act trivial fun _ v hv => ?_
  rw [show v = (c, n) :: rest from hv]
  refine progressContract.wp_call utilSignalComp_stack fun _ v hv => ?_
  rw [hv]
  exact ⟨trivial, fun _ _ hu => hu⟩

theorem managerReqComplete_stack {e : Entry} {st : Status} {c : Option Call} {n : Nat}
    {rest : Stack Call} :
    progressContract.wp (managerReqComplete cfg e st) (fun _ v => v = (c, n + 1) :: rest)
      ((c, n) :: rest) := by
  refine progressContract.wp_act trivial fun q v hv => ?_
  rw [show v = (c, n) :: rest from hv]
  have write : (when (q.op = .recv)
      (act (.writeRequest e.request (received cfg q st)))).Uses Op.silent :=
    uses_when (uses_act trivial)
  refine progressContract.wp_call (silent_stack (uses_assert silent_of_plain) _) fun _ v hv => ?_
  rw [hv]
  refine progressContract.wp_call (silent_stack write _) fun _ v hv => ?_
  rw [hv]
  exact signalComp_stack

/-- A function that answers whether it signalled a completion. -/
abbrev Signals (c : Option Call) (rest : Stack Call) (p : Code Bool) : Prop :=
  ∀ n, progressContract.wp p (fun b v => v = (c, bif b then n + 1 else n) :: rest)
    ((c, n) :: rest)

theorem signals_false {c : Option Call} {rest : Stack Call} {p : Code Unit}
    (h : p.Uses Op.silent) : Signals c rest (p.bind fun _ => .ret false) :=
  fun _ => progressContract.wp_call (silent_stack h _) fun _ _ hv => hv

theorem signals_then {c : Option Call} {rest : Stack Call} {α : Type} {p : Code α}
    {f : α → Code Bool} (h : p.Uses Op.silent) (hf : ∀ a, Signals c rest (f a)) :
    Signals c rest (p.bind f) := fun n =>
  progressContract.wp_call (silent_stack h _) fun a _ hv => hv ▸ hf a n

theorem signals_true {c : Option Call} {rest : Stack Call} {e : Entry} :
    Signals c rest ((signalComp cfg e).bind fun _ => .ret true) := fun _ =>
  progressContract.wp_call signalComp_stack fun _ _ hv => hv

theorem signals_ret {c : Option Call} {rest : Stack Call} : Signals c rest (.ret false) :=
  fun _ => rfl

theorem signals_managerReq {c : Option Call} {rest : Stack Call} (m : Manager) :
    Signals c rest (managerReqDoProgress cfg m) := by
  refine signals_then (uses_act trivial) fun empty => ?_
  cases empty with
  | true => exact signals_ret
  | false =>
    refine signals_then (uses_act trivial) fun taken => ?_
    cases taken with
    | false => exact signals_ret
    | true =>
      refine signals_then (uses_act trivial) fun empty => ?_
      cases empty with
      | true => exact signals_false (uses_act trivial)
      | false =>
        refine signals_then (uses_act trivial) fun e => ?_
        refine signals_then (uses_managerReqTest silent_of_plain fun _ => trivial) fun st => ?_
        cases st with
        | none =>
          refine signals_then (uses_act trivial) fun _ => ?_
          exact signals_false (uses_act trivial)
        | some st =>
          refine signals_then (uses_act trivial) fun _ => ?_
          refine fun n => progressContract.wp_call (R := fun _ v => v = (c, n + 1) :: rest) ?_
            fun _ _ hv => hv
          exact managerReqComplete_stack

theorem signals_manager {c : Option Call} {rest : Stack Call} (m : Manager) :
    Signals c rest (managerDoProgress cfg m) := by
  unfold managerDoProgress
  cases cfg.compType with
  | request => exact signals_managerReq m
  | «continue» =>
    unfold managerContDoProgress
    dsimp only
    split
    · exact signals_ret
    · refine signals_then (uses_act trivial) fun taken => ?_
      cases taken with
      | false => exact signals_ret
      | true =>
        refine signals_then (uses_act trivial) fun b => ?_
        refine signals_then (uses_when (uses_act trivial)) fun _ => ?_
        exact signals_false (uses_act trivial)

theorem signals_putSlot {c : Option Call} {rest : Stack Call} (d : Dev) (device : Device) :
    Signals c rest (putSlotProgress cfg d device) := by
  unfold putSlotProgress
  split
  · exact signals_ret
  · refine signals_then (uses_act trivial) fun h => ?_
    split
    · exact signals_ret
    · refine signals_then (uses_act trivial) fun taken => ?_
      cases taken with
      | false => exact signals_ret
      | true =>
        refine signals_then (uses_act trivial) fun h => ?_
        split
        · exact signals_false (uses_act trivial)
        · refine signals_then (uses_putSlotTest silent_of_plain fun _ => trivial) fun st => ?_
          cases st with
          | none => exact signals_false (uses_act trivial)
          | some st =>
            refine signals_then (uses_putSlotTake silent_of_unmanaged) fun e => ?_
            exact signals_then (uses_act trivial) fun _ => signals_true

/-- `do_progress` answers whether its own code signalled a completion. -/
theorem doProgress_stack {d : Dev} {c : Option Call} {rest : Stack Call} :
    progressContract.wp (doProgress cfg d)
      (fun b v => ∃ n, v = (c, n) :: rest ∧ (b = true ↔ 0 < n)) ((c, 0) :: rest) := by
  refine progressContract.wp_act trivial fun device v hv => ?_
  rw [show v = (c, 0) :: rest from hv]
  refine progressContract.wp_call (signals_putSlot d device 0) fun succeed v hv => ?_
  rw [hv]
  refine progressContract.wp_call (signals_manager device.manager _) fun progressed v hv => ?_
  refine ⟨_, hv, ?_⟩
  cases succeed <;> cases progressed <;> simp

/-- A call leaves the calls around it as they were. -/
theorem apiCall_stack (c : Call) (rest : Stack Call) :
    progressContract.wp (apiCall cfg c) (fun _ v => v = rest) ((some c, 0) :: rest) := by
  by_cases asks : c.asks
  · cases c with
    | doProgress d =>
      refine progressContract.wp_call (R := fun r v => ∃ b n, r = .bool b ∧
        v = (some (.doProgress d), n) :: rest ∧ (b = true ↔ 0 < n)) ?_ fun r v hv => ?_
      · refine progressContract.wp_act trivial fun _ v hv => ?_
        rw [show v = _ from hv]
        refine progressContract.wp_call doProgress_stack fun b v hv => ?_
        obtain ⟨n, rfl, told⟩ := hv
        exact ⟨b, n, rfl, rfl, told⟩
      · obtain ⟨b, n, rfl, rfl, told⟩ := hv
        exact ⟨⟨_, n, rest, rfl, fun _ => ⟨b, rfl, told⟩⟩, fun _ _ hu => hu⟩
    | _ => cases asks
  · refine progressContract.wp_call (silent_stack (silent_callBody (by simpa using asks)) _)
      fun r v hv => ?_
    rw [hv]
    exact ⟨⟨c, 0, rest, rfl, fun asks' => absurd asks' asks⟩, fun _ _ hu => hu⟩

theorem completeCb_stack {success : Bool} {e : Entry} (rest : Stack Call) :
    progressContract.wp (completeCb cfg success e) (fun _ v => v = rest) ((none, 0) :: rest) := by
  refine progressContract.wp_call (silent_stack (uses_assert silent_of_plain) _) fun _ v hv => ?_
  rw [hv]
  refine progressContract.wp_call signalComp_stack fun _ v hv => ?_
  rw [hv]
  exact ⟨⟨1, rest, rfl⟩, fun _ _ hu => hu⟩

end Programs

section Metering

variable {q : Prop} {x y : World × Frames Tid Call CallResult} {t : Tid}

/-- The record of an operation follows the contract of its thread. -/
theorem exec_metered {o : Op} {r : o.Ret}
    (h : Metered Call.asks CallResult.answer q x.2)
    (pre : progressContract.pre o (x.2.stack t)) (record : y.2 = (meter cfg).exec t o r x.2) :
    Metered Call.asks CallResult.answer q y.2 ∧
      progressContract.post o (x.2.stack t) r (y.2.stack t) ∧
      ∀ u, u ≠ t → y.2.stack u = x.2.stack u := by
  rw [record]
  cases o with
  | signal => exact ⟨h.signal, Frames.stack_signal, fun u hu => Frames.stack_signal_other hu⟩
  | endCall result =>
    obtain ⟨c, n, rest, top, told⟩ := pre
    refine ⟨h.close result fun c' n' rest' top' asks => ?_, Frames.stack_close result,
      fun u hu => Frames.stack_close_other hu result⟩
    obtain ⟨own, -⟩ := List.cons.inj (top.symm.trans top')
    obtain ⟨called, rfl⟩ := Prod.mk.inj own
    obtain rfl := Option.some.inj called
    exact told asks
  | endCallback => exact ⟨h.leave, Frames.stack_leave, fun u hu => Frames.stack_leave_other hu⟩
  | _ => exact ⟨h, rfl, fun u _ => rfl⟩

theorem intr_metered {o : Op} {i : Intr} {p : Code Unit}
    (h : Metered Call.asks CallResult.answer q x.2)
    (pre : progressContract.pre o (x.2.stack t))
    (still : ∀ m j, i = .continuation m j → cfg.compType = .continue → q →
      (x.2.stack t).Covered Call.asks)
    (hi : intr cfg t o i x.1 = some (p, y.1)) (record : y.2 = (meter cfg).intr t i x.2) :
    Metered Call.asks CallResult.answer q y.2 ∧
      progressContract.wp p (fun _ v => v = x.2.stack t) (y.2.stack t) ∧
      ∀ u, u ≠ t → y.2.stack u = x.2.stack u := by
  rw [record]
  cases i with
  | call c =>
    obtain ⟨rfl, -, rfl, -⟩ := intr_call hi
    refine ⟨h.enter (some c) fun _ => pre, ?_, fun u hu => Frames.stack_enter_other hu _⟩
    simp only [meter, Frames.stack_enter]
    exact apiCall_stack c _
  | continuation m j =>
    obtain ⟨-, type, -, e, st, -, -, rfl, -⟩ := intr_continuation hi
    refine ⟨h.enter none (still m j rfl type), ?_, fun u hu => Frames.stack_enter_other hu _⟩
    simp only [meter, Frames.stack_enter]
    exact completeCb_stack _

/-- Threads signal by the contract in all runs, and before anything else in undisturbed ones. -/
def progressing (cfg : Config) (q : Prop) :
    Discipline (metered cfg) fun s e => q → Undisturbed cfg s e where
  View := Stack Call
  view t x := x.2.stack t
  inv x := Metered Call.asks CallResult.answer q x.2
  contract _ := progressContract
  exec _ _ _ _ _ _ inv _ _ pre hx :=
    exec_metered inv pre (System.Observer.exec_some hx).2
  intr s t o k i p w inv ok _ pre hi := by
    obtain ⟨inner, record⟩ := System.Observer.intr_some hi
    refine intr_metered inv pre (fun m j hi type still => ?_) inner record
    subst hi
    exact ok still type
  env _ _ _ inv _ he := by
    have record := (System.Observer.env_some he).2
    exact ⟨record ▸ inv, fun _ => by rw [record]⟩

theorem progressing_start (cfg : Config) (q : Prop) :
    (progressing cfg q).Holds (meteredStart cfg) := by
  refine ⟨Metered.empty, fun t => ?_⟩
  simp only [meteredStart, System.Observer.beside, start]
  split
  · refine ⟨fun c n rest top => ?_, fun _ _ _ => trivial⟩
    cases top
  · trivial

theorem metered_of_reach {s : (metered cfg).State}
    (h : System.Reach (fun s e => q → Undisturbed cfg s e) (meteredStart cfg) s) :
    Metered Call.asks CallResult.answer q s.shared.2 :=
  ((progressing cfg q).reach (progressing_start cfg q) h).1

/-- The REQUEST manager registers no continuations. -/
theorem undisturbed_request (request : cfg.compType = .request) (s : (metered cfg).State)
    (e : (metered cfg).Event) : Undisturbed cfg s e := by
  unfold Undisturbed
  split
  · intro type
    rw [request] at type
    cases type
  · trivial

end Metering

end Lcw.Mpi
