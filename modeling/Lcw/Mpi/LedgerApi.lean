/- digest: API calls and continuations keep the books in every run, as one discipline. -/

import Lcw.Mpi.LedgerProgress
import Lcw.Mpi.LedgerRuns

set_option autoImplicit false
set_option relaxedAutoImplicit false

namespace Lcw.Mpi

open Interleave
open Function (update)

variable {cfg : Config} {P : PutRules cfg} {t : Tid} {v : Account} {d : Dev}

/-- A call with its client's own device, and tags in their range where they have one. -/
structure Call.Proper (P : PutRules cfg) (t : Tid) (c : Call) : Prop where
  wellTyped : c.wellTyped = true
  rank : ∀ d, c.device? = some d → d.rank = t.rank
  send : P.tagged = true → ∀ d rank tag buf len comp ctx,
    c = .send d rank tag buf len comp ctx → UserTag cfg tag
  recv : P.tagged = true → ∀ d rank tag buf len comp ctx,
    c = .recv d rank tag buf len comp ctx → UserTag cfg tag

variable (cfg) in
/-- The account when the body of a call has returned `r`. -/
def Account.Finished (v : Account) (c : Call) (r : CallResult) (v' : Account) : Prop :=
  match r with
  | .device d => c.isPost = false ∧ v.slot d = none ∧ ∃ s, s.phase = .armed ∧
      s.building = true ∧ v' = (v.calling c none).setSlot d (some s)
  | _ => ∃ x, v' = v.calling c x ∧ (∀ p, x = some p → r = .bool true) ∧
      (c.isPost = true → r = .bool true → x.isSome = true)

namespace Ledger

variable (ready : t.rank < cfg.nranks ∧ t.index < cfg.nthreads)

theorem mayFail_calling {c : Call} (h : ∀ d, c ≠ .doProgress d) (x : Option RequestPtr)
    (f : Failure) : (v.calling c x).MayFail P f := by
  intro _ d a rest top
  have same : c = .doProgress d := by
    simp only [Account.calling, Account.setActs, List.cons.injEq, Activation.mk.injEq] at top
    exact top.1.1
  exact absurd same (h d)

include ready

section Posts

/-- A post within the throttle gets a permit, and one beyond it nothing. -/
theorem wp_admitPost {c : Call} (idle : v.Idle cfg) (throttled : c.throttled = true) :
    (ledgerContract P t).wp (admitPost cfg)
      (fun b v' => if b then ∃ a, (a.isSome = true ↔ 0 < cfg.pendingMsgMax) ∧
        v' = (v.calling c none).setPermit a else v' = v.calling c none) (v.calling c none) := by
  have permit : (v.calling c none).permit = none := idle.permit
  have passed : (v.calling c none).passed = false := idle.passed
  unfold admitPost
  by_cases off : cfg.pendingMsgMax ≤ 0
  · rw [if_pos off]
    refine ⟨none, ?_, (Account.setPermit_eq permit).symm⟩
    simp only [Option.isSome_none, Bool.false_eq_true, false_iff]
    omega
  · rw [if_neg off]
    refine (ledgerContract P t).wp_act ⟨ready, permit, passed⟩ ?_
    rintro pending _ ⟨rfl, -⟩
    by_cases above : (pending : Int) > cfg.pendingMsgMax
    · rw [if_pos above]
      have refused : decide ((pending : Int) ≤ cfg.pendingMsgMax) = false := by
        simpa using above
      rw [refused]
      exact Account.setPassed_eq passed
    · rw [if_neg above]
      have admitted : decide ((pending : Int) ≤ cfg.pendingMsgMax) = true := by
        simpa using above
      rw [admitted]
      refine (ledgerContract P t).wp_act ⟨ready, permit, rfl, _, _, rfl, throttled⟩ ?_
      rintro _ _ ⟨⟨a, rfl⟩, -⟩
      refine ⟨some a, ?_, ?_⟩
      · simp only [Option.isSome_some, true_iff]
        omega
      · have back : ((v.calling c none).setPassed true).setPassed false = v.calling c none :=
          Account.setPassed_eq passed
        rw [back]

/-- An operation that is started as its call asks is handed to its manager. -/
theorem wp_postEntry {c : Call} {q : Request} {comp : Option Comp} {a : Option Nat}
    {device : Device} {call : Request → RequestPtr → Code (Option Handle)} (idle : v.Idle cfg)
    (posts : c.Posts cfg q comp) (fits : PermitFits cfg q.op a) (rank : q.device.rank = t.rank)
    (start : ∀ p, p.posted = q → (ledgerContract P t).wp (call q p)
      (fun h v' => v' = (v.calling c none).setToken p (some ⟨.started, some q, atOnce cfg h, a⟩))
      ((v.calling c none).setToken p (some ⟨.posting, some q, none, a⟩))) :
    (ledgerContract P t).wp (postEntry cfg d device q comp call)
      (fun b v' => b = true ∧ ∃ p, v' = v.calling c (some p))
      ((v.calling c none).setPermit a) := by
  have permit : (v.calling c none).permit = none := idle.permit
  refine (ledgerContract P t).wp_act
    ⟨ready, .inl ⟨posts.op.1, ⟨_, _, rfl, posts⟩, fits, rank⟩⟩ ?_
  rintro p _ ⟨⟨away, made⟩, _, _, -, posted, completion, -⟩
  have away : v.token p = none := away
  obtain rfl : _ = (v.calling c none).setToken p (some ⟨.posting, some q, none, a⟩) :=
    made.trans (congrArg (fun w => Account.setToken w p (some ⟨.posting, some q, none, a⟩))
      (Account.setPermit_eq permit))
  apply wp_enterStreamCs ready
  refine (ledgerContract P t).wp_call (start p posted) ?_
  rintro h _ rfl
  apply wp_leaveStreamCs ready
  have calm : ((v.calling c none).setToken p
      (some ⟨.started, some q, atOnce cfg h, a⟩)).Calm :=
    ⟨idle.permit, idle.passed, by simp [Account.calling, Account.setActs, Account.setToken]⟩
  refine (ledgerContract P t).wp_call (wp_addEntry ready (Account.token_setToken _) calm
    ⟨_, Account.token_setToken _, ?_, rfl, ?_, .inr ⟨rfl, _, _, rfl, rfl, ?_⟩⟩) ?_
  · rw [posted]
  · rw [posted]
    exact fits
  · rw [posted, completion]
    exact posts
  · rintro _ _ rfl
    exact ⟨rfl, p, Account.handed_calling away⟩

omit ready in
/-- An operation that a call has just created may be started as it was asked for. -/
theorem mayStart {c : Call} {q : Request} {a : Option Nat} {n : Int} {ty : Datatype} {comm : Comm}
    {p : RequestPtr} (idle : v.Idle cfg) (posted : p.posted = q)
    (layout : Datatype.layout n ty = consecutive (toSize q.length))
    (fits : toSize q.length / intMax < intMax) (device : comm.device = q.device) :
    ((v.calling c none).setToken p (some ⟨.posting, some q, none, a⟩)).MayStart q.buffer n ty
      (toInt q.tag) comm p where
  calm := ⟨idle.permit, idle.passed, by simp [Account.calling, Account.setActs, Account.setToken]⟩
  token := ⟨_, Account.token_setToken _, rfl, rfl⟩
  buffer := by rw [posted]
  layout := by rw [posted]; exact layout
  admitted := by rw [posted]; exact fits
  narrowed := by rw [posted]
  device := by rw [posted]; exact device

omit ready in
theorem started_eq {u v' : Account} {q : Request} {a : Option Nat} {p : RequestPtr}
    {h : Option Handle}
    (started : (u.setToken p (some ⟨.posting, some q, none, a⟩)).Started cfg v' p h) :
    v' = u.setToken p (some ⟨.started, some q, atOnce cfg h, a⟩) := by
  obtain ⟨x, hx, rfl⟩ := started
  rw [Account.token_setToken] at hx
  obtain rfl := Option.some.inj hx
  rw [Account.setToken_setToken]

/-- `send` hands over what it is asked to send, or is refused. -/
theorem wp_send {rank tag : Int} {buf : Buffer} {length : Int} {comp : Option Comp} {ctx : Nat}
    (idle : v.Idle cfg) (proper : (Call.send d rank tag buf length comp ctx).Proper P t) :
    (ledgerContract P t).wp (send cfg d rank tag buf length comp ctx)
      (fun b v' => ∃ x, v' = v.calling (.send d rank tag buf length comp ctx) x ∧ x.isSome = b)
      (v.calling (.send d rank tag buf length comp ctx) none) := by
  refine (ledgerContract P t).wp_call (wp_admitPost ready idle rfl) ?_
  intro admitted v' post
  cases admitted with
  | false => exact ⟨none, post, rfl⟩
  | true =>
  obtain ⟨a, paid, rfl⟩ := post
  refine (ledgerContract P t).wp_act ⟨ready, trivial⟩ ?_
  rintro device _ ⟨⟨rfl, of, -⟩, -⟩
  have fits : PermitFits cfg .send a := by simpa [PermitFits] using paid
  refine (ledgerContract P t).wp_mono (wp_postEntry ready idle ⟨rfl, rfl⟩ fits
    (proper.rank d rfl) fun p posted => ?_) ?_
  · refine (ledgerContract P t).wp_mono (wp_isend ready (mayFail_calling (by simp) _) ?_)
      fun h v' post => started_eq post.1
    intro n ty layout fits
    refine ⟨mayStart idle posted layout fits of.comm, ?_, ?_, ?_, ?_, ?_, ?_⟩
    all_goals rw [posted]
    · exact .inl rfl
    · exact proper.rank d rfl
    · simp
    · simp
    · exact fun on _ => proper.send on d rank tag buf length comp ctx rfl
  · rintro b _ ⟨rfl, p, rfl⟩
    exact ⟨some p, rfl, rfl⟩

/-- `recv` hands over what it is asked to receive. -/
theorem wp_recv {rank tag : Int} {buf : Buffer} {length : Int} {comp : Option Comp} {ctx : Nat}
    (idle : v.Idle cfg) (proper : (Call.recv d rank tag buf length comp ctx).Proper P t) :
    (ledgerContract P t).wp (recv cfg d rank tag buf length comp ctx)
      (fun b v' => ∃ x, v' = v.calling (.recv d rank tag buf length comp ctx) x ∧ x.isSome = b)
      (v.calling (.recv d rank tag buf length comp ctx) none) := by
  refine (ledgerContract P t).wp_act ⟨ready, trivial⟩ ?_
  rintro device _ ⟨⟨rfl, of, -⟩, -⟩
  have permit : (v.calling (.recv d rank tag buf length comp ctx) none).permit = none := idle.permit
  have fits : PermitFits cfg .recv none := by simp [PermitFits]
  rw [← Account.setPermit_eq permit]
  refine (ledgerContract P t).wp_mono (wp_postEntry ready idle ⟨rfl, rfl⟩ fits
    (proper.rank d rfl) fun p posted => ?_) ?_
  · refine (ledgerContract P t).wp_mono (wp_irecv ready (mayFail_calling (by simp) _) ?_
      (by rw [posted])) fun h v' post => started_eq post.1
    intro n ty layout fits
    refine ⟨mayStart idle posted layout fits of.comm, ?_, ?_, ?_⟩
    all_goals rw [posted]
    exact fun on => proper.recv on d rank tag buf length comp ctx rfl
  · rintro b _ ⟨rfl, p, rfl⟩
    exact ⟨some p, rfl, rfl⟩

/-- `put` hands over what it is asked to put, or is refused. -/
theorem wp_put {rank : Int} {buf : Buffer} {length : Int} {comp : Option Comp} {ctx : Nat}
    (idle : v.Idle cfg) (proper : (Call.put d rank buf length comp ctx).Proper P t) :
    (ledgerContract P t).wp (put cfg d rank buf length comp ctx)
      (fun b v' => ∃ x, v' = v.calling (.put d rank buf length comp ctx) x ∧ x.isSome = b)
      (v.calling (.put d rank buf length comp ctx) none) := by
  refine (ledgerContract P t).wp_act ⟨ready, trivial⟩ ?_
  rintro device _ ⟨⟨rfl, of, -, -, -, limits⟩, -⟩
  refine wp_lcwAssert ready (fun stop => by simp [of.enablePut] at stop) fun _ => ?_
  refine (ledgerContract P t).wp_call (wp_admitPost ready idle rfl) ?_
  intro admitted v' post
  cases admitted with
  | false => exact ⟨none, post, rfl⟩
  | true =>
  obtain ⟨a, paid, rfl⟩ := post
  have fits : PermitFits cfg .put a := by simpa [PermitFits] using paid
  have posts : (Call.put d rank buf length comp ctx).Posts cfg
      ⟨.put, d, rank, device.putTag, buf, length, ctx⟩ comp := ⟨by rw [of.putTag], rfl⟩
  simp only [Bool.not_true, Bool.false_eq_true, if_false]
  refine (ledgerContract P t).wp_mono (wp_postEntry ready idle posts fits
    (proper.rank d rfl) fun p posted => ?_) ?_
  · refine (ledgerContract P t).wp_mono (wp_isend ready (mayFail_calling (by simp) _) ?_)
      fun h v' post => started_eq post.1
    intro n ty layout fits
    refine ⟨mayStart idle posted layout fits of.comm, ?_, ?_, ?_, ?_, ?_, ?_⟩
    all_goals rw [posted]
    · exact .inr rfl
    · exact proper.rank d rfl
    · exact fun _ => of.putTag
    · exact fun on _ => limits rank buf length comp ctx none v.acts rfl on
    · simp
  · rintro b _ ⟨rfl, p, rfl⟩
    exact ⟨some p, rfl, rfl⟩

end Posts

section Devices

omit ready in
theorem putRbufSize_lt {n : Int} {c : Option Comp} (typed : (Call.allocDevice n c).wellTyped = true) :
    putRbufSize n < 2 ^ 63 := by
  simp only [Call.wellTyped, Call.wellTyped.int64, Bool.and_eq_true, decide_eq_true_eq] at typed
  unfold putRbufSize defaultMaxPut
  split <;> omega

/-- `alloc_device` returns a device whose put slot is ready. -/
theorem wp_allocDevice {n : Int} {c : Option Comp} (idle : v.Idle cfg)
    (typed : (Call.allocDevice n c).wellTyped = true) :
    (ledgerContract P t).wp (allocDevice cfg n c)
      (fun d v' => v.Finished (.allocDevice n c) (.device d) v')
      (v.calling (.allocDevice n c) none) := by
  have calm : (v.calling (.allocDevice n c) none).Calm := (idle.settled _ _).toCalm
  refine (ledgerContract P t).wp_act ⟨ready, n, c, none, v.acts, rfl⟩ ?_
  rintro d _ ⟨⟨free, -, s, rfl, unborn, building, comp⟩, -⟩
  obtain rfl : s.comp = c := comp n c none v.acts rfl
  refine wp_quiet ⟨ready, trivial⟩ (fun _ _ h => h) fun id _ => ?_
  refine wp_quiet ⟨ready, calm.permit, calm.passed, calm.acts⟩ (fun _ _ h => h) fun comm _ => ?_
  refine (ledgerContract P t).wp_act
    ⟨ready, s, Account.slot_setSlot _, unborn, putRbufSize_lt typed⟩ ?_
  rintro _ _ ⟨⟨s', hs', rfl⟩, -⟩
  obtain rfl := Option.some.inj ((Account.slot_setSlot _).symm.trans hs')
  rw [Account.setSlot_setSlot]
  have posted := wp_postPutRecv (P := P) (s := { s with size := putRbufSize n }) ready
    (v := (v.calling (.allocDevice n s.comp) none).setSlot d
      (some { s with size := putRbufSize n })) ⟨calm.permit, calm.passed, calm.acts⟩
    (Account.slot_setSlot _) (.inl unborn) fun _ => mayFail_calling (v := v) (by simp) none _
  have next : (ledgerContract P t).wp (postPutRecv cfg d s.comp >>= fun _ => pure d)
      (fun d v' => v.Finished (.allocDevice n s.comp) (.device d) v')
      ((v.calling (.allocDevice n s.comp) none).setSlot d
        (some { s with size := putRbufSize n })) := by
    refine (ledgerContract P t).wp_call posted ?_
    rintro _ _ ⟨e, rfl⟩
    rw [Account.setSlot_setSlot]
    exact ⟨rfl, free, { s with
      entry := some e, phase := .armed, rbuf := [], size := putRbufSize n }, rfl, building, rfl⟩
  exact next

/-- `free_device` has nothing in hand. -/
theorem wp_freeDevice (calm : v.Calm) :
    (ledgerContract P t).wp (freeDevice d) (fun _ v' => v' = v) v := by
  refine (ledgerContract P t).wp_act ⟨ready, trivial⟩ ?_
  rintro device _ ⟨⟨rfl, -⟩, -⟩
  have delete {w : Account} : (ledgerContract P t).wp (act (.deleteDevice d))
      (fun _ v' => v' = w) w := ⟨⟨ready, trivial⟩, fun _ _ h => h.1⟩
  unfold when
  split
  · exact wp_quiet ⟨ready, calm⟩ (fun _ _ h => h) fun _ _ => delete
  · exact delete

theorem wp_barrier (calm : v.Calm) :
    (ledgerContract P t).wp (barrier d) (fun _ v' => v' = v) v := by
  refine (ledgerContract P t).wp_act ⟨ready, trivial⟩ ?_
  rintro device _ ⟨⟨rfl, -⟩, -⟩
  exact ⟨⟨ready, calm⟩, fun _ _ h => h.1⟩

end Devices

section Calls

/-- A post that hands its operation over, or is refused, is finished. -/
theorem wp_counted {c : Call} {post : Code Bool} {start retry : Counter}
    (body : (ledgerContract P t).wp post
      (fun b v' => ∃ x, v' = v.calling c x ∧ x.isSome = b) (v.calling c none)) :
    (ledgerContract P t).wp (counted post start retry) (fun r v' => v.Finished c r v')
      (v.calling c none) := by
  refine (ledgerContract P t).wp_call body ?_
  rintro b _ ⟨x, rfl, rfl⟩
  apply wp_pcounterAdd ready
  refine ⟨x, rfl, ?_, ?_⟩
  · rintro p rfl
    rfl
  · rintro - accepted
    simpa using accepted

/-- The body of every call leaves at most what it has handed over to account for. -/
theorem wp_callBody {c : Call} (idle : v.Idle cfg) (proper : c.Proper P t) :
    (ledgerContract P t).wp (callBody cfg c) (fun r v' => v.Finished c r v')
      (v.calling c none) := by
  have settled := idle.settled c none
  have plain (r : CallResult) (none' : c.isPost = false) (other : ∀ d, r ≠ .device d) :
      (ledgerContract P t).wp (pure r : Code CallResult) (fun r v' => v.Finished c r v')
        (v.calling c none) := by
    show v.Finished c r (v.calling c none)
    unfold Account.Finished
    split
    · exact absurd rfl (other _)
    · exact ⟨none, rfl, nofun, by simp [none']⟩
  cases c with
  | send d rank tag buf length comp ctx => exact wp_counted ready (wp_send ready idle proper)
  | recv d rank tag buf length comp ctx => exact wp_counted ready (wp_recv ready idle proper)
  | put d rank buf length comp ctx => exact wp_counted ready (wp_put ready idle proper)
  | doProgress d =>
    apply wp_pcounterAdd ready
    refine (ledgerContract P t).wp_call
      (wp_doProgress ready settled (proper.rank d rfl) ⟨none, v.acts, rfl⟩) ?_
    rintro b _ rfl
    exact plain _ rfl (by simp)
  | pollCq c =>
    apply wp_pcounterAdd ready
    refine wp_quiet ⟨ready, trivial⟩ (fun _ _ h => h) fun q _ => ?_
    unfold when
    split
    · exact wp_pcounterAdd ready (plain _ rfl (by simp))
    · exact plain _ rfl (by simp)
  | barrier d =>
    refine (ledgerContract P t).wp_call (wp_barrier ready settled.toCalm) ?_
    rintro _ _ rfl
    exact plain _ rfl (by simp)
  | allocDevice n comp =>
    exact (ledgerContract P t).wp_call (wp_allocDevice ready idle proper.wellTyped)
      fun d v' post => post
  | freeDevice d =>
    refine (ledgerContract P t).wp_call (wp_freeDevice ready settled.toCalm) ?_
    rintro _ _ rfl
    exact plain _ rfl (by simp)

/-- An API call leaves the account of its thread as it found it. -/
theorem wp_apiCall {c : Call} (idle : v.Idle cfg) (proper : c.Proper P t) :
    (ledgerContract P t).wp (apiCall cfg c) (fun _ v' => v' = v) (v.calling c none) := by
  refine (ledgerContract P t).wp_call (wp_callBody ready idle proper) fun r v' post => ?_
  cases r with
  | device d =>
    obtain ⟨none', free, s, armed, building, rfl⟩ := post
    have back : v.setSlot d none = v := Account.setSlot_eq free
    refine ⟨⟨ready, ?_, ⟨_, _, rfl, fun x h => (by cases h), by simp [none']⟩, ?_⟩, ?_⟩
    · exact ⟨idle.permit, idle.passed, idle.spent, idle.rooted⟩
    · rintro d' e
      obtain rfl := CallResult.device.inj e
      exact ⟨s, Account.slot_setSlot _, armed, building⟩
    · rintro _ _ ⟨rfl, -⟩
      refine Eq.trans ?_ back
      simp only [Account.calling, Account.setActs, Account.setSlot, Function.update_idem,
        List.tail_cons]
  | _ =>
    obtain ⟨x, rfl, added, accepted⟩ := post
    refine ⟨⟨ready, ⟨idle.permit, idle.passed, idle.spent, idle.rooted⟩,
      ⟨_, _, rfl, added, accepted⟩, fun x h => (by cases h)⟩, ?_⟩
    rintro _ _ ⟨rfl, -⟩
    rfl

/-- A continuation delivers the operation it was registered for. -/
theorem wp_completeCb {e : Entry} {m : Manager} {st : Status} {a : Option Nat} {success : Bool}
    (compType : cfg.compType = .continue) (calm : v.Calm) (away : v.token e.request = none)
    (managed : e.ManagedBy m) (rank : m.rank = t.rank)
    (fits : PermitFits cfg e.request.posted.op a) :
    (ledgerContract P t).wp (completeCb cfg success e) (fun _ v' => v' = v)
      (v.setToken e.request (some ⟨.held, some e.request.posted, some st, a⟩)) := by
  have settled : v.Settled cfg := ⟨calm, fun request => by simp [compType] at request⟩
  have final : finalRequest cfg e.request st = e.request.posted := by
    simp [finalRequest, compType]
  have delivered : (ledgerContract P t).wp (signalComp cfg e) (fun _ v' => v' = v)
      (v.setToken e.request (some ⟨.held, some (finalRequest cfg e.request st), some st, a⟩)) :=
    wp_signalComp_user ready settled away ⟨m, managed, rank⟩ fits
  rw [final] at delivered
  refine wp_lcwAssert ready (fun _ _ _ _ _ _ => managed.op) fun _ => ?_
  refine (ledgerContract P t).wp_call delivered ?_
  rintro _ _ rfl
  exact ⟨⟨ready, trivial⟩, fun _ _ h => h.1⟩

end Calls

end Ledger

section Discipline

variable {w w' : World} {s : (machine cfg).State} {e : (machine cfg).Event}

/-- A thread that may call MPI is inside an API call, past admission. -/
theorem calm_of_isMpi {o : Op} (mpi : o.isMpi = true) (pre : ledgerPre P t o v) : v.Calm := by
  have pre := pre.2
  cases o with
  | isend a n ty dest tag comm p => exact pre.calm
  | irecv a n ty source tag comm p =>
    rcases pre with pre | pre
    · exact pre.calm
    · exact pre.calm
  | test h =>
    cases h with
    | none => exact pre
    | some h => exact pre.calm
  | «continue» m e f => exact pre.1
  | continueReturn h => exact pre
  | testContReq m => exact pre
  | startContReq m => exact pre
  | barrier comm => exact pre
  | commCreate d => exact pre
  | commFree comm => exact pre
  | _ => cases mpi

theorem consume_result_self {p : RequestPtr} {st : Status} {e : Entry}
    (outcome : w.outcome cfg e = some st) :
    (w.consume p st e.mpiReq).net.result p = w.net.result p ∧ e.mpiReq = none ∨
      (w.consume p st e.mpiReq).net.result p = some st := by
  unfold World.outcome at outcome
  unfold World.consume
  cases handle : e.mpiReq with
  | none => exact .inl ⟨rfl, rfl⟩
  | some h =>
    cases hq : w.net.reqs h with
    | none => simp [handle, hq] at outcome
    | some q =>
      refine .inr ?_
      simp only [hq, World.setResult, Function.update_self]

/-- What a thread has in hand when MPI makes it run a continuation. -/
theorem account_takeContinuation (h : Books P w) {o : Op} {m : Manager} {i : Nat} {e : Entry}
    {st : Status} (found : (w.store.attached m)[i]? = some e)
    (outcome : w.outcome cfg e = some st) : ∃ st' a, PermitFits cfg e.request.posted.op a ∧
      account t (w.takeContinuation t o m i e st) = (account t w).setToken e.request
        (some ⟨.held, some e.request.posted, some st', a⟩) := by
  have waits := h.contents.attached m e (List.mem_of_getElem? found)
  have result : ∃ st', (w.consume e.request st e.mpiReq).net.result e.request = some st' := by
    rcases consume_result_self outcome with ⟨same, null⟩ | done
    · exact ⟨cfg.indeterminate, by rw [same, waits.result, null]; rfl⟩
    · exact ⟨st, done⟩
  obtain ⟨st', result⟩ := result
  refine ⟨st', _, waits.permit, ?_⟩
  rw [account_takeContinuation_self, waits.content, result]

theorem callable_proper {c : Call} (callable : w.callable t c = true)
    (orderly : Orderly P s (.intr t (.call c))) : c.Proper P t := by
  simp only [World.callable, Bool.and_eq_true] at callable
  obtain ⟨⟨typed, device⟩, -⟩ := callable
  refine ⟨typed, fun d hd => ?_, ?_, ?_⟩
  · rw [hd] at device
    simp only [Bool.and_eq_true, beq_iff_eq] at device
    exact device.1
  · rintro on d rank tag buf len comp ctx rfl
    exact orderly on
  · rintro on d rank tag buf len comp ctx rfl
    exact orderly on

variable (P) in
/-- The books are kept in every run of the kind they are kept for. -/
def ledgerDiscipline : Discipline (machine cfg)
    (fun s e => Orderly P s e ∧ (structureDiscipline cfg .none).Holds s) where
  View := Account
  view := account
  inv := Books P
  contract := ledgerContract P
  exec s t o k r w h hok hs pre hx := by
    obtain ⟨orderly, coh, locks⟩ := hok
    have locks : structurePre cfg .none t o (stance t s.shared) := by
      have mine := locks t
      rw [hs] at mine
      exact mine.1
    have rule (on : P.on = true) (d : Dev) (dev : Device) (e : o = .initDevice d dev) :
        dev.putRbufSize = P.size d.rank dev.comm.context := by
      subst e
      simp only [Orderly, nextOp, hs] at orderly
      exact orderly on
    exact ⟨h.exec coh locks pre rule hx,
      ⟨ledgerPost_exec h coh locks pre hx, _, _,
        structurePost_exec coh (regular_none s _) hs locks hx⟩,
      fun _ hu => account_exec_of_ne h coh locks pre hx hu⟩
  intr s t o k i p w h hok hs pre hx := by
    obtain ⟨orderly, coh, -⟩ := hok
    cases i with
    | call c =>
      obtain ⟨rfl, callable, rfl, rfl⟩ := intr_call hx
      obtain ⟨ready, idle⟩ := pre
      have proper := callable_proper callable orderly
      refine ⟨h.pushCall callable idle ?_ ?_, ?_, fun _ hu => account_pushCall_of_ne hu⟩
      · rintro on n comp rfl
        exact orderly on
      · rintro on d rank buf len comp ctx rfl
        exact orderly on
      · rw [account_pushCall_self]
        exact Ledger.wp_apiCall ready idle proper
    | continuation m i =>
      obtain ⟨mpi, compType, rank, e, st, found, outcome, rfl, rfl⟩ := intr_continuation hx
      have calm := calm_of_isMpi mpi pre
      have here := List.mem_of_getElem? found
      have attached := h.filed.attached_of_mem here
      have away : tokenOf t s.shared e.request = none := tokenOf_eq_none (by simp [attached])
      obtain ⟨st', a, fits, account⟩ := account_takeContinuation (t := t) (o := o) h found outcome
      refine ⟨h.takeContinuation coh compType found outcome calm.acts, ?_,
        fun u hu => account_takeContinuation_of_ne (by simp [attached]) hu⟩
      rw [account]
      exact Ledger.wp_completeCb pre.1 compType calm away (coh.attached m e here) rank fits
  env s e w h hok hx := ⟨h.env (env_cases hx), fun _ => account_env h (env_cases hx)⟩

theorem ledger_start : (ledgerDiscipline P).Holds (start cfg) := by
  refine ⟨books_initial, fun t => ?_⟩
  simp only [start]
  split
  · rename_i ready
    have idle : (account t World.initial).Idle cfg := by
      refine ⟨rfl, rfl, fun _ p x hx => ?_, fun _ _ => rfl⟩
      cases hx
    exact ⟨⟨ready, idle⟩, fun _ _ _ => trivial⟩
  · trivial

/-- Every reached state has its books in order, and so has every thread's account. -/
theorem ledger_of_reach (h : System.Reach (Orderly P) (start cfg) s) :
    (ledgerDiscipline P).Holds s := by
  have known (s' : (machine cfg).State) (reach : System.Reach (Orderly P) (start cfg) s') :
      (structureDiscipline cfg .none).Holds s' :=
    (structureDiscipline cfg .none).reach structure_start
      (reach.mono fun s e _ => regular_none s e)
  exact (ledgerDiscipline P).reach ledger_start (h.strengthen known)

theorem books_of_reach (h : System.Reach (Orderly P) (start cfg) s) : Books P s.shared :=
  (ledger_of_reach h).1

/-- The next operation of a thread finds what it needs in the thread's account. -/
theorem ledgerPre_of_reach (h : System.Reach (Orderly P) (start cfg) s) {o : Op}
    (next : nextOp s t = some o) : ledgerPre P t o (account t s.shared) := by
  obtain ⟨k, hk⟩ := nextOp_eq_some.mp next
  have mine := (ledger_of_reach h).2 t
  rw [hk] at mine
  exact mine.1

variable (cfg) in
/-- The rules that ask nothing of the client. -/
def PutRules.free : PutRules cfg where
  on := false
  tagged := false
  size _ _ := 0
  both := by simp
  tags := by simp

theorem orderly_free (s : (machine cfg).State) (e : (machine cfg).Event) :
    Orderly (.free cfg) s e := by
  unfold Orderly
  split
  · split
    · intro on
      cases on
    · trivial
  · split
    · exact fun tagged => by cases tagged
    · exact fun tagged => by cases tagged
    · exact fun on => by cases on
    · exact fun on => by cases on
    · trivial
  · trivial

/-- What is known of a state that is reached without rules. -/
structure Ledgered (s : (machine cfg).State) : Prop where
  books : Books (.free cfg) s.shared
  pre : ∀ t o, nextOp s t = some o → ledgerPre (.free cfg) t o (account t s.shared)

theorem ledgered_of_reach {ok : (machine cfg).State → (machine cfg).Event → Prop}
    (h : System.Reach ok (start cfg) s) : Ledgered s := by
  have free : System.Reach (Orderly (.free cfg)) (start cfg) s :=
    h.mono fun s e _ => orderly_free s e
  exact ⟨books_of_reach free, fun _ _ next => ledgerPre_of_reach free next⟩

/-- What was told its completion named a completion object. -/
theorem named_of_reach {ok : (machine cfg).State → (machine cfg).Event → Prop}
    (h : System.Reach ok (start cfg) s) (p : RequestPtr)
    (told : (s.shared.store.stage p).told = true) : p.completion ≠ none := by
  refine (h.strengthen fun _ reached => ledgered_of_reach reached).invariant
    (I := fun s : (machine cfg).State => ∀ p, (s.shared.store.stage p).told = true →
      p.completion ≠ none) (fun p told => by cases told) (fun s e s' inv ok step => ?_) p told
  obtain ⟨-, books, pre⟩ := ok
  cases e with
  | exec t =>
    obtain ⟨o, k, r, w, hp, hx, rfl⟩ := System.step_exec step
    exact (exec_moved books (pre t o (nextOp_eq_some.mpr ⟨k, hp⟩)) hx).named inv
  | intr t i =>
    obtain ⟨o, k, p, w, -, hi, rfl⟩ := System.step_intr step
    cases i with
    | call c =>
      obtain ⟨-, -, -, rfl⟩ := intr_call hi
      exact inv
    | continuation m i =>
      obtain ⟨-, -, -, e, st, found, -, -, rfl⟩ := intr_continuation hi
      exact (books.filed.moved_takeContinuation found).named inv
  | env e =>
    obtain ⟨w, he, rfl⟩ := System.step_env step
    cases env_cases he <;> exact inv

end Discipline

end Lcw.Mpi
