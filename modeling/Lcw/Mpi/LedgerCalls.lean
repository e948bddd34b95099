/- digest: Every function of the backend leaves the account of its thread as it found it. -/

import Lcw.Mpi.Ledger

set_option autoImplicit false
set_option relaxedAutoImplicit false

namespace Lcw.Mpi

open Interleave
open Function (update)

namespace Account

variable {v : Account} {p : RequestPtr} {d : Dev} {k : Nat}

section Updates

@[simp] theorem token_setToken (x : Option Token) : (v.setToken p x).token p = x :=
  Function.update_self _ _ _

@[simp] theorem slot_setSlot (s : Option SlotView) : (v.setSlot d s).slot d = s :=
  Function.update_self _ _ _

@[simp] theorem block_setBlock (b : Option (List Byte)) : (v.setBlock k b).block k = b :=
  Function.update_self _ _ _

@[simp] theorem setToken_setToken (x y : Option Token) :
    (v.setToken p x).setToken p y = v.setToken p y := by
  simp only [setToken, Function.update_idem]

@[simp] theorem setSlot_setSlot (x y : Option SlotView) :
    (v.setSlot d x).setSlot d y = v.setSlot d y := by
  simp only [setSlot, Function.update_idem]

@[simp] theorem setBlock_setBlock (x y : Option (List Byte)) :
    (v.setBlock k x).setBlock k y = v.setBlock k y := by
  simp only [setBlock, Function.update_idem]

theorem setToken_eq {x : Option Token} (h : v.token p = x) : v.setToken p x = v := by
  rw [setToken, ← h, Function.update_eq_self]

theorem setSlot_eq {s : Option SlotView} (h : v.slot d = s) : v.setSlot d s = v := by
  rw [setSlot, ← h, Function.update_eq_self]

theorem setBlock_eq {b : Option (List Byte)} (h : v.block k = b) : v.setBlock k b = v := by
  rw [setBlock, ← h, Function.update_eq_self]

theorem setPermit_eq {a : Option Nat} (h : v.permit = a) : v.setPermit a = v := by
  rw [setPermit, ← h]

theorem setPassed_eq {b : Bool} (h : v.passed = b) : v.setPassed b = v := by
  rw [setPassed, ← h]

end Updates

section Standing

variable {cfg : Config}

variable (cfg) in
/-- Inside a call the thread has nothing in hand but requests already signalled. -/
structure Settled (v : Account) : Prop extends v.Calm where
  spent : cfg.compType = .request → ∀ p x, v.token p = some x → x.kind = .spent

theorem Settled.idle (h : v.Settled cfg) : v.Idle cfg :=
  ⟨h.permit, h.passed, h.spent, fun none => absurd none h.acts⟩

/-- The account inside a call. -/
def calling (v : Account) (c : Call) (added : Option RequestPtr) : Account :=
  v.setActs (⟨c, added⟩ :: v.acts)

theorem Idle.settled (h : v.Idle cfg) (c : Call) (x : Option RequestPtr) :
    (v.calling c x).Settled cfg :=
  ⟨⟨h.permit, h.passed, by simp [calling, setActs]⟩, h.spent⟩

theorem Calm.post (h : v.Calm) {q : Request} :
    (v.setToken p (some ⟨.posting, some q, none, v.permit⟩)).setPermit none =
      v.setToken p (some ⟨.posting, some q, none, none⟩) := by
  rw [h.permit]
  exact setPermit_eq h.permit

theorem Calm.handed (h : v.Calm) {k : Owning} : (v.handed p k).Calm := by
  obtain ⟨permit, passed, acts⟩ := h
  simp only [Account.handed]
  split
  · exact ⟨permit, passed, by simp [setActs]⟩
  · exact ⟨permit, passed, acts⟩

theorem handed_setToken {x : Option Token} (h : v.token p = none) :
    (v.setToken p x).handed p .held = v := by
  simp only [handed, setToken_setToken]
  exact setToken_eq h

theorem handed_calling {c : Call} {x : Option Token} (h : v.token p = none) :
    ((v.calling c none).setToken p x).handed p .started = v.calling c (some p) := by
  have same : (v.calling c none).setToken p none = v.calling c none := setToken_eq h
  simp only [handed, setToken_setToken, same]
  rfl

end Standing

end Account

namespace Ledger

variable {cfg : Config} {P : PutRules cfg} {t : Tid} {α : Type} {Q : α → Account → Prop}
  {u v : Account} {d : Dev}

section Rules

/-- An operation that leaves the account alone. -/
theorem wp_quiet {o : Op} {k : o.Ret → Code α} (pre : ledgerPre P t o v)
    (post : ∀ r v', ledgerPost P t o v r v' → v' = v)
    (next : ∀ r, o.Answers cfg t r → (ledgerContract P t).wp (k r) Q v) :
    (ledgerContract P t).wp (act o >>= k) Q v := by
  refine (ledgerContract P t).wp_act pre fun r v' done => ?_
  obtain rfl := post r v' done.1
  exact next r done.2

variable (ready : t.rank < cfg.nranks ∧ t.index < cfg.nthreads)
include ready

/-- An operation the ledger has no rule for. -/
theorem wp_free {o : Op} {k : o.Ret → Code α} (pre : (t.rank < cfg.nranks ∧
    t.index < cfg.nthreads) → ledgerPre P t o v)
    (post : ∀ r v', ledgerPost P t o v r v' → v' = v)
    (next : ∀ r, (ledgerContract P t).wp (k r) Q v) :
    (ledgerContract P t).wp (act o >>= k) Q v :=
  wp_quiet (pre ready) post fun r _ => next r

theorem wp_lcwAssert {c : Bool} {why : Failure} {f : Unit → Code α}
    (fail : c = false → v.MayFail P why) (next : c = true → (ledgerContract P t).wp (f ()) Q v) :
    (ledgerContract P t).wp (lcwAssert c why >>= f) Q v := by
  cases c with
  | true => exact next rfl
  | false => exact ⟨⟨ready, fail rfl⟩, fun r => nomatch r⟩

theorem wp_enterStreamCs {p : Code α} (hp : (ledgerContract P t).wp p Q v) :
    (ledgerContract P t).wp (do enterStreamCs cfg d; p) Q v := by
  unfold enterStreamCs when
  cases cfg.useStream with
  | false => exact hp
  | true => exact wp_quiet ⟨ready, trivial⟩ (fun _ _ h => h) fun _ _ => hp

theorem wp_leaveStreamCs {p : Code α} (hp : (ledgerContract P t).wp p Q v) :
    (ledgerContract P t).wp (do leaveStreamCs cfg d; p) Q v := by
  unfold leaveStreamCs when
  cases cfg.useStream with
  | false => exact hp
  | true => exact wp_quiet ⟨ready, trivial⟩ (fun _ _ h => h) fun _ _ => hp

theorem wp_pcounterAdd {c : Counter} {k : Unit → Code α}
    (next : (ledgerContract P t).wp (k ()) Q v) :
    (ledgerContract P t).wp (act (.pcounterAdd c) >>= k) Q v :=
  wp_quiet ⟨ready, trivial⟩ (fun _ _ h => h) fun _ _ => next

section Bigcount

variable {size : Nat}

/-- The count and type describe the bytes asked for, unless an assertion stops the call. -/
theorem wp_describe {k : Int × Datatype → Code α}
    (fail : intMax ≤ size / intMax → v.MayFail P .typeTooLarge)
    (next : ∀ n ty, Datatype.layout n ty = consecutive size → size / intMax < intMax →
      (ledgerContract P t).wp (k (n, ty)) Q v) :
    (ledgerContract P t).wp (describe size >>= k) Q v := by
  by_cases small : size ≤ intMax
  · rw [describe_small small]
    apply next _ _ (Datatype.layout_bytes size)
    have one : size / intMax ≤ intMax / intMax := Nat.div_le_div_right small
    have bound : intMax / intMax < intMax := by decide
    omega
  by_cases fits : size / intMax < intMax
  · rw [describe_big (by omega) fits]
    exact next _ _ (layout_bigcount size) fits
  · obtain ⟨f, e⟩ := describe_huge (n := size) (by omega)
    rw [e]
    exact ⟨⟨ready, fail (by omega)⟩, fun r => nomatch r⟩

theorem wp_mpiSafecall {p : RequestPtr} {x : Option (Option Handle)}
    {k : Option Handle → Code α} (fail : x = none → v.MayFail P (.mpiCallFailed p))
    (next : ∀ h, x = some h → (ledgerContract P t).wp (k h) Q v) :
    (ledgerContract P t).wp (mpiSafecall p x >>= k) Q v := by
  cases x with
  | some h => exact next h rfl
  | none => exact ⟨⟨ready, fail rfl⟩, fun r => nomatch r⟩

/-- A send or put is started, or stops the process. -/
theorem wp_isend {a : Buffer} {rank tag : Int} {comm : Comm} {p : RequestPtr}
    (fail : ∀ f, v.MayFail P f)
    (may : ∀ n ty, Datatype.layout n ty = consecutive size → size / intMax < intMax →
      v.MaySend P t a n ty rank tag comm p) :
    (ledgerContract P t).wp (isend a size rank tag comm p)
      (fun h v' => v.Started cfg v' p h ∧ StartedOn comm p h) v := by
  refine wp_describe ready (fun _ => fail _) fun n ty layout fits => ?_
  refine (ledgerContract P t).wp_act ⟨ready, may n ty layout fits⟩ fun x v' done => ?_
  obtain ⟨post, _, _, -, answer⟩ := done
  cases x with
  | none =>
    obtain rfl : v' = v := post
    exact ⟨⟨ready, fail _⟩, fun r => nomatch r⟩
  | some h => exact ⟨post, fun y hy => answer y (by rw [hy])⟩

/-- The receive of a user is started, or stops the process. -/
theorem wp_irecv {a : Buffer} {source tag : Int} {comm : Comm} {p : RequestPtr}
    (fail : ∀ f, v.MayFail P f)
    (may : ∀ n ty, Datatype.layout n ty = consecutive size → size / intMax < intMax →
      v.MayRecv P a n ty source tag comm p) (op : p.posted.op = .recv) :
    (ledgerContract P t).wp (irecv a size source tag comm p)
      (fun h v' => v.Started cfg v' p h ∧ StartedOn comm p h) v := by
  have user : p.posted.op ≠ .putSignal := by simp [op]
  refine wp_describe ready (fun _ => fail _) fun n ty layout fits => ?_
  refine (ledgerContract P t).wp_act ⟨ready, .inl (may n ty layout fits)⟩ fun x v' done => ?_
  obtain ⟨post, _, _, -, answer⟩ := done
  cases x with
  | none =>
    obtain rfl : v' = v := post.1
    exact ⟨⟨ready, fail _⟩, fun r => nomatch r⟩
  | some h =>
    simp only [ledgerPost, if_neg user] at post
    exact ⟨post, fun y hy => answer y (by rw [hy])⟩

/-- The put receive of a device is started, or stops the process. -/
theorem wp_irecv_put {a : Buffer} {source tag : Int} {comm : Comm} {p : RequestPtr}
    (large : intMax ≤ size / intMax → v.MayFail P .typeTooLarge)
    (may : ∀ n ty, Datatype.layout n ty = consecutive size → size / intMax < intMax →
      v.MayListen P a n ty source tag comm p) (op : p.posted.op = .putSignal) :
    (ledgerContract P t).wp (irecv a size source tag comm p)
      (fun h v' => StartedOn comm p h ∧ ∃ s k x, v.slot p.posted.device = some s ∧ h = some k ∧
        v.token p = some x ∧ v' = (v.setToken p (some { x with kind := .started, result := none
          })).setSlot p.posted.device (some { s with phase := .reposted k, rbuf := [] })) v := by
  refine wp_describe ready large fun n ty layout fits => ?_
  refine (ledgerContract P t).wp_act ⟨ready, .inr (may n ty layout fits)⟩ fun x v' done => ?_
  obtain ⟨post, _, _, -, answer⟩ := done
  cases x with
  | none =>
    obtain ⟨rfl, off⟩ := post
    exact ⟨⟨ready, fun on => absurd op (off on)⟩, fun r => nomatch r⟩
  | some h =>
    simp only [ledgerPost, if_pos op] at post
    obtain ⟨s, k, u, hs, rfl, ⟨x, hx, rfl⟩, rfl⟩ := post
    exact ⟨fun y hy => answer y (by rw [hy]), s, k, x, hs, rfl, hx, rfl⟩

end Bigcount

section Completion

omit ready in
theorem no_permit {op : OpCode} {a : Option Nat} (h : PermitFits cfg op a)
    (free : ¬ (0 < cfg.pendingMsgMax ∧ (op = .send ∨ op = .put))) : a = none := by
  cases a with
  | none => rfl
  | some a => exact absurd (h.mp rfl) free

/-- A SEND or PUT gives its permit back. -/
theorem wp_countCompletion {op : OpCode} {p : RequestPtr} {x : Token}
    (hx : v.token p = some x) (held : x.kind = .held) (fits : PermitFits cfg op x.permit)
    (rank : p.posted.device.rank = t.rank) :
    (ledgerContract P t).wp (countCompletion cfg op p)
      (fun _ v' => v' = v.setToken p (some { x with permit := none })) v := by
  have same (free : x.permit = none) : v = v.setToken p (some { x with permit := none }) := by
    refine (Account.setToken_eq ?_).symm
    rw [hx, ← free]
  have throttled (pays : op = .send ∨ op = .put) {k : Unit → Code Unit}
      {Q : Unit → Account → Prop} (next : (ledgerContract P t).wp (k ()) Q
        (v.setToken p (some { x with permit := none }))) :
      (ledgerContract P t).wp (when (cfg.pendingMsgMax > 0) (act (.fetchSubPending p)) >>= k)
        Q v := by
    unfold when
    by_cases on : cfg.pendingMsgMax > 0
    · rw [if_pos (by simpa using on)]
      have paid : x.permit.isSome = true := fits.mpr ⟨on, pays⟩
      refine (ledgerContract P t).wp_act ⟨ready, rank, x, hx, held, paid⟩ fun _ v' done => ?_
      obtain ⟨⟨y, hy, rfl⟩, -⟩ := done
      obtain rfl : x = y := Option.some.inj (hx.symm.trans hy)
      exact next
    · rw [if_neg (by simpa using on)]
      have free : x.permit = none := no_permit fits fun both => on both.1
      rw [← same free] at next
      exact next
  cases op with
  | send => exact throttled (.inl rfl) (wp_pcounterAdd ready rfl)
  | put => exact throttled (.inr rfl) (wp_pcounterAdd ready rfl)
  | recv => exact wp_pcounterAdd ready (same (no_permit fits (by simp)))
  | putSignal => exact wp_pcounterAdd ready (same (no_permit fits (by simp)))

theorem wp_utilSignalComp {c : Option Comp} {q : Request} {p : RequestPtr} {st : Status}
    (token : v.token p = some ⟨.held, some q, some st, none⟩)
    (may : ∀ k, c = some k → v.MaySignal P k q p) (idle : (v.told q p st).Idle cfg)
    (fail : c = none → v.MayFail P (.nullCompletion p)) :
    (ledgerContract P t).wp (utilSignalComp cfg c q p) (fun _ v' => v' = v.told q p st) v := by
  cases c with
  | none => exact ⟨⟨ready, fail rfl⟩, fun r => nomatch r⟩
  | some k =>
    refine (ledgerContract P t).wp_act ⟨ready, may k rfl⟩ fun _ v' done => ?_
    obtain ⟨⟨st', token', rfl⟩, -⟩ := done
    obtain rfl : st = st' := by
      rw [token] at token'
      simpa using token'
    unfold when
    split
    · exact ⟨⟨ready, idle⟩, fun _ _ h => h.1⟩
    · rfl

/-- The tail of `signal_comp`: what it is given to deliver leaves the thread's hands. -/
theorem wp_signalComp {e : Entry} {q : Request} {st : Status} {a : Option Nat}
    (settled : u.Settled cfg) (away : u.token e.request = none)
    (hx : v.token e.request = some ⟨.held, some q, some st, a⟩)
    (fits : PermitFits cfg q.op a) (rank : e.request.posted.device.rank = t.rank)
    (fail : e.completion = none → v.MayFail P (.nullCompletion e.request))
    (may : ∀ k, e.completion = some k →
      (v.setToken e.request (some ⟨.held, some q, some st, none⟩)).MaySignal P k q e.request)
    (told : v.told q e.request st =
      u.setToken e.request (some ⟨.spent, some q, some st, none⟩)) :
    (ledgerContract P t).wp (signalComp cfg e) (fun _ v' => v' = u) v := by
  refine (ledgerContract P t).wp_act ⟨ready, _, hx, by simp⟩ fun r v' done => ?_
  obtain ⟨⟨rfl, x, hx', content⟩, -⟩ := done
  obtain rfl := Option.some.inj (hx.symm.trans hx')
  obtain rfl := Option.some.inj content
  refine (ledgerContract P t).wp_call (wp_countCompletion ready hx rfl fits rank) ?_
  rintro _ _ rfl
  apply wp_pcounterAdd ready
  have after : (v'.setToken e.request (some ⟨.held, some q, some st, none⟩)).told q e.request st =
      u.setToken e.request (some ⟨.spent, some q, some st, none⟩) := by
    rw [← told]
    unfold Account.told
    simp only [Account.setToken_setToken]
  have idle : (u.setToken e.request (some ⟨.spent, some q, some st, none⟩)).Idle cfg := by
    refine ⟨settled.permit, settled.passed, fun request p x hx => ?_,
      fun none => absurd none settled.acts⟩
    by_cases e' : p = e.request
    · subst e'
      rw [Account.token_setToken] at hx
      rw [← Option.some.inj hx]
    · have hx : update u.token e.request _ p = some x := hx
      rw [Function.update_of_ne e'] at hx
      exact settled.spent request p x hx
  refine (ledgerContract P t).wp_call
    (wp_utilSignalComp ready (Account.token_setToken _) may (after ▸ idle) fail) ?_
  rintro _ _ rfl
  rw [after]
  refine (ledgerContract P t).wp_act ⟨ready, _, Account.token_setToken _, rfl, rfl⟩ ?_
  rintro _ _ ⟨rfl, -⟩
  rw [Account.setToken_setToken]
  exact Account.setToken_eq away

/-- An operation of the client is delivered with its final request. -/
theorem wp_signalComp_user {e : Entry} {st : Status} {a : Option Nat} (settled : u.Settled cfg)
    (away : u.token e.request = none) (managed : ∃ m : Manager, e.ManagedBy m ∧ m.rank = t.rank)
    (fits : PermitFits cfg e.request.posted.op a) :
    (ledgerContract P t).wp (signalComp cfg e) (fun _ v' => v' = u)
      (u.setToken e.request (some ⟨.held, some (finalRequest cfg e.request st), some st, a⟩)) := by
  obtain ⟨m, managed, rank⟩ := managed
  have op : (finalRequest cfg e.request st).op = e.request.posted.op := by
    unfold finalRequest
    split <;> rfl
  refine wp_signalComp ready settled away (Account.token_setToken _) (op ▸ fits) ?_ ?_ ?_ ?_
  · rw [← managed.coherent.device, managed.rank, rank]
  · exact fun _ _ _ _ _ _ => managed.op
  · intro k named
    refine ⟨⟨st, Account.token_setToken _, fun _ => rfl, fun put => absurd put managed.op⟩, ?_⟩
    rw [← managed.coherent.completion, named]
  · unfold Account.told
    split
    · rename_i put _
      exact absurd (op.symm.trans put) managed.op
    · rw [Account.setToken_setToken]

end Completion

section Managers

variable {m : Manager} {e : Entry}

theorem wp_managerReqAddEntry {x : Token} (hx : v.token e.request = some x)
    (may : v.MayHand cfg e) :
    (ledgerContract P t).wp (managerReqAddEntry m e)
      (fun _ v' => v' = v.handed e.request x.kind) v := by
  refine wp_quiet ⟨ready, trivial⟩ (fun _ _ h => h) fun _ _ => ?_
  refine (ledgerContract P t).wp_act ⟨ready, may⟩ fun _ v' done => ?_
  obtain ⟨⟨y, hy, rfl⟩, -⟩ := done
  obtain rfl : x = y := Option.some.inj (hx.symm.trans hy)
  exact ⟨⟨ready, trivial⟩, fun _ _ h => h.1⟩

theorem wp_managerContAddEntry {x : Token} (hx : v.token e.request = some x)
    (calm : v.Calm) (may : v.MayHand cfg e) :
    (ledgerContract P t).wp (managerContAddEntry cfg m e)
      (fun _ v' => v' = v.handed e.request x.kind) v := by
  apply wp_enterStreamCs ready
  refine (ledgerContract P t).wp_act ⟨ready, calm, may⟩ fun _ v' done => ?_
  obtain ⟨⟨y, hy, rfl⟩, -⟩ := done
  obtain rfl : x = y := Option.some.inj (hx.symm.trans hy)
  refine wp_quiet ⟨ready, calm.handed⟩ (fun _ _ h => h) fun _ _ => ?_
  unfold leaveStreamCs when
  split
  · exact ⟨⟨ready, trivial⟩, fun _ _ h => h.1⟩
  · rfl

theorem wp_addEntry {x : Token} (hx : v.token e.request = some x) (calm : v.Calm)
    (may : v.MayHand cfg e) :
    (ledgerContract P t).wp (addEntry cfg m e)
      (fun _ v' => v' = v.handed e.request x.kind) v := by
  unfold addEntry
  split
  · exact wp_managerReqAddEntry ready hx may
  · exact wp_managerContAddEntry ready hx calm may

/-- MPI is asked about an operation in hand. -/
theorem wp_mpiTest {h : Handle} {x : Token} (calm : v.Calm) (hx : v.token h.request = some x)
    (held : x.kind = .held) (open' : x.result = none) (user : h.request.posted.op ≠ .putSignal) :
    (ledgerContract P t).wp (mpiTest (some h))
      (fun answer v' => match answer with
        | none => v' = v
        | some st => v' = v.setToken h.request (some { x with result := some st })) v := by
  have may : v.MayTest h := ⟨calm, fun _ => ⟨x, hx, held, open'⟩, fun put => absurd put user⟩
  refine (ledgerContract P t).wp_act ⟨ready, may⟩ fun answer v' done => ?_
  obtain ⟨post, -⟩ := done
  cases answer with
  | notYet => exact post
  | failed => exact ⟨⟨ready, fun _ _ _ _ _ => user⟩, fun r => nomatch r⟩
  | done st =>
    simp only [ledgerPost, if_neg user] at post
    obtain ⟨y, hy, rfl⟩ := post
    obtain rfl : x = y := Option.some.inj (hx.symm.trans hy)
    rfl

/-- The test of a popped entry finds it incomplete, or learns its status. -/
theorem wp_managerReqTest {a : Option Nat} (calm : u.Calm) (managed : e.ManagedBy m) :
    (ledgerContract P t).wp (managerReqTest cfg e)
      (fun answer v' => match answer with
        | none => v' =
          u.setToken e.request (some ⟨.held, some e.request.posted, atOnce cfg e.mpiReq, a⟩)
        | some st =>
          v' = u.setToken e.request (some ⟨.held, some e.request.posted, some st, a⟩))
      (u.setToken e.request (some ⟨.held, some e.request.posted, atOnce cfg e.mpiReq, a⟩)) := by
  unfold managerReqTest
  cases handle : e.mpiReq with
  | none => exact rfl
  | some h =>
    have own : h.request = e.request := (managed.coherent.handle h handle).2
    have calm' : (u.setToken e.request
        (some ⟨.held, some e.request.posted, atOnce cfg (some h), a⟩)).Calm :=
      ⟨calm.permit, calm.passed, calm.acts⟩
    have token : (u.setToken e.request (some ⟨.held, some e.request.posted, atOnce cfg (some h),
        a⟩)).token h.request = some ⟨.held, some e.request.posted, atOnce cfg (some h), a⟩ := by
      rw [own, Account.token_setToken]
    apply wp_enterStreamCs ready
    refine (ledgerContract P t).wp_call
      (wp_mpiTest ready calm' token rfl rfl (own ▸ managed.op)) ?_
    intro answer v' post
    apply wp_leaveStreamCs ready
    cases answer with
    | none => exact post
    | some st =>
      simp only [own, Account.setToken_setToken] at post
      exact post

/-- A completed entry is delivered with what its request has become. -/
theorem wp_managerReqComplete {st : Status} {a : Option Nat} (request : cfg.compType = .request)
    (settled : u.Settled cfg) (away : u.token e.request = none) (managed : e.ManagedBy m)
    (rank : m.rank = t.rank) (fits : PermitFits cfg e.request.posted.op a) :
    (ledgerContract P t).wp (managerReqComplete cfg e st) (fun _ v' => v' = u)
      (u.setToken e.request (some ⟨.held, some e.request.posted, some st, a⟩)) := by
  refine (ledgerContract P t).wp_act ⟨ready, _, Account.token_setToken _, by simp⟩ ?_
  rintro q _ ⟨⟨rfl, x, hx, content⟩, -⟩
  rw [Account.token_setToken] at hx
  obtain rfl := Option.some.inj hx
  obtain rfl := Option.some.inj content
  apply wp_lcwAssert ready
  · intro stop
    simp [managed.op] at stop
  · intro _
    have final : (ledgerContract P t).wp (signalComp cfg e) (fun _ v' => v' = u)
        (u.setToken e.request (some ⟨.held, some (finalRequest cfg e.request st), some st, a⟩)) :=
      wp_signalComp_user ready settled away ⟨m, managed, rank⟩ fits
    unfold when
    by_cases recv : e.request.posted.op = .recv
    · rw [if_pos (by simpa using recv)]
      refine (ledgerContract P t).wp_act ⟨ready, _, Account.token_setToken _, by simp⟩ ?_
      rintro _ _ ⟨⟨x, hx, rfl⟩, -⟩
      rw [Account.token_setToken] at hx
      obtain rfl := Option.some.inj hx
      rw [Account.setToken_setToken]
      simpa only [finalRequest, request, recv] using final
    · rw [if_neg (by simpa using recv)]
      have same : finalRequest cfg e.request st = e.request.posted := by
        unfold finalRequest
        split
        · exact absurd ‹_› recv
        · rfl
      rw [same] at final
      exact final

/-- `manager_req_t::do_progress` puts back what it takes, or delivers it. -/
theorem wp_managerReqDoProgress (request : cfg.compType = .request) (settled : u.Settled cfg)
    (rank : m.rank = t.rank) (top : ∃ d a rest, u.acts = ⟨.doProgress d, a⟩ :: rest) :
    (ledgerContract P t).wp (managerReqDoProgress cfg m) (fun _ v' => v' = u) u := by
  refine wp_quiet ⟨ready, trivial⟩ (fun _ _ h => h) fun none₁ _ => ?_
  cases none₁ with
  | true => rfl
  | false =>
  refine wp_quiet ⟨ready, trivial⟩ (fun _ _ h => h) fun got _ => ?_
  cases got with
  | false => rfl
  | true =>
  refine wp_quiet ⟨ready, trivial⟩ (fun _ _ h => h) fun none₂ _ => ?_
  have unlock {b : Bool} : (ledgerContract P t).wp
      (do act (.unlock (.manager m)); return b : Code Bool) (fun _ v' => v' = u) u :=
    wp_quiet ⟨ready, trivial⟩ (fun _ _ h => h) fun _ _ => rfl
  cases none₂ with
  | true => exact unlock
  | false =>
  refine (ledgerContract P t).wp_act ⟨ready, rank, top⟩ ?_
  rintro e _ ⟨⟨away, a, fits, rfl⟩, _, _, -, managed⟩
  refine (ledgerContract P t).wp_call (wp_managerReqTest ready settled.toCalm managed) ?_
  rintro answer v' post
  cases answer with
  | none =>
    obtain rfl := post
    have hand : (u.setToken e.request (some ⟨.held, some e.request.posted,
        atOnce cfg e.mpiReq, a⟩)).MayHand cfg e :=
      ⟨_, Account.token_setToken _, rfl, rfl, fits, .inl rfl⟩
    refine (ledgerContract P t).wp_act ⟨ready, hand⟩ ?_
    rintro _ _ ⟨⟨x, hx, rfl⟩, -⟩
    rw [Account.token_setToken] at hx
    obtain rfl := Option.some.inj hx
    rw [Account.handed_setToken away]
    exact unlock
  | some st =>
    obtain rfl := post
    refine wp_quiet ⟨ready, trivial⟩ (fun _ _ h => h) fun _ _ => ?_
    have cleared : Entry.ManagedBy { e with mpiReq := none } m :=
      ⟨⟨managed.coherent.completion, managed.coherent.device, nofun⟩, managed.op, managed.rank⟩
    refine (ledgerContract P t).wp_call
      (wp_managerReqComplete ready request settled away cleared rank fits) ?_
    rintro _ _ rfl
    rfl

theorem wp_managerContDoProgress (calm : u.Calm) :
    (ledgerContract P t).wp (managerContDoProgress cfg m) (fun _ v' => v' = u) u := by
  unfold managerContDoProgress
  split
  · rfl
  refine wp_quiet ⟨ready, trivial⟩ (fun _ _ h => h) fun got _ => ?_
  cases got with
  | false => rfl
  | true =>
  refine wp_quiet ⟨ready, calm⟩ (fun _ _ h => h) fun done _ => ?_
  have unlock : (ledgerContract P t).wp
      (do act (.unlock (.manager m)); return false : Code Bool) (fun _ v' => v' = u) u :=
    wp_quiet ⟨ready, trivial⟩ (fun _ _ h => h) fun _ _ => rfl
  cases done with
  | false => exact unlock
  | true => exact wp_quiet ⟨ready, calm⟩ (fun _ _ h => h) fun _ _ => unlock

theorem wp_managerDoProgress (settled : u.Settled cfg) (rank : m.rank = t.rank)
    (top : ∃ d a rest, u.acts = ⟨.doProgress d, a⟩ :: rest) :
    (ledgerContract P t).wp (managerDoProgress cfg m) (fun _ v' => v' = u) u := by
  unfold managerDoProgress
  split
  · exact wp_managerReqDoProgress ready ‹_› settled rank top
  · exact wp_managerContDoProgress ready settled.toCalm

end Managers

end Rules

end Ledger

end Lcw.Mpi
