/- digest: The put slot is left as it was found, with a new receive and the old message delivered. -/

import Lcw.Mpi.LedgerCalls

set_option autoImplicit false
set_option relaxedAutoImplicit false

namespace Lcw.Mpi

open Interleave
open Function (update)

namespace Ledger

variable {cfg : Config} {P : PutRules cfg} {t : Tid} {u v : Account} {d : Dev} {s : SlotView}
  {st : Status} (ready : t.rank < cfg.nranks ∧ t.index < cfg.nthreads)

include ready

/-- `post_put_recv` fills the slot of a device with a receive. -/
theorem wp_postPutRecv (calm : v.Calm) (hs : v.slot d = some s)
    (phase : s.phase = .unborn ∨ s.phase = .copied)
    (large : intMax ≤ s.size / intMax → v.MayFail P .typeTooLarge) :
    (ledgerContract P t).wp (postPutRecv cfg d s.comp)
      (fun _ v' => ∃ e, v' = v.setSlot d (some { s with
        entry := some e, phase := .armed, rbuf := [] })) v := by
  refine (ledgerContract P t).wp_act ⟨ready, trivial⟩ ?_
  rintro device v' ⟨⟨e, of, small, rule, size, -⟩, -⟩
  obtain rfl : v = v' := e.symm
  have size := size s hs
  have length : toSize (device.putRbufSize : Int) = s.size := by
    rw [toSize_of_range (by omega) (by omega), size, Int.toNat_natCast]
  refine (ledgerContract P t).wp_act ⟨ready, .inr ⟨rfl, calm.permit, calm.acts, s, hs, rfl⟩⟩ ?_
  rintro p _ ⟨⟨away, made⟩, _, _, -, posted, completion, -⟩
  obtain rfl := made.trans calm.post
  apply wp_enterStreamCs ready
  refine (ledgerContract P t).wp_act ⟨ready, _, Account.token_setToken _, by simp⟩ ?_
  rintro q _ ⟨⟨rfl, x, hx, content⟩, -⟩
  replace hx := (Account.token_setToken _).symm.trans hx
  obtain rfl := Option.some.inj hx
  obtain rfl := Option.some.inj content
  refine (ledgerContract P t).wp_call (wp_irecv_put ready ?_ ?_ (by rw [posted])) ?_
  · simp only [length]
    exact large
  · intro n ty layout fits
    simp only [length] at layout fits
    refine ⟨⟨⟨calm.permit, calm.passed, calm.acts⟩, ⟨_, Account.token_setToken _, rfl, rfl⟩, ?_, ?_, ?_,
      ?_, ?_⟩, ?_, rfl, ?_, ⟨s, ?_, phase, ?_, completion⟩, ?_, fun on => ?_⟩
    all_goals simp only [posted, length]
    · exact layout
    · exact fits
    · exact of.comm
    · exact hs
    · exact of.putTag
    · rw [of.comm, ← rule on, size]
  · rintro h _ ⟨-, s', k, x, hs', rfl, hx, rfl⟩
    apply wp_leaveStreamCs ready
    rw [posted] at hs' ⊢
    obtain rfl : s = s' := Option.some.inj (hs.symm.trans hs')
    replace hx := (Account.token_setToken _).symm.trans hx
    obtain rfl := Option.some.inj hx
    refine (ledgerContract P t).wp_act ⟨ready, _, k, Account.slot_setSlot _, rfl, rfl, ?_⟩ ?_
    · simp only [posted]
      exact Account.token_setToken _
    · rintro _ _ ⟨⟨s', hs', rfl⟩, -⟩
      replace hs' := (Account.slot_setSlot _).symm.trans hs'
      obtain rfl := Option.some.inj hs'
      have rest (x : Option SlotView) : (v.setToken p none).setSlot d x = v.setSlot d x := by
        rw [Account.setToken_eq away]
      refine ⟨⟨some k, d, s.comp, p⟩, Eq.trans ?_ (rest _)⟩
      simp only [Account.setSlot, Account.setToken, Function.update_idem]

/-- What `do_progress` makes of a message that waits in the put slot: a block with the bytes, a
filled request, and a new receive. -/
theorem wp_putSlotTake {e : Entry} (calm : u.Calm) (hs : s.Took P st) (entry : s.entry = some e)
    (slot : e.SlotOf d) (rbuf : e.request.posted.buffer = .putRbuf d)
    (comp : e.completion = s.comp) (size : s.size / intMax < intMax) :
    (ledgerContract P t).wp (putSlotTake cfg d st)
      (fun e' v' => e' = e ∧ ∃ s' k b, s'.phase = .armed ∧ u.block k = none ∧
        (P.on = true → ∃ m, st.message = some m ∧ b = m.payload) ∧
        v' = ((u.setSlot d (some s')).setBlock k (some b)).setToken e.request
          (some ⟨.held, some { received cfg e.request.posted st with buffer := .heap k },
            some st, none⟩))
      ((u.setSlot d (some s)).setToken e.request
        (some ⟨.held, some e.request.posted, some st, none⟩)) := by
  have took := hs
  obtain ⟨phase, m, message, -, stored, small⟩ := hs
  have device : e.request.posted.device = d := by rw [← slot.coherent.device, slot.device]
  have bytes : st.bytes = m.payload.length := by simp [Status.bytes, message]
  have count (on : P.on = true) : toSize (getCount cfg st) = m.payload.length := by
    have fits := small on
    have bound : intMax < 2 ^ 64 := by decide
    unfold getCount
    rw [bytes, if_pos fits, toSize_of_range (by omega) (by omega), Int.toNat_natCast]
  refine (ledgerContract P t).wp_act ⟨ready, trivial⟩ ?_
  rintro e' _ ⟨⟨rfl, here⟩, -⟩
  obtain rfl : e = e' := Option.some.inj (entry.symm.trans (here s (Account.slot_setSlot _)))
  refine (ledgerContract P t).wp_act ⟨ready, _, Account.token_setToken _, by simp⟩ ?_
  rintro q _ ⟨⟨rfl, x, hx, content⟩, -⟩
  replace hx := (Account.token_setToken _).symm.trans hx
  obtain rfl := Option.some.inj hx
  obtain rfl := Option.some.inj content
  refine wp_lcwAssert ready (fun stop => by simp [slot.op] at stop) fun _ => ?_
  refine (ledgerContract P t).wp_act ⟨ready, d, s, st, Account.slot_setSlot _, took, rfl⟩ ?_
  rintro answer _ ⟨post, -⟩
  cases answer with
  | none =>
    obtain ⟨rfl, large⟩ := post
    refine ⟨⟨ready, fun on => absurd ?_ large⟩, fun r => nomatch r⟩
    have fits := small on
    have bound : intMax < 2 ^ 63 := by decide
    rw [count on]
    omega
  | some buffer =>
  obtain ⟨k, fresh, rfl, free, rfl⟩ := post
  refine (ledgerContract P t).wp_act ⟨ready, d, k, s, st, rbuf, rfl, Account.slot_setSlot _, phase,
    _, Account.block_setBlock _⟩ ?_
  rintro _ _ ⟨⟨d', k', s', src, dst, hs', rfl⟩, -⟩
  obtain rfl : d = d' := Buffer.putRbuf.inj (rbuf.symm.trans src)
  obtain rfl : k = k' := Buffer.heap.inj dst
  replace hs' := (Account.slot_setSlot _).symm.trans hs'
  obtain rfl := Option.some.inj hs'
  refine (ledgerContract P t).wp_act ⟨ready, _, Account.token_setToken _, by simp⟩ ?_
  rintro _ _ ⟨⟨x, hx, rfl⟩, -⟩
  replace hx := (Account.token_setToken _).symm.trans hx
  obtain rfl := Option.some.inj hx
  rw [device, comp]
  refine (ledgerContract P t).wp_call (wp_postPutRecv (s := { s with phase := .copied, rbuf := [] })
    ready ⟨calm.permit, calm.passed, calm.acts⟩ (Account.slot_setSlot _) (.inr rfl)
    fun large => absurd size (by simpa using large)) ?_
  rintro _ _ ⟨e', rfl⟩
  refine ⟨rfl, { s with entry := some e', phase := .armed, rbuf := [] }, k,
    s.rbuf.take (toSize (getCount cfg st)), rfl, free, fun on => ?_, ?_⟩
  · rw [count on]
    exact ⟨m, message, stored⟩
  · simp only [Account.setSlot, Account.setToken, Account.setBlock, Function.update_idem]

/-- The slot's request is tested: it stays, or its message waits in the buffer. -/
theorem wp_putSlotTest {e : Entry} {h : Handle} (calm : u.Calm) (phase : s.phase = .armed)
    (entry : s.entry = some e) (handle : e.mpiReq = some h) (slot : e.SlotOf d) :
    (ledgerContract P t).wp (putSlotTest cfg d)
      (fun answer v' => match answer with
        | none => v' = u.setSlot d (some s)
        | some st => u.token e.request = none ∧ ∃ s', s'.Took P st ∧
          s'.entry = some { e with mpiReq := none } ∧ s'.comp = s.comp ∧ s'.size = s.size ∧
          v' = (u.setSlot d (some s')).setToken e.request
            (some ⟨.held, some e.request.posted, some st, none⟩))
      (u.setSlot d (some s)) := by
  obtain ⟨comm, own⟩ := slot.coherent.handle h handle
  have comm : h.comm.device = d := comm.trans slot.device
  have put : h.request.posted.op = .putSignal := by rw [own, slot.op]
  apply wp_enterStreamCs ready
  refine (ledgerContract P t).wp_act ⟨ready, trivial⟩ ?_
  rintro r _ ⟨⟨rfl, answer⟩, -⟩
  obtain ⟨e', here, rfl⟩ := answer s (Account.slot_setSlot _)
  obtain rfl : e = e' := Option.some.inj (entry.symm.trans here)
  rw [handle]
  have may : (u.setSlot d (some s)).MayTest h :=
    ⟨⟨calm.permit, calm.passed, calm.acts⟩, fun user => absurd put user, fun _ =>
      ⟨s, e, comm.symm ▸ Account.slot_setSlot _, phase, entry, handle⟩⟩
  have tested : (ledgerContract P t).wp (mpiTest (some h)) (fun answer v' => match answer with
      | none => v' = u.setSlot d (some s)
      | some st => u.token e.request = none ∧ ∃ s', s'.Took P st ∧ s'.entry = some e ∧
        s'.comp = s.comp ∧ s'.size = s.size ∧ v' = (u.setSlot d (some s')).setToken e.request
          (some ⟨.held, some e.request.posted, some st, none⟩)) (u.setSlot d (some s)) := by
    refine (ledgerContract P t).wp_act ⟨ready, may⟩ fun answer v' done => ?_
    obtain ⟨post, -⟩ := done
    cases answer with
    | notYet => exact post
    | failed =>
      obtain ⟨rfl, off⟩ := post
      exact ⟨⟨ready, fun on => absurd put (off on)⟩, fun r => nomatch r⟩
    | done st =>
      simp only [ledgerPost, if_pos put] at post
      rw [comm, own] at post
      obtain ⟨away, s₀, s', hs₀, took, eq, rfl⟩ := post
      obtain rfl := Option.some.inj ((Account.slot_setSlot _).symm.trans hs₀)
      refine ⟨away, s', took, ?_, ?_, ?_, ?_⟩
      · rw [eq]
        exact entry
      · rw [eq]
      · rw [eq]
      · rw [Account.setSlot_setSlot]
  refine (ledgerContract P t).wp_call tested ?_
  rintro answer v' post
  cases answer with
  | none => exact wp_leaveStreamCs ready post
  | some st =>
    obtain ⟨away, s', took, entry', comp, size, rfl⟩ := post
    refine (ledgerContract P t).wp_act ⟨ready, s', st, Account.slot_setSlot _, took.phase⟩ ?_
    rintro _ _ ⟨⟨s₀, e₀, hs₀, he₀, rfl⟩, -⟩
    replace hs₀ := (Account.slot_setSlot _).symm.trans hs₀
    obtain rfl := Option.some.inj hs₀
    obtain rfl : e = e₀ := Option.some.inj (entry'.symm.trans he₀)
    apply wp_leaveStreamCs ready
    refine ⟨away, { s' with entry := some { e with mpiReq := none } },
      ⟨took.phase, took.stored⟩, rfl, comp, size, ?_⟩
    simp only [Account.setSlot, Account.setToken, Function.update_idem]

/-- The put slot is left as it was found, and the message taken from it is delivered. -/
theorem wp_putSlotProgress {device : Device} (settled : u.Settled cfg) (rank : d.rank = t.rank)
    (top : ∃ a rest, u.acts = ⟨.doProgress d, a⟩ :: rest) :
    (ledgerContract P t).wp (putSlotProgress cfg d device) (fun _ v' => v' = u) u := by
  have calm := settled.toCalm
  unfold putSlotProgress
  split
  · rfl
  refine wp_quiet ⟨ready, trivial⟩ (fun _ _ h => h.1) fun r _ => ?_
  split
  · rfl
  refine (ledgerContract P t).wp_act ⟨ready, top⟩ fun got v' done => ?_
  obtain ⟨post, -⟩ := done
  cases got with
  | false => exact post
  | true =>
  obtain ⟨free, s, armed, rfl⟩ := post
  obtain ⟨e, h, entry, handle, comp, slot, rbuf⟩ := armed.entry
  have unlock {s' : SlotView} (resting : s'.phase = .armed) {b : Bool} :
      (ledgerContract P t).wp (do act (.unlock (.put d)); return b : Code Bool)
        (fun _ v' => v' = u) (u.setSlot d (some s')) := by
    refine (ledgerContract P t).wp_act ⟨ready, s', Account.slot_setSlot _, resting⟩ ?_
    rintro _ _ ⟨rfl, -⟩
    rw [Account.setSlot_setSlot]
    exact Account.setSlot_eq free
  refine (ledgerContract P t).wp_act ⟨ready, trivial⟩ ?_
  rintro r _ ⟨⟨rfl, answer⟩, -⟩
  split
  · exact unlock armed.phase
  refine (ledgerContract P t).wp_call
    (wp_putSlotTest ready calm armed.phase entry handle slot) ?_
  rintro answer v' post
  cases answer with
  | none =>
    obtain rfl := post
    exact unlock armed.phase
  | some st =>
  obtain ⟨away, s', took, entry', comp', size', rfl⟩ := post
  have slot' : Entry.SlotOf { e with mpiReq := none } d := slot.clear
  refine (ledgerContract P t).wp_call (wp_putSlotTake (e := { e with mpiReq := none }) ready
    calm took entry' slot' rbuf (comp.trans comp'.symm) (size' ▸ armed.admitted)) ?_
  rintro e' _ ⟨rfl, s'', k, b, resting, fresh, whole, rfl⟩
  refine (ledgerContract P t).wp_act ⟨ready, s'', Account.slot_setSlot _, resting⟩ ?_
  rintro _ _ ⟨rfl, -⟩
  have rest : (u.setSlot d (some s'')).setSlot d none = u := by
    rw [Account.setSlot_setSlot]
    exact Account.setSlot_eq free
  have named : e.completion = e.request.completion := slot.coherent.completion
  have home : e.request.posted.device.rank = t.rank := by
    rw [← slot.coherent.device, slot.device, rank]
  have delivered : (ledgerContract P t).wp (signalComp cfg { e with mpiReq := none })
      (fun _ v' => v' = u) ((u.setBlock k (some b)).setToken e.request
        (some ⟨.held, some { received cfg e.request.posted st with buffer := .heap k },
          some st, none⟩)) := by
    refine wp_signalComp ready settled away (Account.token_setToken _) ?_ home ?_ ?_ ?_
    · simp [PermitFits, received, slot.op]
    · exact fun none on => absurd (comp.symm.trans none) (armed.comp on)
    · intro c hc
      refine ⟨⟨st, Account.token_setToken _, fun user => absurd slot.op user, fun _ =>
        ⟨k, b, rfl, ?_, whole⟩⟩, named.symm.trans hc⟩
      exact Account.block_setBlock _
    · unfold Account.told
      simp only [received, slot.op, Account.setToken_setToken]
      have back : (u.setBlock k (some b)).setBlock k none = u := by
        rw [Account.setBlock_setBlock]
        exact Account.setBlock_eq fresh
      exact congrArg (fun w => Account.setToken w e.request _) back
  have same : (((u.setSlot d (some s'')).setBlock k (some b)).setToken e.request
      (some ⟨.held, some { received cfg e.request.posted st with buffer := .heap k },
        some st, none⟩)).setSlot d none = (u.setBlock k (some b)).setToken e.request
      (some ⟨.held, some { received cfg e.request.posted st with buffer := .heap k },
        some st, none⟩) :=
    congrArg (fun w => (Account.setBlock w k (some b)).setToken e.request _) rest
  rw [same]
  refine (ledgerContract P t).wp_call delivered ?_
  rintro _ _ rfl
  rfl

/-- `do_progress` has nothing left in hand when it returns. -/
theorem wp_doProgress (settled : u.Settled cfg) (rank : d.rank = t.rank)
    (top : ∃ a rest, u.acts = ⟨.doProgress d, a⟩ :: rest) :
    (ledgerContract P t).wp (doProgress cfg d) (fun _ v' => v' = u) u := by
  refine (ledgerContract P t).wp_act ⟨ready, trivial⟩ ?_
  rintro device _ ⟨⟨rfl, of, -⟩, -⟩
  refine (ledgerContract P t).wp_call (wp_putSlotProgress ready settled rank top) ?_
  rintro _ _ rfl
  obtain ⟨a, rest, top⟩ := top
  refine (ledgerContract P t).wp_call (wp_managerDoProgress ready settled
    (of.manager_rank.trans rank) ⟨d, a, rest, top⟩) ?_
  rintro _ _ rfl
  rfl

end Ledger

end Lcw.Mpi
