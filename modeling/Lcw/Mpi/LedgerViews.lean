/- digest: What each operation does to the account of its thread, and not to any other. -/

import Lcw.Mpi.Ledger

set_option autoImplicit false
set_option relaxedAutoImplicit false

namespace Lcw.Mpi

open Interleave
open Function (update)

variable {cfg : Config} {P : PutRules cfg} {t u : Tid} {w w' : World}

section Access

theorem tokenOf_eq_some {p : RequestPtr} {x : Token} :
    tokenOf t w p = some x ↔ w.store.stage p = .owned t x.kind ∧ w.store.heap p = x.content ∧
      w.net.result p = x.result ∧ w.pend.permitOf p = x.permit := by
  unfold tokenOf
  cases h : w.store.stage p with
  | owned v k =>
    by_cases hv : v = t
    · subst hv
      simp only [if_true, Option.some.injEq, Stage.owned.injEq, true_and]
      constructor
      · rintro rfl
        exact ⟨rfl, rfl, rfl, rfl⟩
      · rintro ⟨rfl, h1, h2, h3⟩
        rw [h1, h2, h3]
    · simp [hv]
  | _ => simp

theorem tokenOf_eq_none {p : RequestPtr} (h : ∀ k, w.store.stage p ≠ .owned t k) :
    tokenOf t w p = none := by
  cases hx : tokenOf t w p with
  | none => rfl
  | some x => exact (h x.kind (tokenOf_eq_some.mp hx).1).elim

theorem tokenOf_of_owned {p : RequestPtr} {k : Owning} (h : w.store.stage p = .owned t k) :
    tokenOf t w p = some ⟨k, w.store.heap p, w.net.result p, w.pend.permitOf p⟩ :=
  tokenOf_eq_some.mpr ⟨h, rfl, rfl, rfl⟩

theorem tokenOf_of_other {p : RequestPtr} {k : Owning} (h : w.store.stage p = .owned t k)
    (hu : u ≠ t) : tokenOf u w p = none :=
  tokenOf_eq_none fun _ e => hu (Stage.owned.inj (e.symm.trans h)).1

theorem slotOf_eq_some {d : Dev} {s : SlotView} :
    slotOf t w d = some s ↔ Controls t w d ∧ s = slotView w d := by
  unfold slotOf
  by_cases h : Controls t w d
  · rw [if_pos h]
    exact ⟨fun e => ⟨h, (Option.some.inj e).symm⟩, fun e => by rw [e.2]⟩
  · rw [if_neg h]
    exact ⟨nofun, fun e => absurd e.1 h⟩

theorem slotOf_eq_none {d : Dev} (h : ¬ Controls t w d) : slotOf t w d = none := if_neg h

theorem blockOf_eq_some {k : Nat} {b : List Byte} : blockOf t w k = some b ↔
    w.memory.blockOwner k = some t ∧ w.memory.bytes (.heap k) = b := by
  unfold blockOf
  split <;> simp_all

theorem blockOf_eq_none {k : Nat} (h : w.memory.blockOwner k ≠ some t) : blockOf t w k = none :=
  if_neg h

end Access

section Change

/-- Nothing is different about one `request_t`. -/
structure SameAt (w w' : World) (p : RequestPtr) : Prop where
  stage : w'.store.stage p = w.store.stage p
  heap : w'.store.heap p = w.store.heap p
  result : w'.net.result p = w.net.result p
  permit : w'.pend.permitOf p = w.pend.permitOf p

theorem SameAt.tokenOf {p : RequestPtr} (h : SameAt w w' p) : tokenOf u w' p = tokenOf u w p := by
  unfold Mpi.tokenOf
  rw [h.stage, h.heap, h.result, h.permit]

theorem tokenOf_update {p : RequestPtr} {x : Option Token} (h : ∀ q, q ≠ p → SameAt w w' q)
    (hx : tokenOf u w' p = x) : tokenOf u w' = update (tokenOf u w) p x :=
  Function.eq_update_iff.mpr ⟨hx, fun q hq => (h q hq).tokenOf⟩

theorem tokenOf_same {p : RequestPtr} (h : ∀ q, q ≠ p → SameAt w w' q)
    (before : tokenOf u w p = none) (after : tokenOf u w' p = none) :
    tokenOf u w' = tokenOf u w := by
  rw [tokenOf_update h after, ← before, Function.update_eq_self]

theorem slotOf_update {d : Dev} {x : Option SlotView}
    (h : ∀ d', d' ≠ d → slotOf u w' d' = slotOf u w d') (hx : slotOf u w' d = x) :
    slotOf u w' = update (slotOf u w) d x :=
  Function.eq_update_iff.mpr ⟨hx, h⟩

theorem slotOf_same {d : Dev} (h : ∀ d', d' ≠ d → slotOf u w' d' = slotOf u w d')
    (before : slotOf u w d = none) (after : slotOf u w' d = none) :
    slotOf u w' = slotOf u w := by
  rw [slotOf_update h after, ← before, Function.update_eq_self]

theorem blockOf_update {k : Nat} {x : Option (List Byte)}
    (h : ∀ k', k' ≠ k → blockOf u w' k' = blockOf u w k') (hx : blockOf u w' k = x) :
    blockOf u w' = update (blockOf u w) k x :=
  Function.eq_update_iff.mpr ⟨hx, h⟩

theorem blockOf_same {k : Nat} (h : ∀ k', k' ≠ k → blockOf u w' k' = blockOf u w k')
    (before : blockOf u w k = none) (after : blockOf u w' k = none) :
    blockOf u w' = blockOf u w := by
  rw [blockOf_update h after, ← before, Function.update_eq_self]

theorem slotOf_congr {d : Dev} (owner : w'.sync.owner (.put d) = w.sync.owner (.put d))
    (builder : w'.devs.builder d = w.devs.builder d) (view : slotView w' d = slotView w d) :
    slotOf u w' d = slotOf u w d := by
  have same : Controls u w' d ↔ Controls u w d := by
    unfold Controls
    rw [owner, builder]
  unfold slotOf
  simp only [same, view]

/-- Two threads never work on one put slot. -/
theorem Slots.unique (h : Slots P w) {d : Dev} (ht : Controls t w d) (hu : Controls u w d) :
    u = t := by
  unfold Controls at ht hu
  rcases ht with ht | ht <;> rcases hu with hu | hu
  · exact Option.some.inj (hu.symm.trans ht)
  · have free := (h.locked d (by simp [ht])).1
    simp [free] at hu
  · have free := (h.locked d (by simp [hu])).1
    simp [free] at ht
  · exact Option.some.inj (hu.symm.trans ht)

theorem Slots.not_controls (h : Slots P w) {d : Dev} (ht : Controls t w d) (hu : u ≠ t) :
    ¬ Controls u w d := fun hc => hu (h.unique ht hc)

end Change

section Pending

theorem account_loadPending_self : account t (w.loadPending cfg t).2 =
    (account t w).setPassed (decide (w.pend.value t.rank ≤ cfg.pendingMsgMax)) := by
  refine Account.ext rfl rfl ?_ rfl rfl rfl
  simp only [account, World.loadPending, Function.update_self]
  rfl

theorem account_loadPending_of_ne (hu : u ≠ t) :
    account u (w.loadPending cfg t).2 = account u w := by
  refine Account.ext rfl rfl ?_ rfl rfl rfl
  simp only [account, World.loadPending, Function.update_of_ne hu]

theorem account_fetchAddPending_self : account t (w.fetchAddPending t) =
    ((account t w).setPassed false).setPermit (some (w.pend.admitted t.rank)) := by
  refine Account.ext rfl ?_ ?_ rfl rfl rfl
  · simp only [account, World.fetchAddPending, Function.update_self]
    rfl
  · simp only [account, World.fetchAddPending, Function.update_self]
    rfl

theorem account_fetchAddPending_of_ne (hu : u ≠ t) :
    account u (w.fetchAddPending t) = account u w := by
  refine Account.ext rfl ?_ ?_ rfl rfl rfl
  · simp only [account, World.fetchAddPending, Function.update_of_ne hu]
  · simp only [account, World.fetchAddPending, Function.update_of_ne hu]

theorem sameAt_fetchSub {p q : RequestPtr} (h : q ≠ p) :
    SameAt w (w.fetchSubPending t p) q :=
  ⟨rfl, rfl, rfl, by simp only [World.fetchSubPending, Function.update_of_ne h]⟩

theorem account_fetchSubPending_self {p : RequestPtr} {x : Token}
    (hx : (account t w).token p = some x) : account t (w.fetchSubPending t p) =
    (account t w).setToken p (some { x with permit := none }) := by
  obtain ⟨stage, heap, result, permit⟩ := tokenOf_eq_some.mp hx
  refine Account.ext ?_ rfl rfl rfl rfl rfl
  refine tokenOf_update (fun q hq => sameAt_fetchSub hq) ?_
  refine tokenOf_eq_some.mpr ⟨stage, heap, result, ?_⟩
  simp only [World.fetchSubPending, Function.update_self]

theorem account_fetchSubPending_of_ne {p : RequestPtr} {x : Token}
    (hx : (account t w).token p = some x) (hu : u ≠ t) :
    account u (w.fetchSubPending t p) = account u w := by
  have stage := (tokenOf_eq_some.mp hx).1
  refine Account.ext ?_ rfl rfl rfl rfl rfl
  exact tokenOf_same (fun q hq => sameAt_fetchSub hq) (tokenOf_of_other stage hu)
    (tokenOf_of_other stage hu)

end Pending

section Locks

theorem account_setOwner {l : Lock} {x : Option Tid} (hl : ∀ d, l ≠ .put d) :
    account u (w.setOwner l x) = account u w := by
  refine Account.ext rfl rfl rfl rfl ?_ rfl
  funext d
  refine slotOf_congr ?_ rfl rfl
  simp only [World.setOwner, Function.update_of_ne (hl d).symm]

private theorem slotOf_setOwner_of_ne {d d' : Dev} {x : Option Tid} (h : d' ≠ d) :
    slotOf u (w.setOwner (.put d) x) d' = slotOf u w d' := by
  refine slotOf_congr ?_ rfl rfl
  have other : (Lock.put d') ≠ .put d := fun e => h (Lock.put.inj e)
  simp only [World.setOwner, Function.update_of_ne other]

theorem account_lockPut_self {d : Dev} : account t (w.setOwner (.put d) (some t)) =
    (account t w).setSlot d (some (slotView w d)) := by
  refine Account.ext rfl rfl rfl rfl ?_ rfl
  refine slotOf_update (fun d' hd => slotOf_setOwner_of_ne hd) ?_
  refine slotOf_eq_some.mpr ⟨.inl ?_, rfl⟩
  simp only [World.setOwner, Function.update_self]

theorem account_lockPut_of_ne {d : Dev} (free : w.sync.owner (.put d) = none)
    (built : w.devs.builder d = none) (hu : u ≠ t) :
    account u (w.setOwner (.put d) (some t)) = account u w := by
  refine Account.ext rfl rfl rfl rfl ?_ rfl
  refine slotOf_same (fun d' hd => slotOf_setOwner_of_ne hd) ?_ ?_
  · exact slotOf_eq_none (by simp [Controls, free, built])
  · exact slotOf_eq_none (by simp [Controls, World.setOwner, built, hu.symm])

theorem account_unlockPut_self {d : Dev} (built : w.devs.builder d = none) :
    account t (w.setOwner (.put d) none) = (account t w).setSlot d none := by
  refine Account.ext rfl rfl rfl rfl ?_ rfl
  refine slotOf_update (fun d' hd => slotOf_setOwner_of_ne hd) ?_
  exact slotOf_eq_none (by simp [Controls, World.setOwner, built])

theorem account_unlockPut_of_ne {d : Dev} (mine : w.sync.owner (.put d) = some t)
    (built : w.devs.builder d = none) (hu : u ≠ t) :
    account u (w.setOwner (.put d) none) = account u w := by
  refine Account.ext rfl rfl rfl rfl ?_ rfl
  refine slotOf_same (fun d' hd => slotOf_setOwner_of_ne hd) ?_ ?_
  · exact slotOf_eq_none (by simp [Controls, mine, built, hu.symm])
  · exact slotOf_eq_none (by simp [Controls, World.setOwner, built])

end Locks

section Requests

theorem Filed.fresh (h : Filed cfg w) (q : Request) (c : Option Comp) :
    w.store.stage (w.freshPtr q c) = .unborn := by
  by_contra stage
  have bound := h.ptr _ stage
  simp [World.freshPtr] at bound

theorem pend_bindPermit_of_ne {p q : RequestPtr} (h : q ≠ p) :
    (w.bindPermit t p).pend.permitOf q = w.pend.permitOf q := by
  unfold World.bindPermit
  split
  · simp only [Function.update_of_ne h]
  · rfl

theorem pend_newRequest_of_ne {q : Request} {c : Option Comp} {p : RequestPtr}
    (h : p ≠ w.freshPtr q c) :
    (w.newRequest t q c).pend.permitOf p = w.pend.permitOf p := by
  unfold World.newRequest
  split
  · exact pend_bindPermit_of_ne h
  · rfl

theorem pend_newRequest_passed {q : Request} {c : Option Comp} :
    (w.newRequest t q c).pend.passed = w.pend.passed := by
  unfold World.newRequest World.bindPermit
  split
  · split <;> rfl
  · rfl

theorem pend_newRequest_permit_of_ne {q : Request} {c : Option Comp} (h : u ≠ t) :
    (w.newRequest t q c).pend.permit u = w.pend.permit u := by
  unfold World.newRequest World.bindPermit
  split
  · split
    · simp only [Function.update_of_ne h]
    · rfl
  · rfl

/-- The permit a thread brings goes to the request it creates. -/
theorem pend_newRequest_self {q : Request} {c : Option Comp}
    (fresh : w.pend.permitOf (w.freshPtr q c) = none)
    (fits : (w.pend.permit t).isSome = true → q.op = .send ∨ q.op = .put) :
    (w.newRequest t q c).pend.permit t = none ∧
      (w.newRequest t q c).pend.permitOf (w.freshPtr q c) = w.pend.permit t := by
  unfold World.newRequest World.bindPermit
  cases hp : w.pend.permit t with
  | none =>
    split
    · exact ⟨hp, fresh⟩
    · exact ⟨hp, fresh⟩
  | some a =>
    have pays := fits (by simp [hp])
    simp only [pays, if_true, Function.update_self, and_self]

theorem sameAt_newRequest {q : Request} {c : Option Comp} {p : RequestPtr}
    (h : p ≠ w.freshPtr q c) : SameAt w (w.newRequest t q c) p where
  stage := by rw [World.newRequest_store]; simp only [Function.update_of_ne h]
  heap := by rw [World.newRequest_store]; simp only [Function.update_of_ne h]
  result := by rw [World.newRequest_eq]
  permit := pend_newRequest_of_ne h

theorem account_newRequest_self (h : Books P w) {q : Request} {c : Option Comp}
    (fits : (w.pend.permit t).isSome = true → q.op = .send ∨ q.op = .put) :
    account t (w.newRequest t q c) = ((account t w).setToken (w.freshPtr q c)
      (some ⟨.posting, some q, none, w.pend.permit t⟩)).setPermit none := by
  have unborn := h.filed.fresh q c
  have noResult : w.net.result (w.freshPtr q c) = none := by
    by_contra result
    have begun := h.matching.resultBegun _ result
    simp [unborn, Stage.begun] at begun
  have noPermit : w.pend.permitOf (w.freshPtr q c) = none := by
    by_contra permit
    exact (h.permits.live _ permit).1 unborn
  obtain ⟨gone, bound⟩ := pend_newRequest_self noPermit fits
  refine Account.ext ?_ gone ?_ ?_ ?_ ?_
  · refine tokenOf_update (fun p hp => sameAt_newRequest hp) ?_
    refine tokenOf_eq_some.mpr ⟨?_, ?_, ?_, bound⟩
    · rw [World.newRequest_store]
      simp only [Function.update_self]
    · rw [World.newRequest_store]
      simp only [Function.update_self]
    · rw [World.newRequest_eq]
      exact noResult
  · exact congrFun pend_newRequest_passed t
  all_goals rw [World.newRequest_eq]; rfl

theorem account_newRequest_of_ne (h : Books P w) {q : Request} {c : Option Comp} (hu : u ≠ t) :
    account u (w.newRequest t q c) = account u w := by
  have unborn := h.filed.fresh q c
  refine Account.ext ?_ (pend_newRequest_permit_of_ne hu) ?_ ?_ ?_ ?_
  · refine tokenOf_same (fun p hp => sameAt_newRequest hp) ?_ ?_
    · exact tokenOf_eq_none (by simp [unborn])
    · refine tokenOf_eq_none fun k => ?_
      rw [World.newRequest_store]
      simp [hu.symm]
  · exact congrFun pend_newRequest_passed u
  all_goals rw [World.newRequest_eq]; rfl

theorem sameAt_setHeap {p q : RequestPtr} {r : Option Request} (h : q ≠ p) :
    SameAt w (w.setHeap p r) q :=
  ⟨rfl, by simp only [World.setHeap, Function.update_of_ne h], rfl, rfl⟩

theorem account_writeRequest_self {p : RequestPtr} {q : Request} {x : Token}
    (hx : (account t w).token p = some x) : account t (w.setHeap p (some q)) =
    (account t w).setToken p (some { x with content := some q }) := by
  obtain ⟨stage, -, result, permit⟩ := tokenOf_eq_some.mp hx
  refine Account.ext ?_ rfl rfl rfl rfl rfl
  refine tokenOf_update (fun q hq => sameAt_setHeap hq) ?_
  refine tokenOf_eq_some.mpr ⟨stage, ?_, result, permit⟩
  simp only [World.setHeap, Function.update_self]

theorem account_writeRequest_of_ne {p : RequestPtr} {q : Request} {x : Token}
    (hx : (account t w).token p = some x) (hu : u ≠ t) :
    account u (w.setHeap p (some q)) = account u w := by
  have stage := (tokenOf_eq_some.mp hx).1
  refine Account.ext ?_ rfl rfl rfl rfl rfl
  exact tokenOf_same (fun q hq => sameAt_setHeap hq) (tokenOf_of_other stage hu)
    (tokenOf_of_other stage hu)

theorem sameAt_delete {p q : RequestPtr} (h : q ≠ p) :
    SameAt w ((w.setHeap p none).setStage p .gone) q where
  stage := by simp only [World.setStage, World.setHeap, Function.update_of_ne h]
  heap := by simp only [World.setStage, World.setHeap, Function.update_of_ne h]
  result := rfl
  permit := rfl

private theorem tokenOf_setStage {p : RequestPtr} {s : Stage} (h : ∀ k, s ≠ .owned u k) :
    tokenOf u (w.setStage p s) p = none :=
  tokenOf_eq_none fun k => by simpa [World.setStage] using h k

theorem account_deleteRequest_self {p : RequestPtr} :
    account t ((w.setHeap p none).setStage p .gone) = (account t w).setToken p none := by
  refine Account.ext ?_ rfl rfl rfl rfl rfl
  exact tokenOf_update (fun q hq => sameAt_delete hq) (tokenOf_setStage (by simp))

theorem account_deleteRequest_of_ne {p : RequestPtr} {x : Token}
    (hx : (account t w).token p = some x) (hu : u ≠ t) :
    account u ((w.setHeap p none).setStage p .gone) = account u w := by
  have stage := (tokenOf_eq_some.mp hx).1
  refine Account.ext ?_ rfl rfl rfl rfl rfl
  exact tokenOf_same (fun q hq => sameAt_delete hq) (tokenOf_of_other stage hu)
    (tokenOf_setStage (by simp))

end Requests

section Managers

theorem noteAdded_acts_of_ne {p : RequestPtr} (hu : u ≠ t) :
    (w.noteAdded t p).client.acts u = w.client.acts u := by
  unfold World.noteAdded
  split
  · simp only [Function.update_of_ne hu]
  · rfl

theorem noteAdded_acts_self {p : RequestPtr} {k : Owning} (stage : w.store.stage p = .owned t k) :
    (w.noteAdded t p).client.acts t = ((account t w).handed p k).acts := by
  unfold World.noteAdded Account.handed
  rw [stage]
  simp only [Account.setToken, account]
  cases k <;> cases h : w.client.acts t <;> simp [Account.setActs, h]

theorem handed_token {v : Account} {p : RequestPtr} {k : Owning} :
    (v.handed p k).token = update v.token p none := by
  unfold Account.handed
  simp only [Account.setToken]
  split <;> rfl

/-- What a manager operation does to the accounts, whichever list of the manager it fills. -/
private theorem account_hand_self {e : Entry} {x : Token} {s : Stage}
    (hx : (account t w).token e.request = some x) (hs : ∀ k, s ≠ .owned t k)
    (stage : w'.store.stage = update w.store.stage e.request s)
    (heap : w'.store.heap = w.store.heap) (slot : w'.store.slot = w.store.slot)
    (client : w'.client = (w.noteAdded t e.request).client) (sync : w'.sync = w.sync)
    (pend : w'.pend = w.pend) (net : w'.net = w.net) (memory : w'.memory = w.memory)
    (devs : w'.devs = w.devs) :
    account t w' = (account t w).handed e.request x.kind := by
  have owned := (tokenOf_eq_some.mp hx).1
  have same (q : RequestPtr) (hq : q ≠ e.request) : SameAt w w' q :=
    ⟨by rw [stage, Function.update_of_ne hq], by rw [heap], by rw [net], by rw [pend]⟩
  have acts : w'.client.acts t = ((account t w).handed e.request x.kind).acts := by
    rw [client, noteAdded_acts_self owned]
  have rest : ((account t w).handed e.request x.kind).permit = w.pend.permit t ∧
      ((account t w).handed e.request x.kind).passed = w.pend.passed t ∧
      ((account t w).handed e.request x.kind).slot = slotOf t w ∧
      ((account t w).handed e.request x.kind).block = blockOf t w := by
    unfold Account.handed
    simp only [Account.setToken]
    split <;> exact ⟨rfl, rfl, rfl, rfl⟩
  obtain ⟨permit, passed, slots, blocks⟩ := rest
  refine Account.ext ?_ ?_ ?_ acts ?_ ?_
  · rw [handed_token]
    refine tokenOf_update same (tokenOf_eq_none fun k => ?_)
    rw [stage, Function.update_self]
    exact hs k
  · rw [permit]
    simp only [account, pend]
  · rw [passed]
    simp only [account, pend]
  · rw [slots]
    funext d
    exact slotOf_congr (by rw [sync]) (by rw [devs])
      (by simp only [slotView, slot, net, memory, devs])
  · rw [blocks]
    funext k
    simp only [account, blockOf, memory]

private theorem account_hand_of_ne {e : Entry} {x : Token} {s : Stage}
    (hx : (account t w).token e.request = some x) (hs : ∀ k, s ≠ .owned u k)
    (stage : w'.store.stage = update w.store.stage e.request s)
    (heap : w'.store.heap = w.store.heap) (slot : w'.store.slot = w.store.slot)
    (client : w'.client = (w.noteAdded t e.request).client) (sync : w'.sync = w.sync)
    (pend : w'.pend = w.pend) (net : w'.net = w.net) (memory : w'.memory = w.memory)
    (devs : w'.devs = w.devs) (hu : u ≠ t) : account u w' = account u w := by
  have owned := (tokenOf_eq_some.mp hx).1
  have same (q : RequestPtr) (hq : q ≠ e.request) : SameAt w w' q :=
    ⟨by rw [stage, Function.update_of_ne hq], by rw [heap], by rw [net], by rw [pend]⟩
  refine Account.ext ?_ ?_ ?_ ?_ ?_ ?_
  · refine tokenOf_same same (tokenOf_of_other owned hu) (tokenOf_eq_none fun k => ?_)
    rw [stage, Function.update_self]
    exact hs k
  · simp only [account, pend]
  · simp only [account, pend]
  · simp only [account, client]
    exact noteAdded_acts_of_ne hu
  · funext d
    exact slotOf_congr (by rw [sync]) (by rw [devs])
      (by simp only [slotView, slot, net, memory, devs])
  · funext k
    simp only [account, blockOf, memory]

theorem account_pushBack_self {m : Manager} {e : Entry} {x : Token}
    (hx : (account t w).token e.request = some x) :
    account t (w.pushBack t m e) = (account t w).handed e.request x.kind := by
  rw [World.pushBack_eq]
  exact account_hand_self hx (by simp) rfl rfl rfl rfl rfl rfl rfl rfl rfl

theorem account_pushBack_of_ne {m : Manager} {e : Entry} {x : Token}
    (hx : (account t w).token e.request = some x) (hu : u ≠ t) :
    account u (w.pushBack t m e) = account u w := by
  rw [World.pushBack_eq]
  exact account_hand_of_ne hx (by simp) rfl rfl rfl rfl rfl rfl rfl rfl rfl hu

theorem account_attach_self {m : Manager} {e : Entry} {x : Token}
    (hx : (account t w).token e.request = some x) :
    account t (w.attach t m e) = (account t w).handed e.request x.kind := by
  rw [World.attach_eq]
  exact account_hand_self hx (by simp) rfl rfl rfl rfl rfl rfl rfl rfl rfl

theorem account_attach_of_ne {m : Manager} {e : Entry} {x : Token}
    (hx : (account t w).token e.request = some x) (hu : u ≠ t) :
    account u (w.attach t m e) = account u w := by
  rw [World.attach_eq]
  exact account_hand_of_ne hx (by simp) rfl rfl rfl rfl rfl rfl rfl rfl rfl hu

theorem sameAt_popFront {m : Manager} {e : Entry} {rest : List Entry} {q : RequestPtr}
    (h : q ≠ e.request) : SameAt w (w.popFront t m e rest) q :=
  ⟨by simp only [World.popFront, Function.update_of_ne h], rfl, rfl, rfl⟩

theorem account_popFront_self {m : Manager} {e : Entry} {rest : List Entry} :
    account t (w.popFront t m e rest) = (account t w).setToken e.request
      (some ⟨.held, w.store.heap e.request, w.net.result e.request,
        w.pend.permitOf e.request⟩) := by
  refine Account.ext ?_ rfl rfl rfl rfl rfl
  refine tokenOf_update (fun q hq => sameAt_popFront hq) (tokenOf_of_owned ?_)
  simp only [World.popFront, Function.update_self]

theorem account_popFront_of_ne {m : Manager} {e : Entry} {rest : List Entry}
    (queued : w.store.stage e.request = .queued m) (hu : u ≠ t) :
    account u (w.popFront t m e rest) = account u w := by
  refine Account.ext ?_ rfl rfl rfl rfl rfl
  refine tokenOf_same (fun q hq => sameAt_popFront hq) (tokenOf_eq_none (by simp [queued])) ?_
  exact tokenOf_eq_none fun k => by simp [World.popFront, hu.symm]

end Managers

section PutSlot

theorem account_setPhase_self {d : Dev} {x : Phase} {s : SlotView} (hx : x.full = false)
    (hs : (account t w).slot d = some s) : account t (w.setPhase d x) =
    (account t w).setSlot d (some { s with phase := x, rbuf := [] }) := by
  obtain ⟨controls, rfl⟩ := slotOf_eq_some.mp hs
  refine Account.ext rfl rfl rfl rfl ?_ rfl
  refine slotOf_update (fun d' hd => slotOf_congr rfl rfl ?_) ?_
  · simp only [slotView, World.setPhase, Function.update_of_ne hd]
  · refine slotOf_eq_some.mpr ⟨controls, ?_⟩
    simp [slotView, World.setPhase, hx]

theorem account_setPhase_of_ne {d : Dev} {x : Phase} (hu : ¬ Controls u w d) :
    account u (w.setPhase d x) = account u w := by
  refine Account.ext rfl rfl rfl rfl ?_ rfl
  refine slotOf_same (fun d' hd => slotOf_congr rfl rfl ?_) (slotOf_eq_none hu) (slotOf_eq_none hu)
  simp only [slotView, World.setPhase, Function.update_of_ne hd]

theorem account_clearSlot_self {d : Dev} {e : Entry} {s : SlotView}
    (hs : (account t w).slot d = some s) : account t (w.setSlot d e) =
    (account t w).setSlot d (some { s with entry := some e }) := by
  obtain ⟨controls, rfl⟩ := slotOf_eq_some.mp hs
  refine Account.ext rfl rfl rfl rfl ?_ rfl
  refine slotOf_update (fun d' hd => slotOf_congr rfl rfl ?_) ?_
  · simp only [slotView, World.setSlot, Function.update_of_ne hd]
  · refine slotOf_eq_some.mpr ⟨controls, ?_⟩
    simp [slotView, World.setSlot]

theorem account_setSlot_of_ne {d : Dev} {e : Entry} (hu : ¬ Controls u w d) :
    account u (w.setSlot d e) = account u w := by
  refine Account.ext rfl rfl rfl rfl ?_ rfl
  refine slotOf_same (fun d' hd => slotOf_congr rfl rfl ?_) (slotOf_eq_none hu) (slotOf_eq_none hu)
  simp only [slotView, World.setSlot, Function.update_of_ne hd]

theorem sameAt_setStage {p q : RequestPtr} {s : Stage} (h : q ≠ p) :
    SameAt w (w.setStage p s) q :=
  ⟨by simp only [World.setStage, Function.update_of_ne h], rfl, rfl, rfl⟩

theorem account_setStage_none {p : RequestPtr} {s : Stage} (hs : ∀ k, s ≠ .owned t k) :
    account t (w.setStage p s) = (account t w).setToken p none := by
  refine Account.ext ?_ rfl rfl rfl rfl rfl
  exact tokenOf_update (fun q hq => sameAt_setStage hq) (tokenOf_setStage hs)

theorem account_setStage_of_ne {p : RequestPtr} {s : Stage}
    (before : ∀ k, w.store.stage p ≠ .owned u k) (after : ∀ k, s ≠ .owned u k) :
    account u (w.setStage p s) = account u w := by
  refine Account.ext ?_ rfl rfl rfl rfl rfl
  exact tokenOf_same (fun q hq => sameAt_setStage hq) (tokenOf_eq_none before)
    (tokenOf_setStage after)

theorem account_writeSlot_self {d : Dev} {e : Entry} {s : SlotView}
    (hs : (account t w).slot d = some s) :
    account t (((w.setSlot d e).setPhase d .armed).setStage e.request (.armed d)) =
      ((account t w).setSlot d (some { s with
        entry := some e, phase := .armed, rbuf := [] })).setToken e.request none := by
  have slot : (account t (w.setSlot d e)).slot d = some { s with entry := some e } := by
    rw [account_clearSlot_self hs]
    simp [Account.setSlot]
  rw [account_setStage_none (by simp), account_setPhase_self rfl slot, account_clearSlot_self hs]
  simp [Account.setSlot, Account.setToken]

theorem account_writeSlot_of_ne {d : Dev} {e : Entry} (hu : ¬ Controls u w d)
    (token : ∀ k, w.store.stage e.request ≠ .owned u k) :
    account u (((w.setSlot d e).setPhase d .armed).setStage e.request (.armed d)) =
      account u w := by
  have keeps : ¬ Controls u (w.setSlot d e) d := hu
  have before : ∀ k, ((w.setSlot d e).setPhase d .armed).store.stage e.request ≠ .owned u k :=
    token
  rw [account_setStage_of_ne before (by simp), account_setPhase_of_ne keeps,
    account_setSlot_of_ne hu]

end PutSlot

section Starting

variable {null : Bool} {comm : Comm} {p : RequestPtr} {q : MpiRequest}

theorem start_isNone : (w.start cfg t null comm p q).1.isNone = null := by
  unfold World.start
  cases null <;> rfl

theorem sameAt_start {r : RequestPtr} (h : r ≠ p) :
    SameAt w (w.start cfg t null comm p q).2 r := by
  unfold World.start
  cases null
  · exact ⟨by simp [World.setReq, World.setStage, Function.update_of_ne h], rfl, rfl, rfl⟩
  · exact ⟨by simp [World.setResult, World.setStage, Function.update_of_ne h], rfl,
      by simp [World.setResult, World.setStage, Function.update_of_ne h], rfl⟩

theorem sameAt_isend {a : Buffer} {l : List Int} {dest tag : Int} {r : RequestPtr} (h : r ≠ p) :
    SameAt w (w.isend cfg t a l dest tag comm p).2 r := by
  have same : SameAt (w.enqueue (w.message t a l dest tag comm p))
      (w.isend cfg t a l dest tag comm p).2 r := sameAt_start h
  exact ⟨same.stage, same.heap, same.result, same.permit⟩

theorem sameAt_irecv {a : Buffer} {l : List Int} {source tag : Int} {r : RequestPtr} (h : r ≠ p) :
    SameAt w (w.irecv cfg t a l source tag comm p).2 r := by
  have same : SameAt (w.expect comm p) (w.irecv cfg t a l source tag comm p).2 r :=
    sameAt_start h
  have before : SameAt w (w.expect comm p) r := by
    unfold World.expect
    split <;> exact ⟨rfl, rfl, rfl, rfl⟩
  exact ⟨same.stage.trans before.stage, same.heap.trans before.heap,
    same.result.trans before.result, same.permit.trans before.permit⟩

theorem account_start_self {x : Token} (hx : (account t w).token p = some x)
    (hr : x.result = none) : account t (w.start cfg t null comm p q).2 =
    (account t w).setToken p (some { x with
      kind := .started, result := if null then some cfg.indeterminate else none }) := by
  obtain ⟨-, heap, result, permit⟩ := tokenOf_eq_some.mp hx
  have token : tokenOf t (w.start cfg t null comm p q).2 p = some { x with
      kind := .started, result := if null then some cfg.indeterminate else none } := by
    unfold World.start
    cases null
    · refine tokenOf_eq_some.mpr ⟨?_, heap, ?_, permit⟩
      · simp [World.setReq, World.setStage]
      · exact result.trans hr
    · refine tokenOf_eq_some.mpr ⟨?_, heap, ?_, permit⟩
      · simp [World.setResult, World.setStage]
      · simp [World.setResult, World.setStage]
  refine Account.ext (tokenOf_update (fun r hr => sameAt_start hr) token) ?_ ?_ ?_ ?_ ?_
  all_goals
    unfold World.start
    cases null <;> rfl

theorem account_start_of_ne {x : Token} (hx : (account t w).token p = some x) (hu : u ≠ t) :
    account u (w.start cfg t null comm p q).2 = account u w := by
  have owned := (tokenOf_eq_some.mp hx).1
  have after : tokenOf u (w.start cfg t null comm p q).2 p = none := by
    refine tokenOf_eq_none fun k => ?_
    unfold World.start
    cases null
    · simp [World.setReq, World.setStage, hu.symm]
    · simp [World.setResult, World.setStage, hu.symm]
  refine Account.ext (tokenOf_same (fun r hr => sameAt_start hr) (tokenOf_of_other owned hu) after)
    ?_ ?_ ?_ ?_ ?_
  all_goals
    unfold World.start
    cases null <;> rfl

end Starting

section Testing

variable {h : Handle} {q : MpiRequest} {st : Status}

/-- MPI reports an operation of the thread complete. -/
theorem account_testDone_self {x : Token} (hx : (account t w).token h.request = some x) :
    account t ((w.setReq h q).setResult h.request st) =
      (account t w).setToken h.request (some { x with result := some st }) := by
  obtain ⟨stage, heap, -, permit⟩ := tokenOf_eq_some.mp hx
  refine Account.ext ?_ rfl rfl rfl rfl rfl
  refine tokenOf_update (fun r hr => ⟨rfl, rfl, ?_, rfl⟩)
    (tokenOf_eq_some.mpr ⟨stage, heap, ?_, permit⟩)
  · simp only [World.setResult, World.setReq, Function.update_of_ne hr]
  · simp only [World.setResult, World.setReq, Function.update_self]

theorem account_testDone_of_ne (token : ∀ k, w.store.stage h.request ≠ .owned u k) :
    account u ((w.setReq h q).setResult h.request st) = account u w := by
  refine Account.ext ?_ rfl rfl rfl rfl rfl
  refine tokenOf_same (fun r hr => ⟨rfl, rfl, ?_, rfl⟩) (tokenOf_eq_none token)
    (tokenOf_eq_none token)
  simp only [World.setResult, World.setReq, Function.update_of_ne hr]

/-- MPI reports the put receive of a slot complete: its message waits in the buffer. -/
theorem account_testTaken_self {d : Dev} {s : SlotView} (hs : (account t w).slot d = some s) :
    account t ((((w.setReq h q).setResult h.request st).setPhase d (.taken st)).setStage
      h.request (.owned t .held)) =
      ((account t w).setSlot d (some { s with
        phase := .taken st, rbuf := w.memory.bytes (.putRbuf d) })).setToken h.request
          (some ⟨.held, w.store.heap h.request, some st, w.pend.permitOf h.request⟩) := by
  obtain ⟨controls, rfl⟩ := slotOf_eq_some.mp hs
  refine Account.ext ?_ rfl rfl rfl ?_ rfl
  · refine tokenOf_update (fun r hr => ⟨?_, rfl, ?_, rfl⟩) (tokenOf_eq_some.mpr ⟨?_, rfl, ?_, rfl⟩)
    · simp only [World.setStage, World.setPhase, World.setResult, World.setReq,
        Function.update_of_ne hr]
    · simp only [World.setStage, World.setPhase, World.setResult, World.setReq,
        Function.update_of_ne hr]
    · simp only [World.setStage, Function.update_self]
    · simp only [World.setStage, World.setPhase, World.setResult, Function.update_self]
  · refine slotOf_update (fun d' hd => slotOf_congr rfl rfl ?_)
      (slotOf_eq_some.mpr ⟨controls, ?_⟩)
    · simp only [slotView, World.setStage, World.setPhase, World.setResult, World.setReq,
        Function.update_of_ne hd]
    · simp [slotView, World.setStage, World.setPhase, World.setResult, World.setReq, Phase.full]

theorem account_testTaken_of_ne {d : Dev} (hc : ¬ Controls u w d)
    (token : ∀ k, w.store.stage h.request ≠ .owned u k) (hu : u ≠ t) :
    account u ((((w.setReq h q).setResult h.request st).setPhase d (.taken st)).setStage
      h.request (.owned t .held)) = account u w := by
  have keeps : ¬ Controls u ((w.setReq h q).setResult h.request st) d := hc
  have before : ∀ k, (((w.setReq h q).setResult h.request st).setPhase d (.taken st)).store.stage
      h.request ≠ .owned u k := token
  rw [account_setStage_of_ne before (by simp [hu.symm]), account_setPhase_of_ne keeps,
    account_testDone_of_ne token]

end Testing

section Blocks

theorem account_allocate_self (h : Slots P w) {w' : World}
    (hw : w' = { w with memory := { w.memory with
      nextBlock := w.memory.nextBlock + 1
      blockOwner := update w.memory.blockOwner w.memory.nextBlock (some t) } }) :
    (account t w).block w.memory.nextBlock = none ∧ account t w' =
      (account t w).setBlock w.memory.nextBlock
        (some (w.memory.bytes (.heap w.memory.nextBlock))) := by
  subst hw
  constructor
  · refine blockOf_eq_none fun e => ?_
    have bound := (h.block w.memory.nextBlock (by simp [e])).2
    omega
  · refine Account.ext rfl rfl rfl rfl rfl ?_
    refine blockOf_update (fun k hk => ?_) (blockOf_eq_some.mpr ⟨?_, rfl⟩)
    · simp only [blockOf, Function.update_of_ne hk]
    · simp only [Function.update_self]

theorem account_allocate_of_ne (h : Slots P w) {w' : World}
    (hw : w' = { w with memory := { w.memory with
      nextBlock := w.memory.nextBlock + 1
      blockOwner := update w.memory.blockOwner w.memory.nextBlock (some t) } })
    (hu : u ≠ t) : account u w' = account u w := by
  subst hw
  have before : blockOf u w w.memory.nextBlock = none := blockOf_eq_none fun e => by
    have bound := (h.block w.memory.nextBlock (by simp [e])).2
    omega
  refine Account.ext rfl rfl rfl rfl rfl ?_
  refine blockOf_same (fun k hk => ?_) before (blockOf_eq_none ?_)
  · simp only [blockOf, Function.update_of_ne hk]
  · simp [hu.symm]

private theorem slotView_memcpy_of_ne {d d' : Dev} {k n : Nat} (hd : d' ≠ d) :
    slotView (w.memcpy (.heap k) (.putRbuf d) n) d' = slotView w d' := by
  simp [slotView, World.memcpy, World.setPhase, Function.update_of_ne hd]

theorem account_memcpy_self {d : Dev} {k n : Nat} {s : SlotView} {st : Status}
    {b : List Byte} (hs : (account t w).slot d = some s) (taken : s.phase = .taken st)
    (hb : (account t w).block k = some b) :
    account t (w.memcpy (.heap k) (.putRbuf d) n) =
      ((account t w).setSlot d (some { s with phase := .copied, rbuf := [] })).setBlock k
        (some (s.rbuf.take n)) := by
  obtain ⟨controls, rfl⟩ := slotOf_eq_some.mp hs
  have full : (slotView w d).rbuf = w.memory.bytes (.putRbuf d) := by
    have phase : w.net.phase d = .taken st := taken
    simp [slotView, phase, Phase.full]
  refine Account.ext rfl rfl rfl rfl ?_ ?_
  · refine slotOf_update (fun d' hd => slotOf_congr rfl rfl (slotView_memcpy_of_ne hd))
      (slotOf_eq_some.mpr ⟨controls, ?_⟩)
    simp [slotView, World.memcpy, World.setPhase, Phase.full]
  · rw [full]
    refine blockOf_update (fun k' hk => ?_) (blockOf_eq_some.mpr ⟨(blockOf_eq_some.mp hb).1, ?_⟩)
    · simp [blockOf, World.memcpy, World.setPhase, Function.update_of_ne, hk]
    · simp [World.memcpy, World.setPhase]

theorem account_memcpy_of_ne {d : Dev} {k n : Nat} {b : List Byte} (hc : ¬ Controls u w d)
    (hb : (account t w).block k = some b) (hu : u ≠ t) :
    account u (w.memcpy (.heap k) (.putRbuf d) n) = account u w := by
  have mine := (blockOf_eq_some.mp hb).1
  have other : w.memory.blockOwner k ≠ some u := by simp [mine, hu.symm]
  refine Account.ext rfl rfl rfl rfl ?_ ?_
  · exact slotOf_same (fun d' hd => slotOf_congr rfl rfl (slotView_memcpy_of_ne hd))
      (slotOf_eq_none hc) (slotOf_eq_none hc)
  · refine blockOf_same (fun k' hk => ?_) (blockOf_eq_none other) (blockOf_eq_none other)
    simp [blockOf, World.memcpy, World.setPhase, Function.update_of_ne, hk]

end Blocks

section Signals

variable {c : Comp} {q : Request} {p : RequestPtr} {st : Status}

theorem sameAt_signal {r : RequestPtr} (h : r ≠ p) :
    SameAt w (w.signal cfg t c q p) r := by
  rw [World.signal_eq]
  exact ⟨by simp only [Function.update_of_ne h], rfl, rfl, rfl⟩

theorem bytes_giveBlock : (w.giveBlock q p).memory.bytes = w.memory.bytes := by
  unfold World.giveBlock
  split <;> rfl

private theorem slotOf_signal : slotOf u (w.signal cfg t c q p) = slotOf u w := by
  funext d
  rw [World.signal_eq]
  exact slotOf_congr rfl rfl (by simp only [slotView, bytes_giveBlock])

theorem account_signal_self
    (hx : (account t w).token p = some ⟨.held, some q, some st, none⟩) :
    account t (w.signal cfg t c q p) = (account t w).told q p st := by
  obtain ⟨-, heap, result, permit⟩ := tokenOf_eq_some.mp hx
  have token : tokenOf t (w.signal cfg t c q p) =
      update (tokenOf t w) p (some ⟨.spent, some q, some st, none⟩) := by
    refine tokenOf_update (fun r hr => sameAt_signal hr) ?_
    rw [World.signal_eq]
    refine tokenOf_eq_some.mpr ⟨?_, heap, result, permit⟩
    simp only [Function.update_self]
  have block : blockOf t (w.signal cfg t c q p) =
      blockOf t { w with memory := (w.giveBlock q p).memory } := by
    rw [World.signal_eq]
    rfl
  unfold Account.told
  split
  · rename_i k hop hbuf
    refine Account.ext token ?_ ?_ ?_ slotOf_signal ?_
    · rw [World.signal_eq]; rfl
    · rw [World.signal_eq]; rfl
    · rw [World.signal_eq]; rfl
    · refine block.trans ?_
      simp only [World.giveBlock, hop, hbuf]
      refine blockOf_update (fun k' hk => ?_) (blockOf_eq_none (by simp))
      simp [blockOf, Function.update_of_ne hk]
  · rename_i other
    refine Account.ext token ?_ ?_ ?_ slotOf_signal ?_
    · rw [World.signal_eq]; rfl
    · rw [World.signal_eq]; rfl
    · rw [World.signal_eq]; rfl
    · refine block.trans ?_
      have same : w.giveBlock q p = w := by
        unfold World.giveBlock
        split
        · rename_i k hop hbuf
          exact (other k hop hbuf).elim
        · rfl
      rw [same]
      rfl

theorem account_signal_of_ne {x : Token} (hx : (account t w).token p = some x)
    (mine : ∀ k, q.op = .putSignal → q.buffer = .heap k → w.memory.blockOwner k = some t)
    (hu : u ≠ t) : account u (w.signal cfg t c q p) = account u w := by
  have owned := (tokenOf_eq_some.mp hx).1
  refine Account.ext ?_ ?_ ?_ ?_ slotOf_signal ?_
  · refine tokenOf_same (fun r hr => sameAt_signal hr) (tokenOf_of_other owned hu) ?_
    rw [World.signal_eq]
    exact tokenOf_eq_none fun k => by simp [hu.symm]
  · rw [World.signal_eq]; rfl
  · rw [World.signal_eq]; rfl
  · rw [World.signal_eq]; rfl
  · have block : blockOf u (w.signal cfg t c q p) =
        blockOf u { w with memory := (w.giveBlock q p).memory } := by
      rw [World.signal_eq]
      rfl
    refine block.trans ?_
    unfold World.giveBlock
    split
    · rename_i k hop hbuf
      have other : w.memory.blockOwner k ≠ some u := by simp [mine k hop hbuf, hu.symm]
      refine blockOf_same (fun k' hk => ?_) (blockOf_eq_none other) (blockOf_eq_none (by simp))
      simp [blockOf, Function.update_of_ne hk]
    · rfl

theorem account_cqPop : account u (w.cqPop c).2 = account u w := by
  rw [World.cqPop_eq]
  rfl

end Signals

section DeviceLife

theorem Slots.not_controls_fresh (h : Slots P w) (r : Rank) :
    ¬ Controls u w ⟨r, w.devs.nextAddr r⟩ := by
  obtain ⟨phase, builder, -⟩ := h.fresh ⟨r, w.devs.nextAddr r⟩ (le_refl _)
  intro hc
  rcases hc with hc | hc
  · exact (h.locked _ (by simp [hc])).2 phase
  · simp [builder] at hc

private theorem slotOf_newDevice_of_ne {d : Dev} (hd : d ≠ ⟨t.rank, w.devs.nextAddr t.rank⟩) :
    slotOf u (w.newDevice t).2 d = slotOf u w d := by
  refine slotOf_congr rfl ?_ ?_
  · simp only [World.newDevice, Function.update_of_ne hd]
  · simp only [slotView, World.newDevice, Function.update_of_ne hd]

theorem account_newDevice_self : account t (w.newDevice t).2 =
    (account t w).setSlot (w.newDevice t).1
      (some (slotView (w.newDevice t).2 (w.newDevice t).1)) := by
  refine Account.ext rfl rfl rfl rfl ?_ rfl
  refine slotOf_update (fun d hd => slotOf_newDevice_of_ne hd) ?_
  refine slotOf_eq_some.mpr ⟨.inr ?_, rfl⟩
  simp only [World.newDevice, Function.update_self]

theorem account_newDevice_of_ne (h : Slots P w) (hu : u ≠ t) :
    account u (w.newDevice t).2 = account u w := by
  have free := h.not_controls_fresh (u := u) t.rank
  refine Account.ext rfl rfl rfl rfl ?_ rfl
  refine slotOf_same (fun d hd => slotOf_newDevice_of_ne hd) (slotOf_eq_none free)
    (slotOf_eq_none fun hc => ?_)
  rcases hc with hc | hc
  · exact free (.inl hc)
  · simp [World.newDevice, hu.symm] at hc

private theorem slotView_initDevice_of_ne {d d' : Dev} {dev : Device} (hd : d' ≠ d) :
    slotView { w.setDevice d (some dev) with memory := { w.memory with
      bytes := update w.memory.bytes (.putRbuf d) (List.replicate dev.putRbufSize 0) } } d' =
      slotView w d' := by
  simp [slotView, World.setDevice, hd]

theorem account_initDevice_self {d : Dev} {dev : Device} {s : SlotView}
    (hs : (account t w).slot d = some s) (unborn : s.phase = .unborn) :
    account t { w.setDevice d (some dev) with memory := { w.memory with
      bytes := update w.memory.bytes (.putRbuf d) (List.replicate dev.putRbufSize 0) } } =
      (account t w).setSlot d (some { s with size := dev.putRbufSize }) := by
  obtain ⟨controls, rfl⟩ := slotOf_eq_some.mp hs
  have phase : w.net.phase d = .unborn := unborn
  refine Account.ext rfl rfl rfl rfl ?_ ?_
  · refine slotOf_update (fun d' hd => slotOf_congr rfl rfl (slotView_initDevice_of_ne hd))
      (slotOf_eq_some.mpr ⟨controls, ?_⟩)
    simp [slotView, World.setDevice, phase, Phase.full]
  · funext k
    simp [account, blockOf, Account.setSlot]

theorem account_initDevice_of_ne {d : Dev} {dev : Device} (hc : ¬ Controls u w d) :
    account u { w.setDevice d (some dev) with memory := { w.memory with
      bytes := update w.memory.bytes (.putRbuf d) (List.replicate dev.putRbufSize 0) } } =
      account u w := by
  refine Account.ext rfl rfl rfl rfl ?_ ?_
  · exact slotOf_same (fun d' hd => slotOf_congr rfl rfl (slotView_initDevice_of_ne hd))
      (slotOf_eq_none hc) (slotOf_eq_none hc)
  · funext k
    simp [account, blockOf]

end DeviceLife

section CallsAndEnv

theorem account_endCall_self (h : Slots P w) {r : CallResult}
    (ready : (account t w).MayReturn cfg r) : ledgerPost P t (.endCall r) (account t w) ()
    (account t (w.endCall t r)) := by
  have acts : (account t (w.endCall t r)).acts = (w.client.acts t).tail := by
    simp only [account, World.endCall, Function.update_self]
  cases r with
  | device d =>
    obtain ⟨s, hs, -, building⟩ := ready.device d rfl
    obtain ⟨-, rfl⟩ := slotOf_eq_some.mp hs
    have builder : w.devs.builder d ≠ none := by
      intro e
      simp [slotView, e] at building
    have free : w.sync.owner (.put d) = none := by
      by_contra locked
      exact builder (h.locked d locked).1
    refine Account.ext rfl rfl rfl acts ?_ rfl
    refine slotOf_update (fun d' hd => slotOf_congr rfl ?_ ?_) (slotOf_eq_none ?_)
    · simp only [World.endCall, Function.update_of_ne hd]
    · simp only [slotView, World.endCall, Function.update_of_ne hd]
    · simp [Controls, World.endCall, free]
  | _ => exact Account.ext rfl rfl rfl acts rfl rfl

theorem account_endCall_of_ne (h : Slots P w) {r : CallResult}
    (ready : (account t w).MayReturn cfg r) (hu : u ≠ t) :
    account u (w.endCall t r) = account u w := by
  have acts : (account u (w.endCall t r)).acts = w.client.acts u := by
    simp only [account, World.endCall, Function.update_of_ne hu]
  cases r with
  | device d =>
    obtain ⟨s, hs, -, -⟩ := ready.device d rfl
    have none' := h.not_controls (slotOf_eq_some.mp hs).1 hu
    refine Account.ext rfl rfl rfl acts ?_ rfl
    refine slotOf_same (fun d' hd => slotOf_congr rfl ?_ ?_) (slotOf_eq_none none')
      (slotOf_eq_none fun hc => ?_)
    · simp only [World.endCall, Function.update_of_ne hd]
    · simp only [slotView, World.endCall, Function.update_of_ne hd]
    · rcases hc with hc | hc
      · exact none' (.inl hc)
      · simp [World.endCall] at hc
  | _ => exact Account.ext rfl rfl rfl acts rfl rfl

theorem account_pushCall_self {c : Call} : account t (w.pushCall t c) =
    (account t w).setActs (⟨c, none⟩ :: w.client.acts t) := by
  refine Account.ext rfl rfl rfl ?_ rfl rfl
  simp only [account, World.pushCall, Function.update_self]
  rfl

theorem account_pushCall_of_ne {c : Call} (hu : u ≠ t) :
    account u (w.pushCall t c) = account u w := by
  refine Account.ext rfl rfl rfl ?_ rfl rfl
  simp only [account, World.pushCall, Function.update_of_ne hu]

theorem consume_result {p : RequestPtr} {st : Status} {h : Option Handle} {q : RequestPtr}
    (hq : q ≠ p) : (w.consume p st h).net.result q = w.net.result q := by
  unfold World.consume
  split
  · rfl
  · split
    · rfl
    · simp only [World.setResult, World.setReq, Function.update_of_ne hq]

theorem consume_phase {p : RequestPtr} {st : Status} {h : Option Handle} :
    (w.consume p st h).net.phase = w.net.phase := by
  unfold World.consume
  split
  · rfl
  · split <;> rfl

theorem sameAt_takeContinuation {o : Op} {m : Manager} {i : Nat} {e : Entry}
    {st : Status} {q : RequestPtr} (h : q ≠ e.request) :
    SameAt w (w.takeContinuation t o m i e st) q := by
  rw [World.takeContinuation_eq]
  exact ⟨by simp only [Function.update_of_ne h], rfl, consume_result h, rfl⟩

private theorem slotOf_takeContinuation {o : Op} {m : Manager} {i : Nat} {e : Entry}
    {st : Status} : slotOf u (w.takeContinuation t o m i e st) = slotOf u w := by
  funext d
  rw [World.takeContinuation_eq]
  exact slotOf_congr rfl rfl (by simp only [slotView, consume_phase])

theorem account_takeContinuation_self {o : Op} {m : Manager} {i : Nat} {e : Entry}
    {st : Status} : account t (w.takeContinuation t o m i e st) =
    (account t w).setToken e.request (some ⟨.held, w.store.heap e.request,
      (w.consume e.request st e.mpiReq).net.result e.request,
      w.pend.permitOf e.request⟩) := by
  refine Account.ext ?_ ?_ ?_ ?_ slotOf_takeContinuation ?_
  · refine tokenOf_update (fun q hq => sameAt_takeContinuation hq) ?_
    rw [World.takeContinuation_eq]
    refine tokenOf_of_owned ?_
    simp only [Function.update_self]
  all_goals rw [World.takeContinuation_eq]; rfl

theorem account_takeContinuation_of_ne {o : Op} {m : Manager} {i : Nat} {e : Entry}
    {st : Status} (before : ∀ k, w.store.stage e.request ≠ .owned u k) (hu : u ≠ t) :
    account u (w.takeContinuation t o m i e st) = account u w := by
  refine Account.ext ?_ ?_ ?_ ?_ slotOf_takeContinuation ?_
  · refine tokenOf_same (fun q hq => sameAt_takeContinuation hq) (tokenOf_eq_none before) ?_
    rw [World.takeContinuation_eq]
    exact tokenOf_eq_none fun k => by simp [hu.symm]
  all_goals rw [World.takeContinuation_eq]; rfl

/-- The buffer of a request MPI still works on is no block of a thread, and no put buffer that
holds a message. -/
theorem Books.buffer_of_live (h : Books P w) {x : Handle} {q : MpiRequest}
    (hq : w.net.reqs x = some q) (live : q.state ≠ .consumed) :
    (∀ k, q.buffer = .heap k → w.memory.blockOwner k = none) ∧
      ∀ d, q.buffer = .putRbuf d → (w.net.phase d).full = false := by
  have ok := h.matching.req x q hq
  by_cases hop : x.request.posted.op = .putSignal
  · have loaded : ∃ q', Loaded w x.comm.device x q' ∧
        (w.net.phase x.comm.device).full = false := by
      rcases (h.slots.listening _).out x q hq live hop rfl with phase | ⟨phase, e, slot, he⟩
      · obtain ⟨q', hq'⟩ := (h.slots.listening _).reposted _ phase
        exact ⟨q', hq', by simp [phase, Phase.full]⟩
      · obtain ⟨e', x', q', slot', he', hq', -⟩ := (h.slots.listening _).armed phase
        obtain rfl : e = e' := Option.some.inj (slot.symm.trans slot')
        obtain rfl : x = x' := Option.some.inj (he.symm.trans he')
        exact ⟨q', hq', by simp [phase, Phase.full]⟩
    obtain ⟨q', hq', full⟩ := loaded
    rw [ok.buffer, hq'.buffer]
    exact ⟨nofun, fun d e => by rw [← Buffer.putRbuf.inj e]; exact full⟩
  · have begun := ok.begun
    have born : w.store.stage x.request ≠ .unborn := fun e => by simp [e, Stage.begun] at begun
    have accessible := h.calls.buffer x.request hop born
    rw [ok.buffer]
    refine ⟨fun k hk => ?_, fun d hd => ?_⟩
    · rw [hk] at accessible
      by_contra owned
      simp [World.accessible, (h.slots.block k owned).1] at accessible
    · rw [hd] at accessible
      simp [World.accessible] at accessible

theorem account_bytes {bytes : Buffer → List Byte}
    (block : ∀ k, w.memory.blockOwner k ≠ none → bytes (.heap k) = w.memory.bytes (.heap k))
    (full : ∀ d, (w.net.phase d).full = true →
      bytes (.putRbuf d) = w.memory.bytes (.putRbuf d))
    (size : ∀ d, (bytes (.putRbuf d)).length = (w.memory.bytes (.putRbuf d)).length) :
    account u { w with memory := { w.memory with bytes } } = account u w := by
  refine Account.ext rfl rfl rfl rfl ?_ ?_
  · funext d
    refine slotOf_congr rfl rfl ?_
    simp only [slotView, size d]
    cases hf : (w.net.phase d).full with
    | false => rfl
    | true => simp only [cond_true, full d hf]
  · funext k
    simp only [account, blockOf]
    by_cases hk : w.memory.blockOwner k = some u
    · rw [if_pos hk, if_pos hk, block k (by simp [hk])]
    · rw [if_neg hk, if_neg hk]

theorem account_env (h : Books P w) (hx : EnvStep cfg w w') : account u w' = account u w := by
  cases hx with
  | sendDone x q hq send pending => rfl
  | deliver i m x q hm hq pending accepts =>
    have live : q.state ≠ .consumed := by rw [pending]; simp
    obtain ⟨noBlock, notFull⟩ := h.buffer_of_live hq live
    have same : account u (w.deliver i m x q) = account u { w with memory := { w.memory with
        bytes := update w.memory.bytes q.buffer
          (scatter (w.memory.bytes q.buffer) q.layout m.payload) } } := rfl
    rw [same]
    refine account_bytes (fun k owned => ?_) (fun d full => ?_) fun d => ?_
    · refine Function.update_of_ne (fun e => ?_) _ _
      exact owned (noBlock k e.symm)
    · refine Function.update_of_ne (fun e => ?_) _ _
      simp [notFull d e.symm] at full
    · by_cases e : Buffer.putRbuf d = q.buffer
      · rw [e, Function.update_self, length_scatter]
      · rw [Function.update_of_ne e]
  | write b bytes hb =>
    refine account_bytes (fun k owned => ?_) (fun d full => ?_) fun d => ?_
    · refine Function.update_of_ne (fun e => ?_) _ _
      rw [← e] at hb
      simp [World.accessible, (h.slots.block k owned).1] at hb
    · refine Function.update_of_ne (fun e => ?_) _ _
      rw [← e] at hb
      simp [World.accessible] at hb
    · by_cases e : Buffer.putRbuf d = b
      · rw [← e] at hb
        simp [World.accessible] at hb
      · rw [Function.update_of_ne e]

end CallsAndEnv

end Lcw.Mpi
