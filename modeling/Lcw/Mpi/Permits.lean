/- digest: Every permit is held by the thread or the operation that will give it back. -/

import Lcw.Mpi.LedgerSteps

set_option autoImplicit false
set_option relaxedAutoImplicit false

namespace Lcw.Mpi

open Interleave
open Function (update)

variable {cfg : Config} {P : PutRules cfg} {t : Tid} {w w' : World}

section Holders

/-- One permit changes hands. -/
theorem holder_update {holder : Rank → Nat → Holder} {r s : Rank} {a b : Nat} {x : Holder} :
    update holder r (update (holder r) a x) s b = if s = r ∧ b = a then x else holder s b := by
  by_cases hs : s = r
  · subst hs
    rw [Function.update_self]
    by_cases hb : b = a
    · simp [hb]
    · simp [hb]
  · simp [hs]

theorem Permits.fetchAdd (h : Permits w) (free : w.pend.permit t = none) :
    Permits (w.fetchAddPending t) := by
  have unused := h.fresh t.rank (w.pend.admitted t.rank) (le_refl _)
  constructor
  · intro r a bound
    simp only [World.fetchAddPending, holder_update]
    by_cases hr : r = t.rank
    · subst hr
      simp only [World.fetchAddPending, Function.update_self] at bound
      rw [if_neg (by omega)]
      exact h.fresh _ a (by omega)
    · simp only [World.fetchAddPending, Function.update_of_ne hr] at bound
      rw [if_neg (by simp [hr])]
      exact h.fresh r a bound
  · intro r a u
    simp only [World.fetchAddPending, holder_update]
    have old := h.thread r a u
    by_cases here : r = t.rank ∧ a = w.pend.admitted t.rank
    · obtain ⟨rfl, rfl⟩ := here
      rw [unused] at old
      by_cases hu : u = t
      · subst hu
        simp
      · simp only [and_self, if_true, Function.update_of_ne hu, Holder.thread.injEq, Ne.symm hu,
          false_iff]
        exact fun both => by cases old.mpr both
    · rw [if_neg here, old]
      by_cases hu : u = t
      · subst hu
        simp only [free, Function.update_self, Option.some.injEq]
        constructor
        · rintro ⟨-, none⟩
          cases none
        · rintro ⟨rfl, rfl⟩
          exact absurd ⟨rfl, rfl⟩ here
      · rw [Function.update_of_ne hu]
  · intro r a p
    simp only [World.fetchAddPending, holder_update]
    have old := h.operation r a p
    by_cases here : r = t.rank ∧ a = w.pend.admitted t.rank
    · obtain ⟨rfl, rfl⟩ := here
      rw [unused] at old
      simp only [and_self, if_true, reduceCtorEq, false_iff]
      exact fun both => by cases old.mpr both
    · rw [if_neg here, old]
  · exact h.live

theorem Permits.fetchSub (h : Permits w) {p : RequestPtr} {a : Nat}
    (rank : p.posted.device.rank = t.rank) (mine : w.pend.permitOf p = some a) :
    Permits (w.fetchSubPending t p) := by
  have held : w.pend.holder t.rank a = .operation p := (h.operation t.rank a p).mpr ⟨rank, mine⟩
  have holder (s : Rank) (b : Nat) : (w.fetchSubPending t p).pend.holder s b =
      if s = t.rank ∧ b = a then .released else w.pend.holder s b := by
    simp only [World.fetchSubPending, mine, holder_update]
  constructor
  · intro r b bound
    rw [holder]
    split
    · rfl
    · exact h.fresh r b bound
  · intro r b u
    rw [holder]
    have old := h.thread r b u
    split
    · rename_i here
      obtain ⟨rfl, rfl⟩ := here
      rw [held] at old
      simp only [reduceCtorEq, false_iff] at old ⊢
      exact old
    · exact old
  · intro r b q
    rw [holder]
    have old := h.operation r b q
    by_cases hq : q = p
    · subst hq
      simp only [World.fetchSubPending, Function.update_self, reduceCtorEq, and_false, iff_false]
      split
      · simp
      · rename_i away
        intro still
        obtain ⟨here, again⟩ := old.mp still
        rw [mine] at again
        exact away ⟨by rw [← here, rank], (Option.some.inj again).symm⟩
    · simp only [World.fetchSubPending, Function.update_of_ne hq]
      split
      · rename_i here
        obtain ⟨rfl, rfl⟩ := here
        rw [held] at old
        simp only [Holder.operation.injEq, Ne.symm hq, reduceCtorEq, false_iff] at old ⊢
        exact old
      · exact old
  · intro q hq
    apply h.live q
    by_cases e : q = p
    · simp [World.fetchSubPending, e] at hq
    · simpa only [World.fetchSubPending, Function.update_of_ne e] using hq

theorem Permits.carry (h : Permits w) (pend : w'.pend = w.pend) (moved : Moved t w w') :
    Permits w' := by
  constructor
  · rw [pend]
    exact h.fresh
  · rw [pend]
    exact h.thread
  · rw [pend]
    exact h.operation
  · intro p hp
    rw [pend] at hp
    obtain ⟨born, quiet, op⟩ := h.live p hp
    exact ⟨moved.born born, moved.untold quiet hp, op⟩

/-- The permit of the posting thread passes to the operation it posts. -/
theorem Permits.bind (h : Permits w) {p : RequestPtr} (unborn : w.store.stage p = .unborn)
    (rank : p.posted.device.rank = t.rank) (pays : p.posted.op = .send ∨ p.posted.op = .put) :
    Permits { w.bindPermit t p with store := { w.store with
      stage := update w.store.stage p (.owned t .posting) } } := by
  have born (q : RequestPtr) (hq : w.pend.permitOf q ≠ none) : q ≠ p := by
    rintro rfl
    exact (h.live q hq).1 unborn
  have none : w.pend.permitOf p = none := by
    by_contra some
    exact born p some rfl
  cases mine : w.pend.permit t with
  | none =>
    unfold World.bindPermit
    rw [mine]
    refine ⟨h.fresh, h.thread, h.operation, fun q hq => ?_⟩
    simp only [Function.update_of_ne (born q hq)]
    exact h.live q hq
  | some a =>
    have held : w.pend.holder t.rank a = .thread t := (h.thread t.rank a t).mpr ⟨rfl, mine⟩
    have holder (s : Rank) (b : Nat) : (w.bindPermit t p).pend.holder s b =
        if s = t.rank ∧ b = a then .operation p else w.pend.holder s b := by
      simp only [World.bindPermit, mine, holder_update]
    have permit : (w.bindPermit t p).pend.permit = update w.pend.permit t Option.none := by
      simp only [World.bindPermit, mine]
    have permitOf : (w.bindPermit t p).pend.permitOf = update w.pend.permitOf p (some a) := by
      simp only [World.bindPermit, mine]
    constructor
    · intro r b bound
      have bound : w.pend.admitted r ≤ b := by simpa [World.bindPermit, mine] using bound
      have unused := h.fresh r b bound
      rw [holder]
      split
      · rename_i here
        obtain ⟨rfl, rfl⟩ := here
        simp [held] at unused
      · exact unused
    · intro r b u
      have old := h.thread r b u
      rw [holder, permit]
      split
      · rename_i here
        obtain ⟨rfl, rfl⟩ := here
        rw [held] at old
        by_cases hu : u = t
        · subst hu
          simp
        · simp only [Function.update_of_ne hu, reduceCtorEq, false_iff]
          exact fun both => hu (Holder.thread.inj (old.mpr both)).symm
      · rename_i away
        by_cases hu : u = t
        · subst hu
          simp only [Function.update_self, reduceCtorEq, and_false, iff_false]
          intro still
          obtain ⟨rfl, again⟩ := old.mp still
          exact away ⟨rfl, Option.some.inj (again.symm.trans mine)⟩
        · rw [Function.update_of_ne hu]
          exact old
    · intro r b q
      have old := h.operation r b q
      rw [holder, permitOf]
      by_cases hq : q = p
      · subst hq
        simp only [Function.update_self, Option.some.injEq, rank]
        split
        · rename_i here
          obtain ⟨rfl, rfl⟩ := here
          simp
        · rename_i away
          constructor
          · intro still
            simp [none] at old
            exact absurd still old
          · rintro ⟨rfl, rfl⟩
            exact absurd ⟨rfl, rfl⟩ away
      · simp only [Function.update_of_ne hq]
        split
        · rename_i here
          obtain ⟨rfl, rfl⟩ := here
          rw [held] at old
          simp only [Holder.operation.injEq, Ne.symm hq, reduceCtorEq, false_iff] at old ⊢
          exact old
        · exact old
    · intro q hq
      rw [permitOf] at hq
      by_cases e : q = p
      · subst e
        simpa [Stage.told] using pays
      · rw [Function.update_of_ne e] at hq
        simp only [Function.update_of_ne e]
        exact h.live q hq

theorem Permits.newRequest (h : Books P w) {q : Request} {c : Option Comp}
    (may : (account t w).MayPost cfg t q c ∨ (account t w).MayArm q c) :
    Permits (w.newRequest t q c) := by
  have unborn := h.filed.fresh q c
  have stage : (w.newRequest t q c).store.stage =
      update w.store.stage (w.freshPtr q c) (.owned t .posting) := by
    rw [World.newRequest_eq]
  by_cases pays : q.op = .send ∨ q.op = .put
  · have rank : q.device.rank = t.rank := by
      rcases may with post | arm
      · exact post.rank
      · simp [arm.op] at pays
    have bound := h.permits.bind unborn rank pays
    have pend : (w.newRequest t q c).pend = (w.bindPermit t (w.freshPtr q c)).pend := by
      simp only [World.newRequest, if_pos pays]
    refine ⟨?_, ?_, ?_, ?_⟩
    · rw [pend]
      exact bound.fresh
    · rw [pend]
      exact bound.thread
    · rw [pend]
      exact bound.operation
    · rw [pend, stage]
      exact bound.live
  · have pend : (w.newRequest t q c).pend = w.pend := by
      simp only [World.newRequest, if_neg pays]
    have moved : Moved t w (w.newRequest t q c) := by
      refine .inr ⟨_, _, ?_, stage, by simp [Stage.told]⟩
      rw [unborn]
      exact .post
    exact h.permits.carry pend moved

theorem Permits.exec (h : Books P w) {o : Op} {r : o.Ret} (pre : ledgerPre P t o (account t w))
    (hx : exec cfg t o w = some (r, w')) : Permits w' := by
  have moved := exec_moved h pre hx
  have permits := h.permits
  have pre := pre.2
  cases o with
  | loadPending =>
    cases hx
    exact ⟨permits.fresh, permits.thread, permits.operation, permits.live⟩
  | fetchAddPending =>
    cases hx
    exact permits.fetchAdd pre.1
  | fetchSubPending p =>
    cases hx
    obtain ⟨rank, x, hx, -, some⟩ := pre
    obtain ⟨a, ha⟩ := Option.isSome_iff_exists.mp some
    exact permits.fetchSub rank ((tokenOf_eq_some.mp hx).2.2.2.trans ha)
  | newRequest q c =>
    cases hx
    exact Permits.newRequest h pre
  | _ => exact permits.carry ((exec_frame hx).pend rfl) moved

end Holders

end Lcw.Mpi
