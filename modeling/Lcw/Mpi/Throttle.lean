/- digest: `g_pending_msg` counts the operations admitted and not yet signalled. -/

import Lcw.Interleave.Tally
import Lcw.Mpi.LedgerApi

set_option autoImplicit false
set_option relaxedAutoImplicit false

namespace Lcw.Mpi

open Interleave
open Function (update)

namespace World

variable (cfg : Config) (w : World) (r : Rank)

/-- SEND and PUT operations whose `fetch_add` was executed, and whose `fetch_sub` was not. -/
def outstanding : Nat := tally (fun a => w.pend.holder r a ≠ .released) (w.pend.admitted r)

/-- SEND and PUT operations whose `signal_comp` has executed its `fetch_sub`. -/
def signalled : Nat := tally (fun a => w.pend.holder r a = .released) (w.pend.admitted r)

/-- Threads between their check and their `fetch_add`. -/
def passing : Nat := tally (fun i => w.pend.passed ⟨r, i⟩ = true) cfg.nthreads

end World

section Steps

variable {cfg : Config} {P : PutRules cfg} {t : Tid} {w w' : World} {r : Rank}

theorem toInt_toInt_add (x y : Int) : toInt (toInt x + y) = toInt (x + y) := by
  unfold toInt
  rw [Int.bmod_add_bmod]

theorem outstanding_fetchAdd :
    (w.fetchAddPending t).outstanding r = w.outstanding r + if r = t.rank then 1 else 0 := by
  by_cases hr : r = t.rank
  · subst hr
    have before (j : Nat) (hj : j < w.pend.admitted t.rank) :
        (w.fetchAddPending t).pend.holder t.rank j ≠ .released ↔
          w.pend.holder t.rank j ≠ .released := by
      simp only [World.fetchAddPending, holder_update]
      rw [if_neg (by omega)]
    have admitted : (w.fetchAddPending t).pend.admitted t.rank = w.pend.admitted t.rank + 1 := by
      simp [World.fetchAddPending]
    unfold World.outstanding
    rw [admitted, tally_succ, tally_congr before, if_pos rfl, if_pos]
    simp [World.fetchAddPending]
  · unfold World.outstanding World.fetchAddPending
    simp [hr]

theorem outstanding_fetchSub (permits : Permits w) {p : RequestPtr} {a : Nat}
    (rank : p.posted.device.rank = t.rank) (mine : w.pend.permitOf p = some a) :
    w.outstanding r = (w.fetchSubPending t p).outstanding r + if r = t.rank then 1 else 0 := by
  have holder (s : Rank) (b : Nat) : (w.fetchSubPending t p).pend.holder s b =
      if s = t.rank ∧ b = a then .released else w.pend.holder s b := by
    simp only [World.fetchSubPending, mine, holder_update]
  have admitted : (w.fetchSubPending t p).pend.admitted = w.pend.admitted := rfl
  unfold World.outstanding
  rw [admitted]
  by_cases hr : r = t.rank
  · subst hr
    have held : w.pend.holder t.rank a = .operation p :=
      (permits.operation t.rank a p).mpr ⟨rank, mine⟩
    have bound : a < w.pend.admitted t.rank := by
      by_contra beyond
      rw [permits.fresh t.rank a (by omega)] at held
      cases held
    rw [if_pos rfl]
    refine tally_lose bound (by simp [held]) (by simp [holder]) fun j hj => ?_
    rw [holder, if_neg (by simp [hj])]
  · rw [if_neg hr, add_zero]
    refine tally_congr fun j _ => ?_
    rw [holder, if_neg (by simp [hr])]

/-- A permit that passes from a thread to its operation stays out. -/
theorem outstanding_newRequest (permits : Permits w) {q : Request} {c : Option Comp} :
    (w.newRequest t q c).outstanding r = w.outstanding r := by
  have bound (p : RequestPtr) : (w.bindPermit t p).outstanding r = w.outstanding r := by
    unfold World.bindPermit
    split
    · rename_i a mine
      have held : w.pend.holder t.rank a = .thread t := (permits.thread t.rank a t).mpr ⟨rfl, mine⟩
      refine tally_congr fun j _ => ?_
      simp only [holder_update]
      split
      · rename_i here
        obtain ⟨rfl, rfl⟩ := here
        simp [held]
      · rfl
    · rfl
  unfold World.newRequest
  dsimp only
  split
  · exact bound _
  · rfl

variable (cfg t) in
/-- What an operation does to the counter, the permits and the checks passed. -/
inductive PendStep (o : Op) (w w' : World) : Prop
  | load (unpassed : w.pend.passed t = false) (value : w'.pend.value = w.pend.value)
    (out : ∀ r, w'.outstanding r = w.outstanding r)
    (passed : w'.pend.passed =
      update w.pend.passed t (decide (w.pend.value t.rank ≤ cfg.pendingMsgMax)))
  | add (is_add : o = .fetchAddPending) (passing : w.pend.passed t = true)
    (value : w'.pend.value =
      update w.pend.value t.rank (toInt (w.pend.value t.rank + 1)))
    (out : ∀ r, w'.outstanding r = w.outstanding r + if r = t.rank then 1 else 0)
    (passed : w'.pend.passed = update w.pend.passed t false)
  | sub (p : RequestPtr) (is_sub : o = .fetchSubPending p)
    (op : p.posted.op = .send ∨ p.posted.op = .put)
    (value : w'.pend.value =
      update w.pend.value t.rank (toInt (w.pend.value t.rank - 1)))
    (out : ∀ r, w.outstanding r = w'.outstanding r + if r = t.rank then 1 else 0)
    (passed : w'.pend.passed = w.pend.passed)
  | rest (value : w'.pend.value = w.pend.value)
    (out : ∀ r, w'.outstanding r = w.outstanding r) (passed : w'.pend.passed = w.pend.passed)

theorem PendStep.of_pend {o : Op} (same : w'.pend = w.pend) : PendStep cfg t o w w' := by
  refine .rest (by rw [same]) (fun r => ?_) (by rw [same])
  unfold World.outstanding
  rw [same]

theorem exec_pend (h : Books P w) {o : Op} {x : o.Ret} (pre : ledgerPre P t o (account t w))
    (hx : exec cfg t o w = some (x, w')) : PendStep cfg t o w w' := by
  have frame := (exec_frame hx).pend
  replace pre := pre.2
  cases o with
  | loadPending =>
    obtain ⟨-, rfl⟩ := Prod.mk.inj (Option.some.inj hx)
    exact .load pre.2 rfl (fun _ => rfl) rfl
  | fetchAddPending =>
    obtain ⟨-, rfl⟩ := Prod.mk.inj (Option.some.inj hx)
    exact .add rfl pre.2.1 rfl (fun _ => outstanding_fetchAdd) rfl
  | fetchSubPending p =>
    obtain ⟨-, rfl⟩ := Prod.mk.inj (Option.some.inj hx)
    obtain ⟨rank, y, token, -, permit⟩ := pre
    obtain ⟨-, -, -, same⟩ := tokenOf_eq_some.mp token
    obtain ⟨a, mine⟩ := Option.isSome_iff_exists.mp permit
    rw [← same] at mine
    have op := (h.permits.live p (by rw [mine]; exact Option.some_ne_none a)).2.2
    exact .sub p rfl op rfl (fun _ => outstanding_fetchSub h.permits rank mine) rfl
  | newRequest q c =>
    obtain ⟨-, rfl⟩ := Prod.mk.inj (Option.some.inj hx)
    have same : (w.newRequest t q c).pend.value = w.pend.value ∧
        (w.newRequest t q c).pend.passed = w.pend.passed := by
      unfold World.newRequest World.bindPermit
      dsimp only
      split
      · split <;> exact ⟨rfl, rfl⟩
      · exact ⟨rfl, rfl⟩
    exact .rest same.1 (fun _ => outstanding_newRequest h.permits) same.2
  | _ => exact .of_pend (frame rfl)

end Steps

section Runs

variable {cfg : Config} {s s' : (machine cfg).State} {e : (machine cfg).Event}

/-- Only operations of threads work on the counter. -/
theorem step_pend (known : Ledgered s) (step : System.step s e = some s') :
    (∃ t o, e = .exec t ∧ nextOp s t = some o ∧ PendStep cfg t o s.shared s'.shared) ∨
      s'.shared.pend = s.shared.pend := by
  cases e with
  | exec t =>
    obtain ⟨o, k, r, w, hp, hx, rfl⟩ := System.step_exec step
    have next : nextOp s t = some o := nextOp_eq_some.mpr ⟨k, hp⟩
    exact .inl ⟨t, o, rfl, next, exec_pend known.books (known.pre t o next) hx⟩
  | intr t i =>
    obtain ⟨o, k, p, w, -, hi, rfl⟩ := System.step_intr step
    cases i with
    | call c =>
      obtain ⟨-, -, -, rfl⟩ := intr_call hi
      exact .inr rfl
    | continuation m i =>
      obtain ⟨-, -, -, e, st, -, -, -, rfl⟩ := intr_continuation hi
      refine .inr ?_
      rw [World.takeContinuation_eq]
  | env e =>
    obtain ⟨w, he, rfl⟩ := System.step_env step
    refine .inr ?_
    cases env_cases he <;> rfl

/-- The counter is what is out, as an `int`. -/
theorem value_of_reach {ok : (machine cfg).State → (machine cfg).Event → Prop}
    (h : System.Reach ok (start cfg) s) (r : Rank) :
    s.shared.pend.value r = toInt (s.shared.outstanding r) := by
  refine (h.strengthen fun _ reached => ledgered_of_reach reached).invariant
    (I := fun s : (machine cfg).State => ∀ r, s.shared.pend.value r =
      toInt (s.shared.outstanding r)) (fun r => ?_) (fun s e s' inv ok step r => ?_) r
  · have empty : (start cfg).shared.outstanding r = 0 := rfl
    rw [empty]
    exact (toInt_of_range (x := 0) (by omega) (by omega)).symm
  · rcases step_pend ok.2 step with ⟨t, o, -, -, moved⟩ | same
    · cases moved with
      | load _ value out _ | rest value out _ =>
        rw [value, out]
        exact inv r
      | add _ _ value out _ =>
        rw [value, out]
        by_cases hr : r = t.rank
        · subst hr
          rw [Function.update_self, if_pos rfl, inv, toInt_toInt_add]
          push_cast
          rfl
        · rw [Function.update_of_ne hr, if_neg hr, add_zero]
          exact inv r
      | sub p _ _ value out _ =>
        rw [value]
        by_cases hr : r = t.rank
        · subst hr
          rw [Function.update_self, inv, out, if_pos rfl, sub_eq_add_neg, toInt_toInt_add]
          congr 1
          push_cast
          omega
        · have kept := out r
          rw [if_neg hr, add_zero] at kept
          rw [Function.update_of_ne hr, ← kept]
          exact inv r
    · unfold World.outstanding
      rw [same]
      exact inv r

section Passing

variable {t : Tid} {w w' : World} {r : Rank}

end Passing

/-- Every `fetch_add` is executed while fewer than the bound are pending. -/
def AddsBelow (cfg : Config) (s : (machine cfg).State) : (machine cfg).Event → Prop
  | .exec t => match nextOp s t with
    | some .fetchAddPending => s.shared.pend.value t.rank < cfg.pendingMsgMax
    | _ => True
  | _ => True

/-- The thread that performs a `fetch_add`. -/
def adder (s : (machine cfg).State) : (machine cfg).Event → Option Tid
  | .exec t => match nextOp s t with
    | some .fetchAddPending => some t
    | _ => none
  | _ => none

theorem addsBelow_iff (s : (machine cfg).State) (e : (machine cfg).Event) :
    (∀ t ∈ adder s e, s.shared.pend.value t.rank < cfg.pendingMsgMax) ↔ AddsBelow cfg s e := by
  unfold AddsBelow adder
  split
  · split <;> simp
  · simp

instance AddsBelow.decidable (s : (machine cfg).State) (e : (machine cfg).Event) :
    Decidable (AddsBelow cfg s e) :=
  have (t : Tid) : Decidable (s.shared.pend.value t.rank < cfg.pendingMsgMax) := Int.decLt _ _
  decidable_of_iff _ (addsBelow_iff s e)

/-- The test of `send` and `put` is not that condition: it lets a thread pass when the bound is
reached, and other threads pass before it adds. -/
theorem pending_bounded (positive : 0 < cfg.pendingMsgMax) (int : cfg.pendingMsgMax < 2 ^ 31)
    (h : System.Reach (AddsBelow cfg) (start cfg) s) (r : Rank) :
    (s.shared.outstanding r : Int) ≤ cfg.pendingMsgMax := by
  have known (s : (machine cfg).State) (reached : System.Reach (AddsBelow cfg) (start cfg) s) :
      Ledgered s ∧ ∀ r, s.shared.pend.value r = toInt (s.shared.outstanding r) :=
    ⟨ledgered_of_reach reached, value_of_reach reached⟩
  refine (h.strengthen known).invariant (I := fun s : (machine cfg).State => ∀ r,
    (s.shared.outstanding r : Int) ≤ cfg.pendingMsgMax) (fun r => ?_)
    (fun s e s' inv ok step r => ?_) r
  · have empty : (start cfg).shared.outstanding r = 0 := rfl
    rw [empty]
    omega
  · obtain ⟨within, ledgered, value⟩ := ok
    have bound := inv r
    rcases step_pend ledgered step with ⟨t, o, rfl, next, moved⟩ | same
    · cases moved with
      | load _ _ out _ | rest _ out _ =>
        rw [out]
        exact bound
      | add is_add _ _ out _ =>
        subst is_add
        rw [out]
        by_cases hr : r = t.rank
        · subst hr
          have room : s.shared.pend.value t.rank < cfg.pendingMsgMax := by
            simpa only [AddsBelow, next] using within
          rw [value, toInt_of_range (by omega) (by omega)] at room
          rw [if_pos rfl]
          omega
        · rw [if_neg hr]
          exact bound
      | sub p _ _ _ out _ =>
        have fewer := out r
        omega
    · unfold World.outstanding
      rw [same]
      exact bound

/-- One send is pending under a bound of one. -/
theorem pending_bounded_one : ∃ s : (machine (smallJob .request false 1)).State,
    System.Reach (AddsBelow _) (start (smallJob .request false 1)) s ∧ s.shared.outstanding 0 = 1 ∧
      (s.shared.outstanding 0 : Int) ≤ 1 := by
  let J := smallJob .request false 1
  let es := .intr ⟨0, 0⟩ (.call (.allocDevice 4 (some 7))) :: steps J ⟨0, 0⟩ 10 ++
    .intr ⟨0, 0⟩ (.call (.send ⟨0, 0⟩ 0 3 (.user 0) 1 (some 5) 0)) :: steps J ⟨0, 0⟩ 4
  have played : (System.run (start J) es).map (fun s => s.shared.outstanding 0) = some 1 := by
    decide +kernel
  have admitted : System.Admitted (AddsBelow J) (start J) es := by decide +kernel
  obtain ⟨s, reached, out⟩ := System.reach_probe admitted played
  exact ⟨s, reached, out, pending_bounded (by decide) (by decide) reached 0⟩

/-- With a bound of one, the second of two sends is admitted as well. -/
theorem pending_exceeds : ∃ s : (machine (smallJob .request false 1)).State,
    System.Reach (fun _ _ => True) (start (smallJob .request false 1)) s ∧
      ¬ (s.shared.outstanding 0 : Int) ≤ (smallJob .request false 1).pendingMsgMax := by
  let J := smallJob .request false 1
  let send : List (machine J).Event :=
    .intr ⟨0, 0⟩ (.call (.send ⟨0, 0⟩ 0 3 (.user 0) 1 (some 5) 0)) :: steps J ⟨0, 0⟩ 10
  let es := .intr ⟨0, 0⟩ (.call (.allocDevice 4 (some 7))) :: steps J ⟨0, 0⟩ 10 ++ send ++ send
  have played : (System.run (start J) es).map (fun s => s.shared.outstanding 0) = some 2 := by
    decide +kernel
  obtain ⟨s, reached, out⟩ := System.reach_probe_any played
  refine ⟨s, reached, ?_⟩
  rw [out]
  decide

end Runs

end Lcw.Mpi
