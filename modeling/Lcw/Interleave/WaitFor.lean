/- digest: Taking ordered locks in rising order leaves no cycle of waiting threads. -/

import Mathlib.Logic.Relation
import Mathlib.Order.Basic

set_option autoImplicit false
set_option relaxedAutoImplicit false

namespace Lcw.Interleave

section WaitFor

variable {Thread Lock : Type} (owner : Lock → Option Thread) (waits : Thread → Option Lock)

/-- `t` waits for a lock that `u` holds. -/
def Blocked (t u : Thread) : Prop := ∃ l, waits t = some l ∧ owner l = some u

/-- What a thread waits for lies above everything it holds. -/
def RisingWaits {R : Type} [LT R] (rank : Lock → R) : Prop :=
  ∀ t l, waits t = some l → ∀ k, owner k = some t → rank k < rank l

variable {owner waits} {R : Type} [Preorder R] {rank : Lock → R}

/-- Along a chain of waiting threads the locks held rise. -/
theorem RisingWaits.chain (h : RisingWaits owner waits rank) {t u : Thread}
    (c : Relation.TransGen (Blocked owner waits) t u) :
    ∃ l k, waits t = some l ∧ owner k = some u ∧ rank l ≤ rank k := by
  induction c with
  | single edge =>
    obtain ⟨l, hl, hk⟩ := edge
    exact ⟨l, l, hl, hk, le_refl _⟩
  | tail _ edge ih =>
    obtain ⟨l, k, hl, hk, hlk⟩ := ih
    obtain ⟨l', hl', ho⟩ := edge
    exact ⟨l, l', hl, ho, hlk.trans (h _ l' hl' k hk).le⟩

theorem RisingWaits.no_cycle (h : RisingWaits owner waits rank) (t : Thread) :
    ¬ Relation.TransGen (Blocked owner waits) t t := by
  intro c
  obtain ⟨l, k, hl, hk, hlk⟩ := h.chain c
  exact (h t l hl k hk).not_ge hlk

/-- Where the ranks are bounded, a thread that waits does so, in the end, for one that does not. -/
theorem RisingWaits.ends {rank : Lock → Nat} (h : RisingWaits owner waits rank) {n : Nat}
    (bound : ∀ l, rank l ≤ n) {t u : Thread} (b : Blocked owner waits t u) :
    ∃ v, Relation.TransGen (Blocked owner waits) t v ∧ ∀ x, ¬ Blocked owner waits v x := by
  obtain ⟨l, hl, ho⟩ := b
  induction room : n - rank l using Nat.strongRecOn generalizing t u l with
  | ind k ih =>
    by_cases more : ∃ x, Blocked owner waits u x
    · obtain ⟨x, l', hl', ho'⟩ := more
      have rises := h u l' hl' l ho
      have below := bound l'
      obtain ⟨v, chain, last⟩ := ih (n - rank l') (by omega) l' hl' ho' rfl
      exact ⟨v, .head ⟨l, hl, ho⟩ chain, last⟩
    · exact ⟨u, .single ⟨l, hl, ho⟩, fun x b => more ⟨x, b⟩⟩

end WaitFor

end Lcw.Interleave
