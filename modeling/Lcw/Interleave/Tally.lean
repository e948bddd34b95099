/- digest: How a count below a bound moves when one index changes. -/

import Mathlib.Data.List.Range

set_option autoImplicit false
set_option relaxedAutoImplicit false

namespace Lcw.Interleave

section Tally

/-- How many indices below `n` satisfy a predicate. -/
def tally (P : Nat → Prop) [DecidablePred P] (n : Nat) : Nat := (List.range n).countP fun i => P i

variable {P Q : Nat → Prop} [DecidablePred P] [DecidablePred Q] {n i : Nat}

theorem tally_succ : tally P (n + 1) = tally P n + if P n then 1 else 0 := by
  unfold tally
  rw [List.range_succ, List.countP_append, List.countP_singleton]
  simp

theorem tally_congr (h : ∀ j, j < n → (P j ↔ Q j)) : tally P n = tally Q n := by
  unfold tally
  refine List.countP_congr fun j hj => ?_
  simpa using h j (List.mem_range.mp hj)

/-- One index below the bound stops satisfying the predicate. -/
theorem tally_lose (hi : i < n) (was : P i) (now : ¬ Q i) (same : ∀ j, j ≠ i → (P j ↔ Q j)) :
    tally P n = tally Q n + 1 := by
  induction n with
  | zero => omega
  | succ n ih =>
    rw [tally_succ, tally_succ]
    by_cases h : i = n
    · subst h
      have before : tally P i = tally Q i := tally_congr fun j hj => same j (by omega)
      rw [if_pos was, if_neg now, before]
    · have step := ih (by omega)
      have last : P n ↔ Q n := same n fun e => h e.symm
      by_cases hn : P n
      · rw [if_pos hn, if_pos (last.mp hn)]
        omega
      · rw [if_neg hn, if_neg fun hq => hn (last.mpr hq)]
        omega

theorem tally_pos (hi : i < n) (h : P i) : 0 < tally P n := by
  have step : tally P n = tally (fun j => P j ∧ j ≠ i) n + 1 :=
    tally_lose hi h (by simp) fun j hj => by simp [hj]
  omega

end Tally

end Lcw.Interleave
