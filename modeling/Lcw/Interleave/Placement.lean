/- digest: Keyed items spread over lists, each key in the one list its place names, once. -/

import Mathlib.Data.List.Perm.Basic
import Mathlib.Logic.Function.Basic

set_option autoImplicit false
set_option relaxedAutoImplicit false

namespace Lcw.Interleave

open Function (update)

section Placement

variable {ι κ α : Type} [DecidableEq ι] [DecidableEq κ]

/-- A key occurs once in the list its place names, and nowhere else. -/
def Placed (key : α → κ) (lists : ι → List α) (place : κ → Option ι) : Prop :=
  ∀ i k, (lists i).countP (fun a => key a = k) = if place k = some i then 1 else 0

namespace Placed

variable {key : α → κ} {lists : ι → List α} {place : κ → Option ι}

theorem empty : Placed key (fun _ : ι => []) fun _ => none := fun _ _ => by simp

theorem place_of_mem (h : Placed key lists place) {i : ι} {a : α} (ha : a ∈ lists i) :
    place (key a) = some i := by
  have positive : 0 < (lists i).countP (fun b => key b = key a) :=
    List.countP_pos_iff.mpr ⟨a, ha, by simp⟩
  have count := h i (key a)
  by_contra other
  rw [if_neg other] at count
  omega

theorem exists_mem (h : Placed key lists place) {i : ι} {k : κ} (hk : place k = some i) :
    ∃ a ∈ lists i, key a = k := by
  have count := h i k
  rw [if_pos hk] at count
  have positive : 0 < (lists i).countP (fun b => key b = k) := by omega
  obtain ⟨a, ha, hka⟩ := List.countP_pos_iff.mp positive
  exact ⟨a, ha, by simpa using hka⟩

/-- A key without a place can be appended to any list. -/
theorem push (h : Placed key lists place) {a : α} {i : ι} (free : place (key a) = none) :
    Placed key (update lists i (lists i ++ [a])) (update place (key a) (some i)) := by
  intro j k
  have count := h j k
  by_cases hk : k = key a
  · subst hk
    rw [Function.update_self]
    rw [free, if_neg (by simp)] at count
    by_cases hj : j = i
    · subst hj
      simp [List.countP_append, count]
    · have other : ¬ (some i = some j) := fun e => hj (Option.some.inj e).symm
      rw [Function.update_of_ne hj, if_neg other]
      exact count
  · rw [Function.update_of_ne hk, ← count]
    by_cases hj : j = i
    · subst hj
      have ne : ¬ key a = k := fun e => hk e.symm
      simp [List.countP_append, ne]
    · rw [Function.update_of_ne hj]

/-- Taking one item out of its list leaves its key without a place. -/
theorem take (h : Placed key lists place) {a : α} {i : ι} {rest : List α}
    (perm : (lists i).Perm (a :: rest)) :
    Placed key (update lists i rest) (update place (key a) none) := by
  have here : place (key a) = some i := h.place_of_mem (perm.mem_iff.mpr (by simp))
  have whole (k : κ) : (lists i).countP (fun b => key b = k) =
      rest.countP (fun b => key b = k) + if key a = k then 1 else 0 := by
    rw [perm.countP_eq, List.countP_cons]
    simp
  intro j k
  have count := h j k
  by_cases hj : j = i
  · subst hj
    rw [Function.update_self]
    rw [whole] at count
    by_cases hk : k = key a
    · subst hk
      simp only [here, if_true] at count
      simp only [Function.update_self]
      simpa using count
    · have ne : ¬ key a = k := fun e => hk e.symm
      rw [if_neg ne] at count
      rw [Function.update_of_ne hk]
      exact count
  · rw [Function.update_of_ne hj, count]
    by_cases hk : k = key a
    · subst hk
      have other : ¬ (some i = some j) := fun e => hj (Option.some.inj e).symm
      rw [Function.update_self, here, if_neg other, if_neg (by simp)]
    · rw [Function.update_of_ne hk]

theorem pop (h : Placed key lists place) {a : α} {i : ι} {rest : List α}
    (front : lists i = a :: rest) :
    Placed key (update lists i rest) (update place (key a) none) :=
  h.take (by rw [front])

theorem erase (h : Placed key lists place) {a : α} {i : ι} {n : Nat}
    (found : (lists i)[n]? = some a) :
    Placed key (update lists i ((lists i).eraseIdx n)) (update place (key a) none) := by
  obtain ⟨hn, rfl⟩ := List.getElem?_eq_some_iff.mp found
  exact h.take (List.getElem_cons_eraseIdx_perm hn).symm

/-- Items with one key in one list are one item. -/
theorem nodup (h : Placed key lists place) (i : ι) : ((lists i).map key).Nodup := by
  rw [List.nodup_iff_count]
  intro k
  have count := h i k
  rw [List.count, List.countP_map]
  have same : (lists i).countP ((fun b => b == k) ∘ key) =
      (lists i).countP (fun a => key a = k) := by
    congr 1
  rw [same, count]
  split <;> omega

end Placed

end Placement

section Correspondence

variable {α β κ γ : Type} {key : α → κ} {key' : β → κ} {f : α → γ} {f' : β → γ}

/-- Lists with the same keys carry the same values, up to order, where items of one key agree. -/
theorem map_perm_of_keys {l : List α} {l' : List β} (keys : (l.map key).Perm (l'.map key'))
    (agree : ∀ x ∈ l, ∀ y ∈ l', key x = key' y → f x = f' y) :
    (l.map f).Perm (l'.map f') := by
  induction l generalizing l' with
  | nil =>
    obtain rfl : l' = [] := List.map_eq_nil_iff.mp (List.nil_perm.mp keys)
    exact .nil
  | cons x l ih =>
    have here : key x ∈ l'.map key' := keys.mem_iff.mp (List.mem_cons_self ..)
    obtain ⟨y, hy, same⟩ := List.mem_map.mp here
    obtain ⟨pre, post, rfl⟩ := List.append_of_mem hy
    have front : (pre ++ y :: post).Perm (y :: (pre ++ post)) := List.perm_middle
    have others : (l.map key).Perm ((pre ++ post).map key') := by
      have both := keys.trans (front.map key')
      rw [List.map_cons, List.map_cons, same] at both
      exact both.cons_inv
    have rest : (l.map f).Perm ((pre ++ post).map f') := by
      refine ih others fun a ha b hb => agree a (List.mem_cons_of_mem _ ha) b ?_
      exact front.mem_iff.mpr (List.mem_cons_of_mem _ hb)
    have first : f x = f' y := agree x (List.mem_cons_self ..) y hy same.symm
    refine List.Perm.trans ?_ (front.map f').symm
    rw [List.map_cons, List.map_cons, first]
    exact rest.cons _

end Correspondence

end Lcw.Interleave
