import Mathlib.Data.List.Sort
import Mathlib.Order.Defs.LinearOrder

/-!
# Sorting by a key

What is sorted by a key does not depend on the order it came in, where elements with one key are
the same element (`sortOn_eq_of_perm`).
-/

namespace Haute.Data

variable {α β κ : Type} [LinearOrder κ]

/-- The elements in the order of their keys, those with one key as they came. -/
def sortOn (key : α → κ) (xs : List α) : List α := xs.mergeSort fun a b => decide (key a ≤ key b)

theorem sortOn_perm (key : α → κ) (xs : List α) : (sortOn key xs).Perm xs := List.mergeSort_perm _ _

theorem pairwise_sortOn (key : α → κ) (xs : List α) :
    (sortOn key xs).Pairwise fun a b => key a ≤ key b := by
  have h : (sortOn key xs).Pairwise fun a b => decide (key a ≤ key b) := List.pairwise_mergeSort
    (fun a b c hab hbc => decide_eq_true ((of_decide_eq_true hab).trans (of_decide_eq_true hbc)))
    (fun a b => by simpa using le_total (key a) (key b)) xs
  exact h.imp of_decide_eq_true

theorem sortOn_eq_of_perm {key : α → κ} {xs ys : List α} (h : xs.Perm ys)
    (hkey : ∀ a ∈ xs, ∀ b ∈ xs, key a = key b → a = b) : sortOn key xs = sortOn key ys := by
  have hxs : ∀ {a}, a ∈ sortOn key xs → a ∈ xs := fun ha => (sortOn_perm key xs).mem_iff.mp ha
  have hys : ∀ {a}, a ∈ sortOn key ys → a ∈ xs :=
    fun ha => h.mem_iff.mpr ((sortOn_perm key ys).mem_iff.mp ha)
  refine ((sortOn_perm key xs).trans (h.trans (sortOn_perm key ys).symm)).eq_of_pairwise
    (fun a b ha hb hab hba => ?_) (pairwise_sortOn key xs) (pairwise_sortOn key ys)
  exact hkey a (hxs ha) b (hys hb) (le_antisymm hab hba)

theorem map_sortOn {key : α → κ} {key' : β → κ} {f : α → β} {xs : List α}
    (h : ∀ a ∈ xs, key' (f a) = key a) : (sortOn key xs).map f = sortOn key' (xs.map f) := by
  refine List.map_mergeSort fun a ha b hb => ?_
  rw [h a ha, h b hb]

end Haute.Data
