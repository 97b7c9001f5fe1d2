import Mathlib.Order.Lattice
import Mathlib.Order.Nat
import Mathlib.Data.List.Basic

/-!
# Intervals between cuts

Cuts of a linear order in increasing order leave one interval more than there are cuts. A cut
itself belongs to the interval below it (`rightClosed`) or to the one above. Each element is in
one interval (`exists_encloses`, `encloses_unique`), in the last exactly when it is above every
cut.
-/

namespace Haute.Data

variable {β : Type} [LinearOrder β]

/-- `x` is past the cut `b`. -/
def Above (rightClosed : Bool) (b x : β) : Prop := if rightClosed then b < x else b ≤ x

/-- `x` is not past the cut `b`. -/
def Within (rightClosed : Bool) (b x : β) : Prop := if rightClosed then x ≤ b else x < b

instance (rightClosed : Bool) (b x : β) : Decidable (Above rightClosed b x) := by
  unfold Above
  infer_instance

theorem within_iff {rightClosed : Bool} {b x : β} :
    Within rightClosed b x ↔ ¬ Above rightClosed b x := by
  unfold Within Above
  split_ifs
  · exact not_lt.symm
  · exact not_le.symm

theorem Above.mono {rightClosed : Bool} {b b' x : β} (h : Above rightClosed b' x) (hb : b ≤ b') :
    Above rightClosed b x := by
  unfold Above at h ⊢
  split_ifs at h ⊢
  · exact lt_of_le_of_lt hb h
  · exact le_trans hb h

/-- `x` is in the interval that ends at the cut number `k`: above the cut before it and within it.
The first interval has no cut before it and the last none at its end. -/
def Encloses (rightClosed : Bool) (cuts : List β) (k : ℕ) (x : β) : Prop :=
  (∀ b, 0 < k → cuts[k - 1]? = some b → Above rightClosed b x) ∧
    ∀ b, cuts[k]? = some b → Within rightClosed b x

/-- Every element is in an interval: that after the cuts it is above, one after another. -/
theorem exists_encloses (rightClosed : Bool) (cuts : List β) (x : β) :
    ∃ k ≤ cuts.length, Encloses rightClosed cuts k x := by
  induction cuts with
  | nil =>
    exact ⟨0, Nat.le_refl 0, fun b h => absurd h (Nat.lt_irrefl 0), fun b hb => by simp at hb⟩
  | cons c cuts ih =>
    by_cases hc : Above rightClosed c x
    · obtain ⟨k, hk, habove, hwithin⟩ := ih
      refine ⟨k + 1, Nat.succ_le_succ hk, fun b _ hb => ?_, fun b hb =>
        hwithin b (by simpa using hb)⟩
      rcases k with _ | k
      · simp only [Nat.zero_add, Nat.sub_self, List.getElem?_cons_zero, Option.some.injEq] at hb
        exact hb ▸ hc
      · exact habove b (Nat.succ_pos k) (by simpa using hb)
    · refine ⟨0, Nat.zero_le _, fun b h => absurd h (Nat.lt_irrefl 0), fun b hb => ?_⟩
      simp only [List.getElem?_cons_zero, Option.some.injEq] at hb
      exact within_iff.mpr (hb ▸ hc)

theorem not_encloses_of_lt {rightClosed : Bool} {cuts : List β} (h : cuts.Pairwise (· < ·))
    {i j : ℕ} (hij : i < j) (hj : j ≤ cuts.length) {x : β} (hi : Encloses rightClosed cuts i x) :
    ¬ Encloses rightClosed cuts j x := by
  intro hx
  have hlen : j - 1 < cuts.length := by omega
  have habove := hx.1 cuts[j - 1] (by omega) (List.getElem?_eq_getElem hlen)
  have hwithin := hi.2 cuts[i] (List.getElem?_eq_getElem (by omega))
  refine within_iff.mp hwithin (habove.mono ?_)
  rcases Nat.lt_or_eq_of_le (Nat.le_sub_one_of_lt hij) with hlt | heq
  · exact le_of_lt (List.pairwise_iff_getElem.mp h i (j - 1) (by omega) hlen hlt)
  · simp only [heq, le_refl]

/-- No element is in two intervals of increasing cuts. -/
theorem encloses_unique {rightClosed : Bool} {cuts : List β} (h : cuts.Pairwise (· < ·)) {i j : ℕ}
    (hi : i ≤ cuts.length) (hj : j ≤ cuts.length) {x : β} (hxi : Encloses rightClosed cuts i x)
    (hxj : Encloses rightClosed cuts j x) : i = j := by
  rcases Nat.lt_trichotomy i j with hlt | heq | hgt
  · exact absurd hxj (not_encloses_of_lt h hlt hj hxi)
  · exact heq
  · exact absurd hxi (not_encloses_of_lt h hgt hi hxj)

/-- What is within some cut is not in the interval above them all. -/
theorem exists_encloses_of_within {rightClosed : Bool} {cuts : List β} (h : cuts.Pairwise (· < ·))
    {b x : β} (hb : b ∈ cuts) (hx : Within rightClosed b x) :
    ∃ k < cuts.length, Encloses rightClosed cuts k x := by
  obtain ⟨k, hk, hencl⟩ := exists_encloses rightClosed cuts x
  refine ⟨k, Nat.lt_of_le_of_ne hk fun heq => ?_, hencl⟩
  obtain ⟨i, hi, rfl⟩ := List.getElem_of_mem hb
  have hlen : k - 1 < cuts.length := by omega
  have habove := hencl.1 cuts[k - 1] (by omega) (List.getElem?_eq_getElem hlen)
  refine within_iff.mp hx (habove.mono ?_)
  rcases Nat.lt_or_eq_of_le (show i ≤ k - 1 by omega) with hlt | heq'
  · exact le_of_lt (List.pairwise_iff_getElem.mp h i (k - 1) hi hlen hlt)
  · simp only [heq', le_refl]

end Haute.Data
