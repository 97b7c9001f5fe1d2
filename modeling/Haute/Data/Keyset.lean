import Haute.Data.Sorting

/-!
# Paging by a key

Rows are listed in the order of a key, a page at a time: a page starts after the key of the last
row of the page before. Where no two rows have one key, the rows after a row are those that stand
after it in the whole list (`sortOn_filter_after`), so nothing is skipped or listed twice.
-/

namespace Haute.Data

variable {α κ : Type} {key : α → κ} {xs : List α}

/-- No two rows have one key. -/
def Keyed (key : α → κ) (xs : List α) : Prop := xs.Nodup ∧ ∀ a ∈ xs, ∀ b ∈ xs, key a = key b → a = b

theorem Keyed.filter (h : Keyed key xs) (p : α → Bool) : Keyed key (xs.filter p) :=
  ⟨h.1.filter p, fun a ha b hb => h.2 a (List.mem_of_mem_filter ha) b (List.mem_of_mem_filter hb)⟩

variable [LinearOrder κ]

theorem pairwise_lt_sortOn (h : Keyed key xs) :
    (sortOn key xs).Pairwise fun a b => key a < key b := by
  have hnodup : (sortOn key xs).Nodup := (sortOn_perm key xs).nodup_iff.mpr h.1
  have hboth := (pairwise_sortOn key xs).and hnodup
  refine hboth.imp_of_mem fun {a b} ha hb hab => lt_of_le_of_ne hab.1 fun heq => hab.2 ?_
  exact h.2 a ((sortOn_perm key xs).mem_iff.mp ha) b ((sortOn_perm key xs).mem_iff.mp hb) heq

/-- What is picked from sorted rows is sorted. -/
theorem sortOn_filter (h : Keyed key xs) (p : α → Bool) :
    sortOn key (xs.filter p) = (sortOn key xs).filter p := by
  refine ((sortOn_perm key _).trans ((sortOn_perm key xs).filter p).symm).eq_of_pairwise
    (fun a b ha _ hab hba => ?_) (pairwise_lt_sortOn (h.filter p)) ((pairwise_lt_sortOn h).filter p)
  exact absurd (hab.trans hba) (lt_irrefl _)

theorem filter_after {pre post : List α} {c : α}
    (h : (pre ++ c :: post).Pairwise fun a b => key a < key b) :
    (pre ++ c :: post).filter (fun x => decide (key c < key x)) = post := by
  obtain ⟨-, hpost, hcross⟩ := List.pairwise_append.mp h
  have hbefore : pre.filter (fun x => decide (key c < key x)) = [] := by
    refine List.filter_eq_nil_iff.mpr fun a ha => ?_
    simpa using (hcross a ha c List.mem_cons_self).le
  have hafter : post.filter (fun x => decide (key c < key x)) = post :=
    List.filter_eq_self.mpr fun b hb => decide_eq_true ((List.pairwise_cons.mp hpost).1 b hb)
  rw [List.filter_append, hbefore, List.nil_append,
    List.filter_cons_of_neg (by simp), hafter]

/-- The rows past a row are those listed after it. -/
theorem sortOn_filter_after (h : Keyed key xs) {pre post : List α} {c : α}
    (hlist : sortOn key xs = pre ++ c :: post) :
    sortOn key (xs.filter fun x => decide (key c < key x)) = post := by
  rw [sortOn_filter h, hlist]
  exact filter_after (hlist ▸ pairwise_lt_sortOn h)

end Haute.Data
