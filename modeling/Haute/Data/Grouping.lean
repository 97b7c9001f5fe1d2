import Haute.Data.OrdDict

/-!
# Grouping by a key

`firstsBy f xs` keeps, in order, the first element of each value of `f`; `groupBy f xs` is
the dictionary from those values to their elements, each group in the list's order. The
two agree: the dictionary's keys are the values of `firstsBy`, and the first element of a
group is the one `firstsBy` kept.
-/

namespace Grouping

variable {α κ : Type*} [DecidableEq κ]

/-- The first element of each value of `f`, in order. -/
def firstsBy (f : α → κ) : List α → List α
  | [] => []
  | x :: xs => x :: (firstsBy f xs).filter fun y => decide (f y ≠ f x)

/-- The elements of each value of `f`, in order, keyed by the value. -/
def groupBy (f : α → κ) (xs : List α) : OrdDict κ (List α) :=
  xs.foldl (fun d x => d.upsert (f x) fun o => o.getD [] ++ [x]) .empty

/-! ### First elements -/

@[simp] theorem firstsBy_nil (f : α → κ) : firstsBy f [] = [] := rfl

theorem firstsBy_sublist (f : α → κ) (xs : List α) : (firstsBy f xs).Sublist xs := by
  induction xs with
  | nil => exact List.Sublist.slnil
  | cons x xs ih => exact (List.filter_sublist.trans ih).cons_cons x

/-- Every value of `f` keeps an element. -/
theorem exists_mem_firstsBy (f : α → κ) {xs : List α} {x : α} (h : x ∈ xs) :
    ∃ y ∈ firstsBy f xs, f y = f x := by
  induction xs with
  | nil => simp at h
  | cons z xs ih =>
    by_cases hz : f x = f z
    · exact ⟨z, List.mem_cons_self, hz.symm⟩
    · have hx : x ∈ xs := (List.mem_cons.mp h).resolve_left fun e => hz (congrArg f e)
      obtain ⟨y, hy, hfy⟩ := ih hx
      have hyz : f y ≠ f z := hfy ▸ hz
      exact ⟨y, List.mem_cons_of_mem _ (List.mem_filter.mpr ⟨hy, by simpa using hyz⟩), hfy⟩

/-- No value of `f` keeps two. -/
theorem pairwise_firstsBy (f : α → κ) (xs : List α) :
    (firstsBy f xs).Pairwise fun x y => f x ≠ f y := by
  induction xs with
  | nil => exact List.Pairwise.nil
  | cons x xs ih =>
    refine List.pairwise_cons.mpr ⟨fun y hy => ?_, ih.filter _⟩
    have h : f y ≠ f x := by simpa using (List.mem_filter.mp hy).2
    exact h.symm

theorem nodup_map_firstsBy (f : α → κ) (xs : List α) : ((firstsBy f xs).map f).Nodup :=
  List.pairwise_map.mpr (pairwise_firstsBy f xs)

theorem mem_map_firstsBy {f : α → κ} {xs : List α} {k : κ} :
    k ∈ (firstsBy f xs).map f ↔ k ∈ xs.map f := by
  constructor
  · exact fun h => ((firstsBy_sublist f xs).map f).subset h
  · intro h
    obtain ⟨x, hx, rfl⟩ := List.mem_map.mp h
    obtain ⟨y, hy, hfy⟩ := exists_mem_firstsBy f hx
    exact List.mem_map.mpr ⟨y, hy, hfy⟩

/-- A list no value of `f` repeats in is its own list of first elements. -/
theorem firstsBy_eq_self {f : α → κ} {xs : List α} (h : xs.Pairwise fun x y => f x ≠ f y) :
    firstsBy f xs = xs := by
  induction xs with
  | nil => rfl
  | cons x xs ih =>
    obtain ⟨hx, hxs⟩ := List.pairwise_cons.mp h
    rw [firstsBy, ih hxs, List.filter_eq_self.mpr]
    exact fun y hy => by simpa using (hx y hy).symm

/-- The first elements of two lists: those of the first, then the new ones of the second. -/
theorem firstsBy_append (f : α → κ) (xs ys : List α) :
    firstsBy f (xs ++ ys)
      = firstsBy f xs ++ (firstsBy f ys).filter fun y => decide (f y ∉ xs.map f) := by
  induction xs with
  | nil => simp
  | cons x xs ih =>
    rw [List.cons_append, firstsBy, ih, List.filter_append, List.filter_filter, firstsBy,
      List.cons_append]
    congr 2
    refine List.filter_congr fun y _ => ?_
    simp [not_or]

/-- The first elements of part of a sorted list are part of the first elements. -/
theorem firstsBy_sublist_of_pairwise_le [PartialOrder κ] {xs ys : List κ}
    (hsorted : ys.Pairwise (· ≤ ·)) (h : xs.Sublist ys) :
    (firstsBy id xs).Sublist (firstsBy id ys) := by
  have hnodup : (firstsBy id xs).Nodup := by simpa using nodup_map_firstsBy id xs
  refine List.sublist_of_subperm_of_pairwise (r := (· ≤ ·)) ?_
    ((hsorted.sublist h).sublist (firstsBy_sublist id xs))
    (hsorted.sublist (firstsBy_sublist id ys))
  refine hnodup.subperm fun k hk => ?_
  obtain ⟨y, hy, rfl⟩ := exists_mem_firstsBy id (h.subset ((firstsBy_sublist id xs).subset hk))
  exact hy

/-! ### Groups -/

theorem groupBy_concat (f : α → κ) (xs : List α) (x : α) :
    groupBy f (xs ++ [x]) = (groupBy f xs).upsert (f x) fun o => o.getD [] ++ [x] := by
  simp [groupBy]

theorem keys_groupBy (f : α → κ) (xs : List α) :
    (groupBy f xs).keys = (firstsBy f xs).map f := by
  induction xs using List.reverseRecOn with
  | nil => rfl
  | append_singleton xs x ih =>
    rw [groupBy_concat, OrdDict.keys_upsert, ih, firstsBy_append, List.map_append,
      if_congr mem_map_firstsBy rfl rfl]
    split_ifs with h
    · rw [List.filter_eq_nil_iff.mpr, List.map_nil, List.append_nil]
      intro y hy
      obtain rfl : y = x := by simpa [firstsBy] using hy
      simpa using h
    · have hx : decide (f x ∉ xs.map f) = true := by simpa using h
      rw [show firstsBy f [x] = [x] from rfl, List.filter_cons, if_pos hx]
      rfl

/-- **A group is the elements of its value**, in the list's order. -/
theorem get?_groupBy (f : α → κ) (xs : List α) (k : κ) :
    (groupBy f xs).get? k
      = if k ∈ xs.map f then some (xs.filter fun x => decide (f x = k)) else none := by
  induction xs using List.reverseRecOn with
  | nil => rfl
  | append_singleton xs x ih =>
    rw [groupBy_concat, OrdDict.get?_upsert]
    by_cases hk : k = f x
    · subst hk
      have hnil : f x ∉ xs.map f → xs.filter (fun y => decide (f y = f x)) = [] := by
        intro hx
        refine List.filter_eq_nil_iff.mpr fun y hy hfy => hx ?_
        exact List.mem_map.mpr ⟨y, hy, by simpa using hfy⟩
      by_cases hx : f x ∈ xs.map f
      · rw [if_pos rfl, ih, if_pos hx, if_pos (by simp), Option.getD_some, List.filter_append]
        simp
      · rw [if_pos rfl, ih, if_neg hx, if_pos (by simp), Option.getD_none, List.filter_append,
          hnil hx]
        simp
    · have hmem : k ∈ (xs ++ [x]).map f ↔ k ∈ xs.map f := by
        simp [hk]
      have hx : ([x].filter fun y => decide (f y = k)) = [] := by
        simpa using Ne.symm hk
      rw [if_neg hk, ih, List.filter_append, hx, List.append_nil, if_congr hmem rfl rfl]

/-- A group read with the empty group for a missing key. -/
theorem getD_get?_groupBy (f : α → κ) (xs : List α) (k : κ) :
    ((groupBy f xs).get? k).getD [] = xs.filter fun x => decide (f x = k) := by
  rw [get?_groupBy]
  split_ifs with h
  · rfl
  · refine (List.filter_eq_nil_iff.mpr fun x hx hfx => h ?_).symm
    exact List.mem_map.mpr ⟨x, hx, by simpa using hfx⟩

/-- The groups in order: one for each first element. -/
theorem entries_groupBy (f : α → κ) (xs : List α) :
    (groupBy f xs).entries
      = (firstsBy f xs).map fun x => (f x, xs.filter fun y => decide (f y = f x)) := by
  refine Assoc.ext (groupBy f xs).nodupKeys ?_ fun k => ?_
  · rw [show Assoc.keys (groupBy f xs).entries = (groupBy f xs).keys from rfl, keys_groupBy,
      Assoc.keys, List.map_map]
    rfl
  · have hread : Assoc.get? ((firstsBy f xs).map fun x =>
        (f x, xs.filter fun y => decide (f y = f x))) k
          = if k ∈ (firstsBy f xs).map f then some (xs.filter fun y => decide (f y = k))
            else none := by
      induction firstsBy f xs with
      | nil => rfl
      | cons y ys ih =>
        rw [List.map_cons, Assoc.get?_cons, ih]
        by_cases hy : f y = k
        · simp [hy]
        · simp [hy, Ne.symm hy]
    rw [show Assoc.get? (groupBy f xs).entries k = (groupBy f xs).get? k from rfl,
      get?_groupBy, hread, if_congr mem_map_firstsBy rfl rfl]

/-- The first element of a group is the one `firstsBy` kept. -/
theorem head?_filter_of_mem_firstsBy {f : α → κ} {xs : List α} {x : α}
    (h : x ∈ firstsBy f xs) : (xs.filter fun y => decide (f y = f x)).head? = some x := by
  induction xs with
  | nil => simp at h
  | cons z xs ih =>
    rw [firstsBy] at h
    rcases List.mem_cons.mp h with rfl | h
    · simp
    · obtain ⟨hx, hne⟩ := List.mem_filter.mp h
      have hz : ¬ decide (f z = f x) = true := by
        simpa using fun e : f z = f x => by simp [e] at hne
      rw [List.filter_cons, if_neg hz, ih hx]

end Grouping
