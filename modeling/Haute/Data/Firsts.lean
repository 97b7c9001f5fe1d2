import Mathlib.Data.List.Nodup

/-!
# First occurrences

`firsts xs` keeps each element where it is first, as the keys of a dict stand that is filled in
turn.
-/

namespace Haute.Data

variable {ι : Type} [DecidableEq ι]

/-- A key at its place, which is the end if it is new. -/
def register (keys : List ι) (x : ι) : List ι := if x ∈ keys then keys else keys ++ [x]

/-- Each element where it is first. -/
def firsts (xs : List ι) : List ι := xs.foldl register []

@[simp]
theorem mem_register {keys : List ι} {x y : ι} : y ∈ register keys x ↔ y ∈ keys ∨ y = x := by
  unfold register
  split_ifs with hx
  · exact ⟨.inl, fun h => h.elim id fun e => e ▸ hx⟩
  · simp

theorem register_of_mem {keys : List ι} {x : ι} (h : x ∈ keys) : register keys x = keys :=
  if_pos h

theorem register_of_notMem {keys : List ι} {x : ι} (h : x ∉ keys) :
    register keys x = keys ++ [x] := if_neg h

theorem nodup_register {keys : List ι} (h : keys.Nodup) (x : ι) : (register keys x).Nodup := by
  unfold register
  split_ifs with hx
  · exact h
  · refine List.nodup_append.mpr ⟨h, by simp, ?_⟩
    rintro a ha b hb rfl
    exact hx (List.mem_singleton.mp hb ▸ ha)

theorem mem_foldl_register {keys xs : List ι} {x : ι} :
    x ∈ xs.foldl register keys ↔ x ∈ keys ∨ x ∈ xs := by
  induction xs generalizing keys with
  | nil => simp
  | cons y xs ih => rw [List.foldl_cons, ih, mem_register, List.mem_cons, or_assoc]

theorem mem_firsts {xs : List ι} {x : ι} : x ∈ firsts xs ↔ x ∈ xs := by
  unfold firsts
  rw [mem_foldl_register]
  simp

theorem nodup_firsts (xs : List ι) : (firsts xs).Nodup := by
  have hfold : ∀ keys : List ι, keys.Nodup → (xs.foldl register keys).Nodup := by
    induction xs with
    | nil => exact fun keys h => h
    | cons y xs ih => exact fun keys h => ih _ (nodup_register h y)
  exact hfold [] List.nodup_nil

theorem foldl_register_replicate {keys : List ι} {x : ι} {n : ℕ} (h : x ∈ keys) :
    (List.replicate n x).foldl register keys = keys := by
  induction n with
  | zero => rfl
  | succ n ih => rw [List.replicate_succ, List.foldl_cons, register_of_mem h, ih]

/-- Where each of distinct elements stands several times in a row, or not at all, what is left is
those that are there. -/
theorem firsts_flatMap_replicate {α : Type} {xs : List α} {f : α → ι} (hnodup : (xs.map f).Nodup)
    (n : α → ℕ) : firsts (xs.flatMap fun x => List.replicate (n x) (f x)) =
      (xs.filter fun x => decide (0 < n x)).map f := by
  have hfold : ∀ keys : List ι, (∀ x ∈ xs, f x ∉ keys) →
      (xs.flatMap fun x => List.replicate (n x) (f x)).foldl register keys =
        keys ++ (xs.filter fun x => decide (0 < n x)).map f := by
    induction xs with
    | nil => simp
    | cons x xs ih =>
      intro keys hkeys
      rw [List.map_cons, List.nodup_cons] at hnodup
      rw [List.flatMap_cons, List.foldl_append]
      cases hn : n x with
      | zero =>
        rw [List.replicate_zero, List.foldl_nil,
          ih hnodup.2 keys fun y hy => hkeys y (List.mem_cons_of_mem x hy),
          List.filter_cons_of_neg (by simp [hn])]
      | succ m =>
        rw [List.replicate_succ, List.foldl_cons,
          register_of_notMem (hkeys x List.mem_cons_self), foldl_register_replicate (by simp),
          ih hnodup.2 (keys ++ [f x]), List.filter_cons_of_pos (by simp [hn]), List.map_cons,
          List.append_assoc, List.singleton_append]
        intro y hy hm
        rcases List.mem_append.mp hm with hm | hm
        · exact hkeys y (List.mem_cons_of_mem x hy) hm
        · exact hnodup.1 (List.mem_singleton.mp hm ▸ List.mem_map_of_mem hy)
  unfold firsts
  simpa using hfold [] (by simp)

end Haute.Data
