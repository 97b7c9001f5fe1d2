import Haute.Data.JsonText
import Haute.Data.Sorting

/-!
# Documents with sorted keys

Sorting the keys of a document twice is sorting them once, and its entries are sorted whatever
order they came in.
-/

namespace Haute.Data

namespace Json

variable {F : Type}

theorem byKey_eq_sortOn {α : Type} (fs : List (String × α)) : byKey fs = sortOn Prod.fst fs := rfl

theorem byKey_byKey {α : Type} (fs : List (String × α)) : byKey (byKey fs) = byKey fs := by
  refine List.mergeSort_of_pairwise ?_
  rw [byKey_eq_sortOn]
  exact (pairwise_sortOn Prod.fst fs).imp decide_eq_true

/-- Entries with distinct keys are sorted alike in any order. -/
theorem byKey_eq_of_perm {α : Type} {fs gs : List (String × α)} (h : fs.Perm gs)
    (hnodup : (fs.map Prod.fst).Nodup) : byKey fs = byKey gs :=
  sortOn_eq_of_perm h fun _ ha _ hb hab => List.inj_on_of_nodup_map hnodup ha hb hab

theorem sortEntries_byKey (fs : List (String × Json F)) :
    sortEntries (byKey fs) = byKey (sortEntries fs) := by
  rw [sortEntries_eq_map, sortEntries_eq_map, byKey_eq_sortOn, byKey_eq_sortOn]
  exact map_sortOn fun e _ => rfl

mutual

theorem sortKeys_sortKeys : ∀ v : Json F, v.sortKeys.sortKeys = v.sortKeys
  | .scalar _ => rfl
  | .str _ => rfl
  | .arr xs => by rw [sortKeys, sortKeys, sortElements_sortElements xs]
  | .obj fs => by
    rw [sortKeys, sortKeys, sortEntries_byKey, sortEntries_sortEntries fs, byKey_byKey]

theorem sortElements_sortElements : ∀ xs : List (Json F),
    sortElements (sortElements xs) = sortElements xs
  | [] => rfl
  | x :: xs => by
    rw [sortElements, sortElements, sortKeys_sortKeys x, sortElements_sortElements xs]

theorem sortEntries_sortEntries : ∀ fs : List (String × Json F),
    sortEntries (sortEntries fs) = sortEntries fs
  | [] => rfl
  | (k, v) :: fs => by
    rw [sortEntries, sortEntries, sortKeys_sortKeys v, sortEntries_sortEntries fs]

end

/-- A document is written as it is with its keys sorted. -/
theorem dumps_sortKeys (T : FloatText F) (v : Json F) : v.sortKeys.dumps T = v.dumps T :=
  (dumps_eq_iff T).mpr (sortKeys_sortKeys v)

end Json

end Haute.Data
