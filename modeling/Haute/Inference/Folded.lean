import Haute.Inference.Fold
import Mathlib.Algebra.Order.BigOperators.Group.Finset

/-!
# Folding every array

Each pass folds one array that was also held once. A fold reads an object hop of everything it moves
as an array, so the object hops recorded, counted over all places, get fewer (`unfolded_lt`): the
passes end, and what they leave was moved to the arrays and joined there (`folding_ends`).
-/

namespace Haute

/-! ### Object hops -/

/-- The object hops of a path. -/
def hops (path : List Seg) : ℕ := path.countP fun seg => !seg.isArray

@[simp] theorem hops_append (front rest : List Seg) :
    hops (front ++ rest) = hops front + hops rest :=
  List.countP_append

/-- `path'` is `path` with some of its object hops read as arrays. -/
def ReadAsArrays (path path' : List Seg) : Prop :=
  List.Forall₂ (fun seg seg' => seg.name = seg'.name ∧ (seg.isArray = true → seg'.isArray = true))
    path path'

theorem ReadAsArrays.refl (path : List Seg) : ReadAsArrays path path :=
  List.forall₂_same.mpr fun _ _ => ⟨rfl, id⟩

theorem ReadAsArrays.trans {a b c : List Seg} (hab : ReadAsArrays a b) (hbc : ReadAsArrays b c) :
    ReadAsArrays a c := by
  induction hab generalizing c with
  | nil => exact hbc
  | cons h _ ih =>
    cases hbc with
    | cons h' hbc => exact .cons ⟨h.1.trans h'.1, fun ha => h'.2 (h.2 ha)⟩ (ih hbc)

section OneFold

variable (front : List Seg) (key : String)

/-- The array at a key. -/
abbrev arrayAt : Level := front ++ [⟨key, true⟩]

/-- The same key, held once. -/
abbrev onceAt : List Seg := front ++ [⟨key, false⟩]

/-- The array a value is folded into is a level. -/
theorem isLevel_arrayAt : IsLevel (arrayAt front key) := (isLevel_concat _ _).mpr rfl

/-- A value held once stands at the parent level of its array. -/
theorem arrayPrefix_onceAt : arrayPrefix (onceAt front key) = arrayParent (arrayAt front key) := by
  rw [arrayPrefix_concat, arrayParent, List.dropLast_concat]
  rfl

/-- A value held once stands under the keys of its array. -/
theorem ownKeys_onceAt : ownKeys (onceAt front key) = arrayPath (arrayAt front key) := by
  rw [ownKeys, ownPart, arrayPath, arrayPrefix_onceAt, List.map_drop, List.map_drop]
  congr 1
  simp

/-- A fold moves a path to one that reads more of its keys as arrays. -/
theorem shift_readAsArrays (path : List Seg) :
    ReadAsArrays path (shift (onceAt front key) (arrayAt front key) path) := by
  unfold shift
  split_ifs with h
  · obtain ⟨rest, -, rfl⟩ := below_iff.mp h
    rw [List.drop_left, onceAt, arrayAt]
    refine List.rel_append (List.rel_append (ReadAsArrays.refl front) ?_) (ReadAsArrays.refl rest)
    exact .cons ⟨rfl, fun _ => rfl⟩ .nil
  · exact .refl path

/-- A fold takes one key hop from every path below the folded value. -/
theorem hops_shift (path : List Seg) :
    hops (shift (onceAt front key) (arrayAt front key) path) +
      (if Below (onceAt front key) path then 1 else 0) =
      hops path := by
  unfold shift
  split_ifs with h
  · obtain ⟨rest, -, rfl⟩ := below_iff.mp h
    rw [List.drop_left]
    simp only [hops_append]
    simp only [hops, List.countP_cons, List.countP_nil]
    simp
    omega
  · rfl

/-- A fold makes no path longer in key hops. -/
theorem hops_shift_le (path : List Seg) :
    hops (shift (onceAt front key) (arrayAt front key) path) ≤ hops path := by
  have := hops_shift front key path
  omega

/-- A fold moves levels to levels. -/
theorem isLevel_shift {level : Level} (h : IsLevel level) :
    IsLevel (shift (onceAt front key) (arrayAt front key) level) := by
  unfold shift
  split_ifs with hbelow
  · obtain ⟨rest, hne, rfl⟩ := below_iff.mp hbelow
    rw [List.drop_left]
    intro seg hseg
    refine h seg ?_
    rw [List.getLast?_append_of_ne_nil _ hne] at hseg ⊢
    exact hseg
  · exact h

end OneFold

/-- One place taken to another of the same keys: evidence of its kind, a leaf also among the
elements of an array. -/
inductive Taken : Site → Site → Prop where
  | object {l l' : Level} (h : ReadAsArrays l l') : Taken (.object l) (.object l')
  | elements {l l' : Level} (h : ReadAsArrays l l') : Taken (.elements l) (.elements l')
  | column {path path' : List Seg} (h : ReadAsArrays path path') : Taken
    (.column path) (.column path')
  | element {path : List Seg} {l : Level} (h : ReadAsArrays path l) : Taken
    (.column path) (.elements l)
  | container {path path' : List Seg} (h : ReadAsArrays path path') : Taken (.container path)
    (.container path')
  | null {path path' : List Seg} (h : ReadAsArrays path path') : Taken (.null path) (.null path')

theorem Taken.refl (p : Site) : Taken p p := by
  cases p with
  | object l => exact .object (.refl l)
  | elements l => exact .elements (.refl l)
  | column path => exact .column (.refl path)
  | container path => exact .container (.refl path)
  | null path => exact .null (.refl path)

theorem Taken.trans {p q r : Site} (hpq : Taken p q) (hqr : Taken q r) : Taken p r := by
  cases hpq with
  | object h => cases hqr with | object h' => exact .object (h.trans h')
  | elements h => cases hqr with | elements h' => exact .elements (h.trans h')
  | column h =>
    cases hqr with
    | column h' => exact .column (h.trans h')
    | element h' => exact .element (h.trans h')
  | element h => cases hqr with | elements h' => exact .element (h.trans h')
  | container h => cases hqr with | container h' => exact .container (h.trans h')
  | null h => cases hqr with | null h' => exact .null (h.trans h')

/-- A fold takes every site to one that reads more of its keys as arrays. -/
theorem taken_redirect (front : List Seg) (key : String) (p : Site) :
    Taken p (redirect (onceAt front key) (arrayAt front key) p) := by
  cases p with
  | column path =>
    rw [redirect]
    split_ifs with h
    · subst h
      exact .element (List.rel_append (ReadAsArrays.refl front) (.cons ⟨rfl, fun _ => rfl⟩ .nil))
    · exact .column (shift_readAsArrays front key path)
  | object level => exact .object (shift_readAsArrays front key level)
  | elements level => exact .elements (shift_readAsArrays front key level)
  | container path => exact .container (shift_readAsArrays front key path)
  | null path => exact .null (shift_readAsArrays front key path)

/-- What is held after a move was held somewhere before it. -/
theorem Moves.exists_of_ne_bot {r : Site → Site} {s t : InferenceState} (h : Moves r s t) {q : Site}
    (hq : q.isObject = false) (hne : t.evidence q ≠ ⊥) : ∃ p, r p = q ∧ s.evidence p ≠ ⊥ := by
  by_contra hnone
  refine hne (le_bot_iff.mp ((h.isLUB q hq).2 ?_))
  rintro _ ⟨p, hp, rfl⟩
  by_contra hp'
  exact hnone ⟨p, hp, fun heq => hp' (le_bot_iff.mpr heq)⟩

/-! ### The object hops recorded -/

/-- The full paths that nested dictionaries hold. -/
def leafPaths {ν : Type} (store : OrdDict Level (OrdDict ObjectPath ν)) : Finset (List Seg) :=
  ((store.entries.flatMap fun entry => entry.2.keys.map fun keys =>
    entry.1 ++ objectHops keys).filter fun path =>
    ((store.get? (arrayPrefix path)).bind fun inner => inner.get? (ownKeys path)).isSome).toFinset

/-- The paths of a store are those it holds an entry for. -/
theorem mem_leafPaths {ν : Type} {store : OrdDict Level (OrdDict ObjectPath ν)} {path : List Seg} :
    path ∈ leafPaths store ↔
      (store.get? (arrayPrefix path)).bind (fun inner => inner.get? (ownKeys path)) ≠ none := by
  rw [leafPaths, List.mem_toFinset, List.mem_filter, Option.isSome_iff_ne_none]
  refine and_iff_right_of_imp fun hne => ?_
  obtain ⟨value, hvalue⟩ := Option.ne_none_iff_exists'.mp hne
  obtain ⟨inner, hinner, hkeys⟩ := Option.bind_eq_some_iff.mp hvalue
  rw [List.mem_flatMap]
  refine ⟨_, OrdDict.mem_entries_iff.mpr hinner, List.mem_map.mpr
    ⟨_, OrdDict.mem_keys_iff.mpr ⟨value, hkeys⟩, ?_⟩⟩
  exact arrayPrefix_append_ownKeys path

namespace InferenceState

variable {s : InferenceState}

/-- The arrays seen. -/
def arrayLevels (s : InferenceState) : Finset (List Seg) :=
  (s.levels.keys ++ s.scalarLevels.keys).toFinset.erase []

/-- The object hops recorded, over all arrays, leaves and null leaves. -/
def unfolded (s : InferenceState) : ℕ :=
  ∑ level ∈ s.arrayLevels, hops level + ∑ path ∈ leafPaths s.levels, hops path +
    ∑ path ∈ leafPaths s.nullLeaves, hops path

/-- A path has a column exactly when there is evidence of one. -/
theorem mem_columns_iff {path : List Seg} :
    path ∈ leafPaths s.levels ↔ s.evidence (.column path) ≠ ⊥ := by
  rw [mem_leafPaths, evidence, Ne, Ne, recorded_eq_bot_iff, Option.map_eq_none_iff]
  rfl

/-- A path has a null leaf exactly when there is evidence of one. -/
theorem mem_nulls_iff {path : List Seg} :
    path ∈ leafPaths s.nullLeaves ↔ s.evidence (.null path) ≠ ⊥ := by
  rw [mem_leafPaths, evidence, Ne, Ne, recorded_eq_bot_iff, Option.map_eq_none_iff]
  rfl

/-- A level is held exactly when there is evidence of objects in it. -/
theorem mem_levels_keys_iff {level : Level} :
    level ∈ s.levels.keys ↔ s.evidence (.object level) ≠ ⊥ := by
  rw [evidence, Ne, recorded_eq_bot_iff, Option.map_eq_none_iff, OrdDict.get?_eq_none_iff, not_not]

/-- An array level is held exactly when there is evidence of elements in it. -/
theorem mem_scalarLevels_keys_iff {level : Level} :
    level ∈ s.scalarLevels.keys ↔ s.evidence (.elements level) ≠ ⊥ := by
  rw [evidence, Ne, recorded_eq_bot_iff, Option.map_eq_none_iff, OrdDict.get?_eq_none_iff, not_not]

/-- The array levels are the levels held, the root apart. -/
theorem mem_arrayLevels {level : Level} :
    level ∈ s.arrayLevels ↔ level ≠ [] ∧ (level ∈ s.levels.keys ∨ level ∈ s.scalarLevels.keys) := by
  rw [arrayLevels, Finset.mem_erase, List.mem_toFinset, List.mem_append]

end InferenceState

/-- Fewer object hops: each path of `after` is a path of `before`, not gone and taken along. -/
theorem sum_hops_le {before after : Finset (List Seg)} {gone : List Seg → Prop} [DecidablePred gone]
    {take : List Seg → List Seg} (htake : ∀ path, hops (take path) ≤ hops path)
    (h : ∀ path ∈ after, ∃ p ∈ before, ¬ gone p ∧ take p = path) :
    ∑ path ∈ after, hops path ≤ ∑ path ∈ before, hops path ∧
      ((∃ path ∈ before, (gone path ∧ 0 < hops path) ∨ hops (take path) < hops path) →
        ∑ path ∈ after, hops path < ∑ path ∈ before, hops path) := by
  have hsubset : after ⊆ (before.filter fun path => ¬ gone path).image take := fun path hpath => by
    obtain ⟨p, hp, hkept, rfl⟩ := h path hpath
    exact Finset.mem_image_of_mem _ (Finset.mem_filter.mpr ⟨hp, hkept⟩)
  have hafter : ∑ path ∈ after, hops path ≤ ∑ path ∈ before, if gone path then 0
      else hops (take path) := by
    calc ∑ path ∈ after, hops path ≤ ∑ path ∈ (before.filter fun path => ¬ gone path).image take,
      hops path :=
          Finset.sum_le_sum_of_subset hsubset
      _ ≤ ∑ path ∈ before.filter fun path => ¬ gone path, hops (take path) :=
          Finset.sum_image_le_of_nonneg fun _ _ => Nat.zero_le _
      _ = ∑ path ∈ before, if gone path then 0 else hops (take path) := by
          rw [Finset.sum_filter]
          exact Finset.sum_congr rfl fun path _ => by split_ifs <;> simp_all
  have hle (path : List Seg) : (if gone path then 0 else hops (take path)) ≤ hops path := by
    split_ifs
    · exact Nat.zero_le _
    · exact htake path
  refine ⟨hafter.trans (Finset.sum_le_sum fun path _ => hle path), fun ⟨path, hpath, hless⟩ => ?_⟩
  refine hafter.trans_lt (Finset.sum_lt_sum (fun path _ => hle path) ⟨path, hpath, ?_⟩)
  split_ifs with hgone
  · rcases hless with ⟨-, hpos⟩ | hless
    · exact hpos
    · exact Nat.zero_lt_of_lt hless
  · rcases hless with ⟨hgone', -⟩ | hless
    · exact absurd hgone' hgone
    · exact hless

namespace InferenceState

section OneFold

variable (s : InferenceState) (front : List Seg) (key : String)

/-- The state after folding the array at a key. -/
abbrev foldAt : InferenceState :=
  s.foldIntoArray (arrayParent (arrayAt front key)) (arrayPath (arrayAt front key))
    (arrayAt front key)

/-- A fold moves the evidence of each site to where the site is redirected. -/
theorem moves_foldAt :
    Moves (redirect (onceAt front key) (arrayAt front key)) s (s.foldAt front key) := by
  have h := s.moves_foldIntoArray (onceAt front key) (arrayAt front key) (isLevel_arrayAt front key)
  rwa [arrayPrefix_onceAt, ownKeys_onceAt] at h

/-- What was recorded below the place held once, or at it. -/
theorem exists_of_heldOnce
    (h : s.heldOnce (arrayParent (arrayAt front key)) (arrayPath (arrayAt front key)) = true) :
    (∃ path ∈ leafPaths s.levels, path = onceAt front key ∨ Below (onceAt front key) path) ∨
      (∃ path ∈ leafPaths s.nullLeaves, Below (onceAt front key) path) ∨
        ∃ level ∈ s.arrayLevels, Below (onceAt front key) level := by
  rw [← arrayPrefix_onceAt, ← ownKeys_onceAt] at h
  set once := onceAt front key
  -- a leaf of the parent's own is at its full path
  have hleaf {keys : ObjectPath} : arrayPrefix (arrayPrefix once ++ objectHops keys) =
      arrayPrefix once ∧
      ownKeys (arrayPrefix once ++ objectHops keys) = keys := by
    have hhops := fun seg => @isArray_of_mem_objectHops keys seg
    refine ⟨arrayPrefix_append (isLevel_arrayPrefix once) hhops, ?_⟩
    rw [ownKeys, ownPart_append (isLevel_arrayPrefix once) hhops, objectHops, List.map_map]
    exact List.map_id keys
  have hbelow {keys : ObjectPath} (hwithin : within keys (ownKeys once) = true) :
      Below once (arrayPrefix once ++ objectHops keys) := by
    rw [below_iff_place, hleaf.1, hleaf.2]
    exact .inr ⟨rfl, hwithin⟩
  have hmem {ν : Type} {store : OrdDict Level (OrdDict ObjectPath ν)} {keys : ObjectPath}
      (hkeys : keys ∈ ((store.get? (arrayPrefix once)).getD .empty).keys) :
      arrayPrefix once ++ objectHops keys ∈ leafPaths store := by
    rw [mem_leafPaths, hleaf.1, hleaf.2]
    cases hget : store.get? (arrayPrefix once) with
    | none =>
      rw [hget] at hkeys
      exact absurd hkeys List.not_mem_nil
    | some inner =>
      rw [hget] at hkeys
      obtain ⟨value, hvalue⟩ := OrdDict.mem_keys_iff.mp hkeys
      rw [Option.bind_some]
      exact Option.ne_none_iff_exists'.mpr ⟨value, hvalue⟩
  have hnested {ν : Type} {store : OrdDict Level ν}
      (hne : (nestedLevels store (arrayPrefix once ++ objectHops (ownKeys once))).isEmpty = false) :
      ∃ level ∈ store.keys, Below once level := by
    rw [arrayPrefix_append_ownKeys, List.isEmpty_eq_false_iff_exists_mem] at hne
    obtain ⟨level, hlevel⟩ := hne
    obtain ⟨hkey, htest⟩ := List.mem_filter.mp hlevel
    exact ⟨level, hkey, of_decide_eq_true ((Bool.decide_and _ _).trans htest)⟩
  have harray {level : Level} (hlevel : Below once level)
      (hkey : level ∈ s.levels.keys ∨ level ∈ s.scalarLevels.keys) :
      level ∈ s.arrayLevels := by
    refine mem_arrayLevels.mpr ⟨?_, hkey⟩
    rintro rfl
    exact absurd hlevel.1 (Nat.not_lt_zero _)
  simp only [heldOnce, Bool.or_eq_true, List.any_eq_true, Bool.not_eq_true', decide_eq_true_eq] at h
  rcases h with ((⟨keys, hkeys, hat⟩ | ⟨keys, hkeys, hwithin⟩) | hlevels) | hscalars
  · refine .inl ⟨_, hmem hkeys, ?_⟩
    rcases hat with rfl | hwithin
    · exact .inl (arrayPrefix_append_ownKeys once)
    · exact .inr (hbelow hwithin)
  · exact .inr (.inl ⟨_, hmem hkeys, hbelow hwithin⟩)
  · obtain ⟨level, hkey, hlevel⟩ := hnested hlevels
    exact .inr (.inr ⟨level, harray hlevel (.inl hkey), hlevel⟩)
  · obtain ⟨level, hkey, hlevel⟩ := hnested hscalars
    exact .inr (.inr ⟨level, harray hlevel (.inr hkey), hlevel⟩)

/-- The levels of objects after a fold: the root, the array, and those taken along. -/
theorem levels_foldAt {level : Level} (h : level ∈ (s.foldAt front key).levels.keys) :
    level = [] ∨ level = arrayAt front key ∨
      ∃ l ∈ s.levels.keys, shift (onceAt front key) (arrayAt front key) l = level := by
  have heq : (s.foldAt front key).levels =
      (s.left (onceAt front key)).levels.mergeWith mergeColumns
        (s.taken (onceAt front key) (arrayAt front key)).levels := by
    rw [foldAt, ← arrayPrefix_onceAt, ← ownKeys_onceAt]
    rfl
  rw [heq, OrdDict.mem_keys_mergeWith] at h
  rcases h with h | h
  · rw [mem_levels_keys_iff, objects_left] at h
    split_ifs at h with hbelow
    · exact absurd rfl h
    · refine .inr (.inr ⟨level, mem_levels_keys_iff.mpr h, ?_⟩)
      rw [shift, if_neg hbelow]
  · rw [levels_taken, OrdDict.mem_keys_iff, get?_rekey] at h
    obtain ⟨columns, h⟩ := h
    rcases Option.or_eq_some_iff.mp h with h | ⟨-, h⟩
    · split_ifs at h with hbelow
      refine .inr
        (.inr ⟨_, OrdDict.mem_keys_iff.mpr ⟨_, h⟩, shift_eq_iff.mpr (.inr ⟨?_, hbelow, rfl⟩)⟩)
      obtain ⟨rest, hne, rfl⟩ := below_iff.mp hbelow
      rw [List.drop_left]
      exact below_append hne
    · by_cases hlevel : level = arrayAt front key
      · exact .inr (.inl hlevel)
      · have hkeep : (s.takenColumns (onceAt front key) (arrayAt front key)).levels.get? level =
            new.levels.get? level := by
          refine foldl_keeps (f := fun m : InferenceState => m.levels.get? level)
            (fun moved entry => ?_) _ _
          unfold moveColumn
          split_ifs
          · rfl
          · exact OrdDict.get?_upsert_ne hlevel ..
          · rfl
        rw [hkeep] at h
        have hroot := OrdDict.mem_keys_iff.mpr ⟨_, h⟩
        exact .inl (List.mem_singleton.mp hroot)

/-- The element levels after a fold are the array folded into and the moved ones. -/
theorem scalarLevels_foldAt {level : Level} (h : level ∈ (s.foldAt front key).scalarLevels.keys) :
    level = arrayAt front key ∨ ∃ l ∈ s.scalarLevels.keys, shift (onceAt front key)
      (arrayAt front key) l = level := by
  obtain ⟨p, hp, hne⟩ :=
    (s.moves_foldAt front key).exists_of_ne_bot rfl (mem_scalarLevels_keys_iff.mp h)
  cases p with
  | elements l => exact .inr ⟨l, mem_scalarLevels_keys_iff.mpr hne, Site.elements.inj hp⟩
  | column path =>
    rw [redirect] at hp
    split_ifs at hp
    exact .inl (Site.elements.inj hp).symm
  | object l => cases hp
  | container path => cases hp
  | null path => cases hp

/-- The columns after a fold are the moved ones; the folded value's own is gone. -/
theorem columns_foldAt {path : List Seg} (h : path ∈ leafPaths (s.foldAt front key).levels) :
    ∃ p ∈ leafPaths s.levels, ¬ p = onceAt front key ∧
      shift (onceAt front key) (arrayAt front key) p = path := by
  obtain ⟨p, hp, hne⟩ := (s.moves_foldAt front key).exists_of_ne_bot rfl (mem_columns_iff.mp h)
  cases p with
  | column p =>
    rw [redirect] at hp
    split_ifs at hp with hkept
    exact ⟨p, mem_columns_iff.mpr hne, hkept, Site.column.inj hp⟩
  | object l => cases hp
  | elements l => cases hp
  | container path => cases hp
  | null path => cases hp

/-- The null leaves after a fold are the moved ones. -/
theorem nulls_foldAt {path : List Seg} (h : path ∈ leafPaths (s.foldAt front key).nullLeaves) :
    ∃ p ∈ leafPaths s.nullLeaves, ¬ False ∧ shift (onceAt front key) (arrayAt front key) p =
      path := by
  obtain ⟨p, hp, hne⟩ := (s.moves_foldAt front key).exists_of_ne_bot rfl (mem_nulls_iff.mp h)
  cases p with
  | null p => exact ⟨p, mem_nulls_iff.mpr hne, not_false, Site.null.inj hp⟩
  | column p =>
    rw [redirect] at hp
    split_ifs at hp
  | object l => cases hp
  | elements l => cases hp
  | container path => cases hp

/-- **A fold leaves fewer object hops**, where something was held once. -/
theorem unfolded_lt (harray : arrayAt front key ∈ s.arrayLevels)
    (h : s.heldOnce (arrayParent (arrayAt front key)) (arrayPath (arrayAt front key)) = true) :
    (s.foldAt front key).unfolded < s.unfolded := by
  set take := shift (onceAt front key) (arrayAt front key) with htake
  have hself : take (arrayAt front key) = arrayAt front key := by
    rw [htake, shift, if_neg]
    intro hbelow
    have hlen := hbelow.1
    simp at hlen
  have hless {path : List Seg} (hpath : Below (onceAt front key) path) : hops (take path) <
      hops path := by
    have heq := hops_shift front key path
    rw [if_pos hpath] at heq
    rw [htake]
    omega
  have harrays : ∀ level ∈ (s.foldAt front key).arrayLevels, ∃ l ∈ s.arrayLevels, ¬ False ∧
      take l = level := by
    intro level hlevel
    obtain ⟨hne, hkey⟩ := mem_arrayLevels.mp hlevel
    have htaken {l : Level} (hl : l ∈ s.levels.keys ∨ l ∈ s.scalarLevels.keys)
        (heq : take l = level) :
        ∃ l ∈ s.arrayLevels, ¬ False ∧ take l = level := by
      refine ⟨l, mem_arrayLevels.mpr ⟨?_, hl⟩, not_false, heq⟩
      rintro rfl
      refine hne (heq.symm.trans ?_)
      rw [htake, shift, if_neg fun hbelow => absurd hbelow.1 (Nat.not_lt_zero _)]
    rcases hkey with hkey | hkey
    · rcases s.levels_foldAt front key hkey with rfl | rfl | ⟨l, hl, heq⟩
      · exact absurd rfl hne
      · exact ⟨_, harray, not_false, hself⟩
      · exact htaken (.inl hl) heq
    · rcases s.scalarLevels_foldAt front key hkey with rfl | ⟨l, hl, heq⟩
      · exact ⟨_, harray, not_false, hself⟩
      · exact htaken (.inr hl) heq
  obtain ⟨hlevels, hlevels'⟩ := sum_hops_le (hops_shift_le front key) harrays
  obtain ⟨hcolumns, hcolumns'⟩ :=
    sum_hops_le (hops_shift_le front key) fun path => s.columns_foldAt front key
  obtain ⟨hnulls, hnulls'⟩ :=
    sum_hops_le (hops_shift_le front key) fun path => s.nulls_foldAt front key
  simp only [unfolded]
  rcases s.exists_of_heldOnce front key h
    with ⟨path, hpath, hat⟩ | ⟨path, hpath, hbelow⟩ | ⟨level, hlevel, hbelow⟩
  · have hpos : 0 < hops (onceAt front key) := by
      simp only [hops_append]
      exact Nat.add_pos_right _ Nat.one_pos
    have hlt := hcolumns' ⟨path, hpath, hat.imp (fun heq => ⟨heq, heq ▸ hpos⟩) hless⟩
    omega
  · have hlt := hnulls' ⟨path, hpath, .inr (hless hbelow)⟩
    omega
  · have hlt := hlevels' ⟨level, hlevel, .inr (hless hbelow)⟩
    omega

/-- A fold keeps every level of the state a level. -/
theorem levelled_foldAt (hs : s.Levelled) : (s.foldAt front key).Levelled := by
  constructor
  · intro level hlevel
    rcases s.levels_foldAt front key hlevel with rfl | rfl | ⟨l, hl, rfl⟩
    · exact isLevel_nil
    · exact isLevel_arrayAt front key
    · exact isLevel_shift front key (hs.1 l hl)
  · intro level hlevel
    rcases s.scalarLevels_foldAt front key hlevel with rfl | ⟨l, hl, rfl⟩
    · exact isLevel_arrayAt front key
    · exact isLevel_shift front key (hs.2 l hl)

end OneFold

/-! ### The passes -/

/-- The sorted array levels are the array levels. -/
theorem mem_arrays {s : InferenceState} {level : Level} :
    level ∈ s.arrays ↔ level ∈ s.arrayLevels := by
  rw [arrays, List.mem_insertionSort, List.mem_filter, List.mem_dedup, List.mem_append,
    mem_arrayLevels, and_comm]
  simp

/-- Every mixed array found is an array at a key. -/
theorem exists_arrayAt {s : InferenceState} (hs : s.Levelled) {level : Level}
    (h : level ∈ s.arrays) :
    ∃ front key, level = arrayAt front key := by
  obtain ⟨hne, hkey⟩ := mem_arrayLevels.mp (mem_arrays.mp h)
  have hlevel : IsLevel level := hkey.elim (hs.1 level) (hs.2 level)
  obtain ⟨front, seg, rfl⟩ := List.eq_nil_or_concat' level |>.resolve_left hne
  refine ⟨front, seg.name, ?_⟩
  have hseg : seg.isArray = true := (isLevel_concat _ _).mp hlevel
  rw [arrayAt, ← hseg]

/-- **The passes end**, in no more of them than object hops were recorded, and what they leave was
moved to arrays. -/
theorem exists_folded (passes : ℕ) {s : InferenceState} (hs : s.Levelled)
    (h : s.unfolded ≤ passes) :
    ∃ (folded : InferenceState) (r : Site → Site), foldSingleValuesIntoArrays passes s =
      some folded ∧
      folded.mixedArray = none ∧ Moves r s folded ∧ ∀ p, Taken p (r p) := by
  induction passes generalizing s with
  | zero =>
    cases hmixed : s.mixedArray with
    | none =>
        exact ⟨s, id, by
          rw [foldSingleValuesIntoArrays, hmixed]; rfl, hmixed, .refl s, fun p => .refl _⟩
    | some level =>
      have hmem := List.mem_of_find?_eq_some hmixed
      obtain ⟨front, key, rfl⟩ := exists_arrayAt hs hmem
      have hlt :=
        s.unfolded_lt front key (mem_arrays.mp hmem) (by simpa using List.find?_some hmixed)
      omega
  | succ passes ih =>
    rw [foldSingleValuesIntoArrays]
    cases hmixed : s.mixedArray with
    | none => exact ⟨s, id, rfl, hmixed, .refl s, fun p => .refl _⟩
    | some level =>
      have hmem := List.mem_of_find?_eq_some hmixed
      obtain ⟨front, key, rfl⟩ := exists_arrayAt hs hmem
      have hlt :=
        s.unfolded_lt front key (mem_arrays.mp hmem) (by simpa using List.find?_some hmixed)
      obtain ⟨folded, r, hfolded, hdone, hmoves, hread⟩ :=
        ih (s.levelled_foldAt front key hs) (by omega)
      exact ⟨folded, _, hfolded, hdone, (s.moves_foldAt front key).trans hmoves,
        fun p => (taken_redirect front key p).trans (hread _)⟩

/-- More passes than it takes change nothing. -/
theorem folded_of_le {passes more : ℕ} (hle : passes ≤ more) {s folded : InferenceState}
    (h : foldSingleValuesIntoArrays passes s = some folded) :
    foldSingleValuesIntoArrays more s = some folded := by
  induction passes generalizing s more with
  | zero =>
    rw [foldSingleValuesIntoArrays] at h
    split_ifs at h with hdone
    cases more with
    | zero => rw [foldSingleValuesIntoArrays, if_pos hdone, h]
    | succ more =>
      rw [foldSingleValuesIntoArrays, Option.isNone_iff_eq_none.mp hdone]
      exact h
  | succ passes ih =>
    obtain ⟨more, rfl⟩ : ∃ m, more = m + 1 := ⟨more - 1, by omega⟩
    rw [foldSingleValuesIntoArrays] at h ⊢
    cases hmixed : s.mixedArray with
    | none =>
      rw [hmixed] at h
      exact h
    | some level =>
      rw [hmixed] at h
      exact ih (by omega) h

/-- The states that walks and merges reach. -/
inductive Reached : InferenceState → Prop where
  | new : Reached .new
  | walk {s s' : InferenceState} {v : Value} (hs : Reached s)
    (h : walk [] [] v s = .ok s') : Reached s'
  | merge {s t : InferenceState} (hs : Reached s) (ht : Reached t) : Reached (s.merge t)

/-- In every reached state what is held as a level is one. -/
theorem Reached.levelled {s : InferenceState} (h : s.Reached) : s.Levelled := by
  induction h with
  | new =>
    refine ⟨fun level hlevel => ?_, fun level hlevel => absurd hlevel List.not_mem_nil⟩
    obtain rfl := List.mem_singleton.mp hlevel
    exact isLevel_nil
  | walk _ h ih =>
    have hnoted := walk_noted isLevel_nil _ h
    clear h
    induction hnoted with
    | refl => exact ih
    | tail _ hlast ih => exact hlast.levelled ih
  | merge _ _ hs ht =>
    exact ⟨fun level hlevel =>
      (OrdDict.mem_keys_mergeWith.mp hlevel).elim (hs.1 level) (ht.1 level),
      fun level hlevel => (OrdDict.mem_keys_mergeWith.mp hlevel).elim (hs.2 level) (ht.2 level)⟩

/-- **Folding ends and finishes.** Of a state that walks and merges reach, the passes end in one
state, however many more are allowed; no array of it was also held once; and each place was taken to
one of the same keys, some object hops read as arrays, so that no evidence is lost and what is
recorded at a place is the join of what was recorded at the places taken there. -/
theorem folding_ends {s : InferenceState} (h : s.Reached) :
    ∃ (folded : InferenceState) (r : Site → Site),
      (∀ passes, s.unfolded ≤ passes → foldSingleValuesIntoArrays passes s = some folded) ∧
      (∀ level ∈ folded.arrays, folded.heldOnce (arrayParent level) (arrayPath level) = false) ∧
      (∀ p, Taken p (r p)) ∧ (∀ p, s.evidence p ≤ folded.evidence (r p)) ∧
      ∀ q, q.isObject = false → IsLUB (s.evidence '' {p | r p = q}) (folded.evidence q) := by
  obtain ⟨folded, r, hfolded, hdone, hmoves, htaken⟩ := exists_folded s.unfolded h.levelled le_rfl
  refine ⟨folded, r, fun passes hle => folded_of_le hle hfolded, fun level hlevel =>
    ?_, htaken, hmoves.le, hmoves.isLUB⟩
  simpa using List.find?_eq_none.mp hdone level hlevel

/-- A driver seen as an array and as one object, its age as a number and as a text. -/
theorem folding_ends_driver :
    ∃ s₁ s₂, Haute.walk [] [] (.dict [("driver", .list [.dict [("age", .int 30)]])]) .new = .ok s₁ ∧
      Haute.walk [] [] (.dict [("driver", .dict [("age", .str "31")])]) s₁ = .ok s₂ ∧
      ∃ (folded : InferenceState) (r : Site → Site),
        (∀ passes, s₂.unfolded ≤ passes → foldSingleValuesIntoArrays passes s₂ = some folded) ∧
        (∀ level ∈ folded.arrays, folded.heldOnce (arrayParent level) (arrayPath level) = false) ∧
        (∀ p, Taken p (r p)) ∧ (∀ p, s₂.evidence p ≤ folded.evidence (r p)) ∧
        ∀ q, q.isObject = false → IsLUB (s₂.evidence '' {p | r p = q}) (folded.evidence q) := by
  refine ⟨_, _, rfl, rfl, folding_ends ?_⟩
  exact .walk (v := .dict [("driver", .dict [("age", .str "31")])])
    (.walk (v := .dict [("driver", .list [.dict [("age", .int 30)]])]) .new rfl) rfl

end InferenceState

end Haute
