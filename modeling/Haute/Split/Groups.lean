import Haute.Split.Mask

/-!
# Labels by group

A group's label is found by the Python text of its value when it is assigned and by the text that
Polars casts the value to when it is looked up. Where the two agree on every value of the column,
each row carries the label of its group (`groupMask_kept`); where they differ on one, some hash
leaves that value's rows without their group's label (`groupMask_lost`).
-/

namespace Haute.Split

open Data

variable {V : Type} {engine : Engine V}

/-! ### The groups and their labels -/

theorem mem_uniqueGroups [DecidableEq V] {cells : List (Option V)} {group : String} :
    group ∈ uniqueGroups engine cells ↔ ∃ cell ∈ cells, engine.str cell = group := by
  rw [uniqueGroups, (sortOn_perm _ _).mem_iff]
  simp

theorem get?_foldl_insert {f : String → Partition} {groups : List String}
    {found : OrdDict String Partition}
    (group : String) :
    (groups.foldl (fun found group => found.insert group (f group)) found).get? group =
      if group ∈ groups then some (f group) else found.get? group := by
  induction groups generalizing found with
  | nil => simp
  | cons other groups ih =>
    rw [List.foldl_cons, ih, OrdDict.insert, OrdDict.get?_upsert]
    by_cases hmem : group ∈ groups
    · simp [hmem]
    · by_cases heq : group = other
      · subst heq
        simp
      · simp [hmem, heq]

/-- The labels by hash alone. -/
def assignedLabels (engine : Engine V) (groups : List String) (validationSize holdoutSize : ℚ)
    (seed : ℤ) :
    OrdDict String Partition :=
  groups.foldl (fun found group =>
    found.insert group (groupLabel engine validationSize holdoutSize seed group)) .empty

theorem get?_assignedLabels (engine : Engine V) (groups : List String)
    (validationSize holdoutSize : ℚ) (seed : ℤ) (group : String) :
    (assignedLabels engine groups validationSize holdoutSize seed).get? group =
      if group ∈ groups then some (groupLabel engine validationSize holdoutSize seed group)
        else none := by
  rw [assignedLabels, get?_foldl_insert]
  rfl

/-- Either the labels are the hashes', or a first train group becomes the validation group. -/
theorem groupPartition_cases (engine : Engine V) (groups : List String)
    (validationSize holdoutSize : ℚ) (seed : ℤ) :
    (groupPartition engine groups validationSize holdoutSize seed =
        assignedLabels engine groups validationSize holdoutSize seed ∧
      (0 < validationSize → 1 < groups.length →
        (∃ group ∈ groups, groupLabel engine validationSize holdoutSize seed group = .validation) ∨
          ∀ group ∈ groups, groupLabel engine validationSize holdoutSize seed group = .holdout)) ∨
    ∃ group ∈ groups, groupPartition engine groups validationSize holdoutSize seed =
      (assignedLabels engine groups validationSize holdoutSize seed).insert group .validation ∧
      ∀ other ∈ groups, groupLabel engine validationSize holdoutSize seed other ≠ .validation := by
  have hentries : ((assignedLabels engine groups validationSize holdoutSize seed).entries.all
      fun entry => decide (entry.2 ≠ .validation)) = true ↔
      ∀ group ∈ groups, groupLabel engine validationSize holdoutSize seed group ≠ .validation := by
    rw [List.all_eq_true]
    constructor
    · intro h group hgroup
      have hget := get?_assignedLabels engine groups validationSize holdoutSize seed group
      rw [if_pos hgroup] at hget
      simpa using h _ (OrdDict.mem_entries_iff.mpr hget)
    · rintro h ⟨group, label⟩ hentry
      have hget := get?_assignedLabels engine groups validationSize holdoutSize seed group
      rw [OrdDict.mem_entries_iff.mp hentry] at hget
      split_ifs at hget with hgroup
      · rw [Option.some.inj hget]
        simpa using h group hgroup
  unfold groupPartition
  change ((if 0 < validationSize ∧ _ ∧ 1 < groups.length then _ else _) = _ ∧ _) ∨ _
  by_cases hfix : 0 < validationSize ∧
    ((assignedLabels engine groups validationSize holdoutSize seed).entries.all
      fun entry => decide (entry.2 ≠ .validation)) = true ∧ 1 < groups.length
  · have hnone := hentries.mp hfix.2.1
    cases hfind : groups.find? fun group => decide
        ((assignedLabels engine groups validationSize holdoutSize seed).get? group =
          some .train) with
    | none =>
      refine .inl ⟨?_, fun _ _ => .inr fun group hgroup => ?_⟩
      · rw [assignedLabels] at hfix hfind ⊢
        simp only [hfix, hfind, and_self, if_true]
      · have hget := get?_assignedLabels engine groups validationSize holdoutSize seed group
        rw [if_pos hgroup] at hget
        have htrain := List.find?_eq_none.mp hfind group hgroup
        rw [hget] at htrain
        cases hlabel : groupLabel engine validationSize holdoutSize seed group with
        | train => simp [hlabel] at htrain
        | validation => exact absurd hlabel (hnone group hgroup)
        | holdout => rfl
    | some group =>
      refine .inr ⟨group, List.mem_of_find?_eq_some hfind, ?_, hnone⟩
      rw [assignedLabels] at hfix hfind ⊢
      simp only [hfix, hfind, and_self, if_true]
  · refine .inl ⟨?_, fun hv hlength => .inl ?_⟩
    · rw [assignedLabels] at hfix ⊢
      simp only [hfix, if_false]
    · by_contra hno
      exact hfix ⟨hv, hentries.mpr fun group hgroup hlabel => hno ⟨group, hgroup, hlabel⟩, hlength⟩

/-- Every group has a label, and only groups have one. -/
theorem get?_groupPartition_isSome (engine : Engine V) (groups : List String)
    (validationSize holdoutSize : ℚ)
    (seed : ℤ) (group : String) :
    ((groupPartition engine groups validationSize holdoutSize seed).get? group).isSome ↔
      group ∈ groups := by
  have hassigned :
      ((assignedLabels engine groups validationSize holdoutSize seed).get? group).isSome ↔
      group ∈ groups := by
    rw [get?_assignedLabels]
    split_ifs with h <;> simp [h]
  rcases groupPartition_cases engine groups validationSize holdoutSize seed
    with ⟨heq, -⟩ | ⟨first, hfirst, heq, -⟩
  · rw [heq, hassigned]
  · rw [heq, OrdDict.insert, OrdDict.get?_upsert]
    split_ifs with h
    · simpa [h] using hfirst
    · exact hassigned

/-- Some group is a validation group, unless every group is a holdout group. -/
theorem exists_validation {groups : List String} {validationSize holdoutSize : ℚ} {seed : ℤ}
    (hv : 0 < validationSize) (hlength : 1 < groups.length)
    (hother : ∃ group ∈ groups,
      (groupPartition engine groups validationSize holdoutSize seed).get? group ≠ some .holdout) :
    ∃ group ∈ groups,
      (groupPartition engine groups validationSize holdoutSize seed).get? group =
        some .validation := by
  rcases groupPartition_cases engine groups validationSize holdoutSize seed
    with ⟨heq, hfound⟩ | ⟨first, hfirst, heq, -⟩
  · rcases hfound hv hlength with ⟨group, hgroup, hlabel⟩ | hall
    · exact ⟨group, hgroup, by rw [heq, get?_assignedLabels, if_pos hgroup, hlabel]⟩
    · obtain ⟨group, hgroup, hne⟩ := hother
      rw [heq, get?_assignedLabels, if_pos hgroup, hall group hgroup] at hne
      exact absurd rfl hne
  · exact ⟨first, hfirst, by rw [heq, OrdDict.insert, OrdDict.get?_upsert_self]⟩

/-! ### What a group split promises -/

/-- What a group split promises of a column and its rows' labels: a row has the label assigned to
its group, a group is in one partition, and some row is a validation row, where the sizes ask for it
and there are groups for it. -/
structure GroupPromise [DecidableEq V] (engine : Engine V) (cells : List (Option V))
    (validationSize holdoutSize : ℚ) (seed : ℤ) (labels : List Partition) : Prop where
  length_eq : labels.length = cells.length
  carried : ∀ (i : ℕ) (cell : Option V), cells[i]? = some cell → labels[i]? =
    (groupPartition engine (uniqueGroups engine cells) validationSize holdoutSize seed).get?
      (engine.str cell)
  together : ∀ i j : ℕ, cells[i]? = cells[j]? → labels[i]? = labels[j]?
  validation : 0 < validationSize → 1 < (uniqueGroups engine cells).length →
    (∃ group ∈ uniqueGroups engine cells, (groupPartition engine (uniqueGroups engine cells)
      validationSize holdoutSize seed).get? group ≠ some .holdout) → .validation ∈ labels

variable [DecidableEq V]

theorem groupMask_kept {df : Frame V} {groupColumn : String} {cells : List (Option V)}
    (hcolumn : df.column groupColumn = some cells)
    (htext : ∀ cell ∈ cells, engine.castText cell = engine.str cell)
    (validationSize holdoutSize : ℚ) (seed : ℤ) :
    ∃ labels, groupMask engine df groupColumn validationSize holdoutSize seed = .ok labels ∧
      GroupPromise engine cells validationSize holdoutSize seed labels := by
  refine ⟨_, by rw [groupMask, hcolumn], ?_⟩
  -- a row's label is its group's
  have hlabel : ∀ cell ∈ cells,
      some (((groupPartition engine (uniqueGroups engine cells) validationSize
      holdoutSize seed).get? (engine.castText cell)).getD .train) = (groupPartition engine
        (uniqueGroups engine cells) validationSize holdoutSize seed).get? (engine.str cell) := by
    intro cell hcell
    rw [htext cell hcell]
    obtain ⟨label, hget⟩ := Option.isSome_iff_exists.mp
      ((get?_groupPartition_isSome engine (uniqueGroups engine cells) validationSize
        holdoutSize seed _).mpr
        (mem_uniqueGroups.mpr ⟨cell, hcell, rfl⟩))
    rw [hget]
    rfl
  refine ⟨List.length_map _, fun i cell hi => ?_, fun i j hij => ?_, fun hv hlength hother => ?_⟩
  · rw [List.getElem?_map, hi, Option.map_some, hlabel cell (List.mem_of_getElem? hi)]
  · rw [List.getElem?_map, List.getElem?_map, hij]
  · obtain ⟨group, hgroup, hget⟩ := exists_validation hv hlength hother
    obtain ⟨cell, hcell, rfl⟩ := mem_uniqueGroups.mp hgroup
    refine List.mem_map.mpr ⟨cell, hcell, ?_⟩
    rw [htext cell hcell, hget]
    rfl

theorem append_right_inj_toString {seed : ℤ} {a b : String}
    (h : toString seed ++ ":" ++ a = toString seed ++ ":" ++ b) : a = b := by
  have hlist := congrArg String.toList h
  simp only [String.toList_append, List.append_cancel_left_eq] at hlist
  exact String.toList_inj.mp hlist

/-- A hash that puts one group first and the others last. -/
def firstHash (text other : String) : Fin (2 ^ 32) :=
  if other = text then 0 else Fin.last (2 ^ 32 - 1)

/-- A value whose texts differ, under a hash that makes its group a validation group and every other
group a train group. -/
theorem groupMask_lost {df : Frame V} {groupColumn : String} {cells : List (Option V)}
    (hcolumn : df.column groupColumn = some cells) {cell : Option V} (hcell : cell ∈ cells)
    (hdiffer : engine.castText cell ≠ engine.str cell) (seed : ℤ) {labels : List Partition}
    (hmask : groupMask { engine with hash := firstHash (toString seed ++ ":" ++ engine.str cell) }
      df groupColumn
      (1 / 2) 0 seed = .ok labels) :
    ¬ GroupPromise { engine with hash := firstHash (toString seed ++ ":" ++ engine.str cell) }
      cells (1 / 2) 0 seed
      labels := by
  intro hpromise
  set skewed : Engine V :=
    { engine with hash := firstHash (toString seed ++ ":" ++ engine.str cell) } with hskewed
  have hfirst : groupLabel skewed (1 / 2) 0 seed (engine.str cell) = .validation := by
    simp [groupLabel, hashFraction, hskewed, firstHash]
  have hrest : ∀ group ≠ engine.str cell, groupLabel skewed (1 / 2) 0 seed group = .train := by
    intro group hne
    have hhash : skewed.hash (toString seed ++ ":" ++ group) = Fin.last (2 ^ 32 - 1) :=
      if_neg fun h => hne (append_right_inj_toString h)
    have hfrac : hashFraction skewed seed group = (2 ^ 32 - 1) / 2 ^ 32 := by
      rw [hashFraction, hhash]
      norm_num
    rw [groupLabel, if_neg (by simp), if_neg]
    rw [hfrac]
    norm_num
  have hmem : engine.str cell ∈ uniqueGroups skewed cells := mem_uniqueGroups.mpr ⟨cell, hcell, rfl⟩
  have hpartition : groupPartition skewed (uniqueGroups skewed cells) (1 / 2) 0 seed =
      assignedLabels skewed (uniqueGroups skewed cells) (1 / 2) 0 seed := by
    rcases groupPartition_cases skewed (uniqueGroups skewed cells) (1 / 2) 0 seed
      with ⟨heq, -⟩ | ⟨_, _, _, hnone⟩
    · exact heq
    · exact absurd hfirst (hnone _ hmem)
  obtain ⟨i, hi⟩ := List.mem_iff_getElem?.mp hcell
  have hcarried := hpromise.carried i cell hi
  have hlabels : labels = cells.map fun cell =>
      ((groupPartition skewed (uniqueGroups skewed cells) (1 / 2) 0 seed).get?
        (engine.castText cell)).getD .train := by
    rw [groupMask, hcolumn] at hmask
    exact (Except.ok.inj hmask).symm
  have hstr : (assignedLabels skewed (uniqueGroups skewed cells) (1 / 2) 0 seed).get?
      (skewed.str cell) =
      some .validation := by
    rw [get?_assignedLabels, if_pos hmem]
    exact congrArg some hfirst
  have hcast : ((assignedLabels skewed (uniqueGroups skewed cells) (1 / 2) 0 seed).get?
      (engine.castText cell)).getD .train = .train := by
    rw [get?_assignedLabels, hrest _ hdiffer]
    split_ifs <;> rfl
  rw [hlabels, List.getElem?_map, hi, Option.map_some, hpartition, hcast, hstr] at hcarried
  exact absurd hcarried (by simp)

end Haute.Split
