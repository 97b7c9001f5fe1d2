import Haute.Rating.Step

/-!
# The columns a combined output is fed
-/

namespace Haute.Rating

open Haute.Data

variable {D V K ε : Type} {E : Engine D V K ε}

/-! ### Which tables take part -/

theorem skipReason_eq_none_iff {table : RatingTable V} : skipReason table = none ↔
    table.factors.getD [] ≠ [] ∧ table.entries.getD [] ≠ [] ∧ table.outputColumn.getD "" ≠ "" ∧
      rateKey ∈ entryColumns (table.entries.getD []) ∧
      ∀ f ∈ table.factors.getD [], f ∈ entryColumns (table.entries.getD []) := by
  have hmissing : ((table.factors.getD []).filter fun f =>
      decide (f ∉ entryColumns (table.entries.getD []))) = [] ↔
        ∀ f ∈ table.factors.getD [], f ∈ entryColumns (table.entries.getD []) := by
    simp [List.filter_eq_nil_iff]
  unfold skipReason
  by_cases hfactors : table.factors.getD [] = []
  · simp [hfactors]
  by_cases hentries : table.entries.getD [] = []
  · simp [hfactors, hentries]
  by_cases hout : table.outputColumn.getD "" = ""
  · simp [hfactors, hentries, hout]
  by_cases hvalue : rateKey ∈ entryColumns (table.entries.getD [])
  · rw [← hmissing]
    simp only [hfactors, hentries, hout, hvalue, not_true_eq_false, if_false, ne_eq,
      not_false_eq_true, true_and]
    split <;> simp_all
  · simp [hfactors, hentries, hout, hvalue]

/-- A table that is not refused makes a lookup exactly when it is not skipped, and the lookup
writes the column as it is configured. -/
theorem lookup_isSome_iff {table : RatingTable V} {schema : FrameSchema D}
    {built : Option (RatingTableLookup K)} (h : ratingTableLookup E table schema = .ok built) :
    (built.isSome ↔ skipReason table = none) ∧
      ∀ b ∈ built, b.outputColumn = table.outputColumn.getD "" := by
  rw [skipReason_eq_none_iff]
  unfold ratingTableLookup at h
  dsimp only at h
  split_ifs at h with hempty hnone hentries hcolumns
  all_goals obtain ⟨onMissing, -, h⟩ := bind_eq_ok.mp h
  · obtain rfl := Except.ok.inj h
    exact ⟨iff_of_false (by simp) fun hall => hnone.elim hall.1 hall.2.2.1, by simp⟩
  · split at h
    · cases h
    · obtain rfl := Except.ok.inj h
      exact ⟨iff_of_false (by simp) fun hall => hall.2.1 hentries, by simp⟩
  · split at h
    · cases h
    · obtain rfl := Except.ok.inj h
      refine ⟨iff_of_false (by simp) fun hall => ?_, by simp⟩
      rcases hcolumns with hvalue | ⟨f, hf, habsent⟩
      · exact hvalue hall.2.2.2.1
      · exact habsent (hall.2.2.2.2 f hf)
  · split at h
    · cases h
    · obtain ⟨data, -, h⟩ := bind_eq_ok.mp h
      obtain rfl := Except.ok.inj h
      rw [not_or] at hnone hcolumns
      refine ⟨iff_of_true rfl ⟨hnone.1, hentries, hnone.2, not_not.mp hcolumns.1, ?_⟩, by simp⟩
      intro f hf
      by_contra habsent
      exact hcolumns.2 ⟨f, hf, habsent⟩

/-- Applied, a table adds its column as it is configured, unless it is skipped. -/
theorem applyRatingTable_spec {lf lf' : LazyFrame D V K} {table : RatingTable V}
    {schema : FrameSchema D} (h : applyRatingTable E lf table schema = .ok lf') :
    lf'.fed = lf.fed ∧ lf'.lookedUp = lf.lookedUp ++
      if skipReason table = none then [table.outputColumn.getD ""] else [] := by
  obtain ⟨built, hbuilt, h⟩ := bind_eq_ok.mp h
  obtain ⟨hsome, hname⟩ := lookup_isSome_iff hbuilt
  cases built with
  | none =>
    obtain rfl := Except.ok.inj h
    have hskip : skipReason table ≠ none := fun hnone => by simpa using hsome.mpr hnone
    simp [hskip]
  | some b =>
    obtain rfl := Except.ok.inj h
    simp [LazyFrame.fed, LazyFrame.lookedUp, hsome.mp rfl, hname b rfl]

/-- The tables that take part. -/
def takingPart (tables : List (RatingTable V)) : List (RatingTable V) :=
  tables.filter fun t => decide (skipReason t = none)

/-- Applied in turn, the tables that take part add their columns as they are configured, and what
is registered are their names without surrounding blanks. -/
theorem applyTables_spec {tables : List (RatingTable V)} {lf lf' : LazyFrame D V K}
    {schema schema' : FrameSchema D} {outCols outCols' : List String}
    (h : applyTables E tables lf schema outCols = .ok (lf', schema', outCols')) :
    lf'.fed = lf.fed ∧
      lf'.lookedUp = lf.lookedUp ++ (takingPart tables).map (fun t => t.outputColumn.getD "") ∧
      outCols' = outCols ++
        ((takingPart tables).map outputName).filter fun name => decide (name ≠ "") := by
  induction tables generalizing lf schema outCols with
  | nil =>
    cases h
    simp [takingPart]
  | cons table tables ih =>
    obtain ⟨lf₁, hfirst, h⟩ := bind_eq_ok.mp h
    obtain ⟨hfed, hlooked⟩ := applyRatingTable_spec hfirst
    by_cases hname : outputName table = ""
    · rw [if_pos hname] at h
      obtain ⟨hfed', hlooked', hout⟩ := ih h
      refine ⟨hfed'.trans hfed, ?_, ?_⟩
      · rw [hlooked', hlooked]
        by_cases hskip : skipReason table = none <;> simp [takingPart, hskip]
      · rw [hout]
        by_cases hskip : skipReason table = none <;> simp [takingPart, hskip, hname]
    · rw [if_neg hname] at h
      cases hskip : skipReason table with
      | some reason =>
        simp only [hskip] at h
        obtain ⟨hfed', hlooked', hout⟩ := ih h
        exact ⟨hfed'.trans hfed, by simp [hlooked', hlooked, hskip, takingPart],
          by simp [hout, hskip, takingPart]⟩
      | none =>
        simp only [hskip] at h
        obtain ⟨hfed', hlooked', hout⟩ := ih h
        exact ⟨hfed'.trans hfed, by simp [hlooked', hlooked, hskip, takingPart],
          by simp [hout, hskip, takingPart, hname]⟩

/-- Each combined output is fed the columns that were registered. -/
theorem combineAll_spec {outCols : List String} {combinedOutputs : List (CombinedOutput V)}
    {lf lf' : LazyFrame D V K} {schema : FrameSchema D}
    (h : combineAll E outCols combinedOutputs lf schema = .ok lf') :
    lf'.lookedUp = lf.lookedUp ∧
      lf'.fed = lf.fed ++ List.replicate combinedOutputs.length outCols := by
  induction combinedOutputs generalizing lf schema with
  | nil =>
    cases h
    simp
  | cons combined rest ih =>
    obtain ⟨lf₁, hfirst, h⟩ := bind_eq_ok.mp h
    obtain ⟨hlooked, hfed⟩ := ih h
    unfold combineRatingOutput at hfirst
    simp only at hfirst
    split_ifs at hfirst
    all_goals
      obtain rfl := Except.ok.inj hfirst
      rw [hlooked, hfed]
      simp [LazyFrame.lookedUp, LazyFrame.fed, List.replicate_succ]

/-! ### When they agree -/

/-- Names without blanks around them, where they are not empty, are the names themselves exactly
when no name had blanks. -/
theorem registered_eq_iff {tables : List (RatingTable V)} :
    ((takingPart tables).map outputName).filter (fun name => decide (name ≠ "")) =
        (takingPart tables).map (fun t => t.outputColumn.getD "") ↔
      ∀ t ∈ tables, skipReason t = none →
        pyStrip (t.outputColumn.getD "") = t.outputColumn.getD "" := by
  have hmem : ∀ t, t ∈ takingPart tables ↔ t ∈ tables ∧ skipReason t = none := by
    intro t
    simp [takingPart]
  constructor
  · intro h t ht hskip
    -- nothing was filtered out, for nothing is missing
    have hlength := congrArg List.length h
    rw [List.length_map, ← List.length_map (f := outputName)] at hlength
    rw [List.filter_eq_self.mpr (List.length_filter_eq_length_iff.mp hlength)] at h
    exact List.map_inj_left.mp h t ((hmem t).mpr ⟨ht, hskip⟩)
  · intro h
    have hsame : (takingPart tables).map outputName =
        (takingPart tables).map fun t => t.outputColumn.getD "" :=
      List.map_congr_left fun t ht => h t ((hmem t).mp ht).1 ((hmem t).mp ht).2
    rw [hsame, List.filter_eq_self]
    intro name hname
    obtain ⟨t, ht, rfl⟩ := List.mem_map.mp hname
    exact decide_eq_true ((skipReason_eq_none_iff.mp ((hmem t).mp ht).2).2.2.1)

/-- **A rating step combines the columns its tables wrote** exactly when nothing is combined or
no table that takes part has an output column with blanks around its name. -/
theorem combined_columns_iff {source : FrameSchema D} {tables : List (RatingTable V)}
    {combinedOutputs : List (CombinedOutput V)} {lf : LazyFrame D V K}
    (h : applyRatingStepOutputs E ⟨source, []⟩ tables combinedOutputs = .ok lf) :
    (∀ columns ∈ lf.fed, columns = lf.lookedUp) ↔
      combinedOutputs = [] ∨ ∀ t ∈ tables, skipReason t = none →
        pyStrip (t.outputColumn.getD "") = t.outputColumn.getD "" := by
  obtain ⟨-, -, h⟩ := bind_eq_ok.mp h
  obtain ⟨⟨lf₁, schema, outCols⟩, happlied, h⟩ := bind_eq_ok.mp h
  obtain ⟨hfed₁, hlooked₁, hout⟩ := applyTables_spec happlied
  obtain ⟨hlooked, hfed⟩ := combineAll_spec h
  rw [hfed, hfed₁, hlooked, hlooked₁, hout, ← registered_eq_iff]
  by_cases hnone : combinedOutputs = [] <;> simp [LazyFrame.fed, LazyFrame.lookedUp, hnone]

/-! A table whose output column has a blank before its name. -/

section Blank

/-- A lookup is built from any entries. -/
def anyEntries : Engine Unit ℤ Unit Empty where
  float64 := ()
  build _ _ := .ok ()

/-- A table of regional factors, written to this column. -/
def regional (outputColumn : String) : RatingTable ℤ where
  factors := some ["region"]
  entries := some [.object [("region", 1), (rateKey, 2)]]
  outputColumn := some outputColumn
  defaultValue := none
  onMissing := none

/-- A premium. -/
def premium : CombinedOutput ℤ := ⟨"premium", "multiply", 100⟩

/-- What the step makes of a policy's region, the table written to this column. -/
def stepped (outputColumn : String) : LazyFrame Unit ℤ Unit where
  source := [("region", ())]
  plan := [.lookup ⟨["region"], outputColumn, (), "error"⟩,
    .combine ("__haute_rating_base_premium__", 100) ["factor"] "multiply" "premium"]

theorem blank_stepped : applyRatingStepOutputs anyEntries ⟨[("region", ())], []⟩
    [regional " factor"] [premium] = .ok (stepped " factor") := by rfl

/-- The lookup writes one column and the combined output is fed another. -/
theorem blank_missed : ∃ lf, applyRatingStepOutputs anyEntries ⟨[("region", ())], []⟩
      [regional " factor"] [premium] = .ok lf ∧ lf.lookedUp = [" factor"] ∧
    lf.fed = [["factor"]] ∧ ¬∀ columns ∈ lf.fed, columns = lf.lookedUp :=
  ⟨_, blank_stepped, by decide, by decide, by decide⟩

/-- A table of factors by age. -/
def aged : RatingTable ℤ where
  factors := some ["age"]
  entries := some [.object [("age", 1), (rateKey, 3)]]
  outputColumn := some "age_factor"
  defaultValue := none
  onMissing := none

/-- What the step makes of a policy's region and age. -/
def steppedTwice : LazyFrame Unit ℤ Unit where
  source := [("region", ()), ("age", ())]
  plan := [.lookup ⟨["region"], "factor", (), "error"⟩,
    .lookup ⟨["age"], "age_factor", (), "error"⟩,
    .combine ("__haute_rating_base_premium__", 100) ["factor", "age_factor"] "multiply" "premium"]

theorem plain_stepped : applyRatingStepOutputs anyEntries ⟨[("region", ()), ("age", ())], []⟩
    [regional "factor", aged] [premium] = .ok steppedTwice := by rfl

/-- Two tables, and the combined output is fed what both write. -/
theorem plain_combined : (∀ columns ∈ steppedTwice.fed, columns = steppedTwice.lookedUp) ↔
    [premium] = [] ∨ ∀ t ∈ [regional "factor", aged], skipReason t = none →
      pyStrip (t.outputColumn.getD "") = t.outputColumn.getD "" :=
  combined_columns_iff plain_stepped

end Blank

end Haute.Rating
