import Haute.Schema.Validate

/-!
# What validation accepts

`validateV2Schema` raises at the first check that fails. Here each of its loops is read as
the conditions under which it raises nothing: `ValidColumn` and `ValidTable` are one
column's and one table's own checks, and `validateV2Schema_eq_ok_iff` says that a config is
accepted exactly when every table is valid and no two labels are stored under one name.
-/

namespace Haute

/-- A column's type, as the config declares it. -/
def columnType? (column : List (String × Value)) : Option ColumnType :=
  match Assoc.get? column "type" with
  | some (.str s) => ColumnType.ofToken? s
  | _ => none

/-- Only a date column sets a format, and the format is a strftime pattern. -/
def ValidFormat (type : ColumnType) (column : List (String × Value)) : Prop :=
  ∀ format, Assoc.get? column "format" = some format →
    type = .date ∧ ∃ s, format = .str s ∧ s.toList.contains '%' = true

/-- The declared domain is absent, null or a non-empty list. -/
def ValidLevels (column : List (String × Value)) : Prop :=
  ∀ levels, Assoc.get? column "levels" = some levels → levels = .none ∨
    ∃ x xs, levels = .list (x :: xs)

/-- One column passes its own checks, under a name. -/
structure ValidColumn (tablePath : String) (column : List (String × Value)) (name : String) :
    Prop where
  selected : boolWhenPresent column "selected" = true
  status : oneOfWhenPresent column "status" ["Confirmed", "Inferred"] = true
  origin : oneOfWhenPresent column "origin" ["inferred", "inherited", "manual"] = true
  key : boolWhenPresent column "key" = true
  name : nonEmptyStr? (Assoc.get? column "name") = some name
  path : ∃ path, nonEmptyStr? (Assoc.get? column "path") = some path ∧
    ∃ leaf, parseColumnPath path tablePath = .ok leaf
  type : ∃ type, columnType? column = some type ∧ ValidFormat type column
  levels : ValidLevels column

/-- A value is a valid column under a name. -/
def IsValidColumn (tablePath : String) (column : Value) (name : String) : Prop :=
  ∃ fields, column = .dict fields ∧ ValidColumn tablePath fields name

/-- The row id column is absent, null or one of the table's columns. -/
def ValidRowIdColumn (table : List (String × Value)) (names : List String) : Prop :=
  ∀ value, Assoc.get? table "row_id_column" = some value →
    value = .none ∨ ∃ name, nonEmptyStr? (some value) = some name ∧ name ∈ names

/-- One table passes its own checks, under a label. -/
structure ValidTable (table : List (String × Value)) (label : String) : Prop where
  emit : boolWhenPresent table "emit" = true
  path : ∃ path, nonEmptyStr? (Assoc.get? table "path") = some path ∧
    (∃ segments, parseTablePath path = .ok segments) ∧
    ∃ columns names, (Assoc.get? table "columns").getD (.list []) = .list columns ∧
      List.Forall₂ (IsValidColumn path) columns names ∧ names.Nodup ∧ ValidRowIdColumn table names
  labelled : nonEmptyStr? (Assoc.get? table "label") = some label
  frameLabel : isFrameLabel label = true

/-- A value is a valid table under a label. -/
def IsValidTable (table : Value) (label : String) : Prop :=
  ∃ fields, table = .dict fields ∧ ValidTable fields label

/-- What a label's parquet file is called where the filesystem folds case. -/
def storedLabel (label : String) : String := casefold (sanitiseLabelForFilesystem label)

theorem validateFormat_eq_ok_iff {place label name : String} {type : ColumnType}
    {column : List (String × Value)} {u : Unit} :
    validateFormat place label name type column = .ok u ↔ ValidFormat type column := by
  rw [validateFormat, ValidFormat]
  cases Assoc.get? column "format" with
  | none => simp
  | some format =>
    simp only [bind_eq_ok_iff, require_eq_ok_iff, decide_eq_true_eq, exists_const,
      Option.some.injEq, forall_eq']
    refine and_congr_right fun _ => ?_
    cases format <;> simp

theorem validateLevels_eq_ok_iff {place : String} {column : List (String × Value)} {u : Unit} :
    validateLevels place column = .ok u ↔ ValidLevels column := by
  rw [validateLevels, ValidLevels]
  cases Assoc.get? column "levels" with
  | none => simp
  | some levels =>
    cases levels with
    | list xs => cases xs <;> simp
    | _ => simp

/-- **One column is accepted** exactly when it passes its own checks under a new name. -/
theorem validateColumn_eq_ok_iff {ti ci : ℕ} {tablePath label name : String} {seen : List String}
    {column : Value} : validateColumn ti ci tablePath label seen column = .ok name ↔
      IsValidColumn tablePath column name ∧ name ∉ seen := by
  rw [IsValidColumn]
  cases column with
  | dict fields =>
    simp only [validateColumn, pure_bind, bind_eq_ok_iff, require_eq_ok_iff, expect_eq_ok_iff,
      exists_const, Value.dict.injEq, exists_eq_left', Bool.not_eq_true', List.contains_eq_mem,
      decide_eq_false_iff_not, validateFormat_eq_ok_iff, validateLevels_eq_ok_iff]
    constructor
    · rintro ⟨hselected, hstatus, horigin, hkey, name', hname, hseen, path, hpath, leaf, hleaf,
        type, htype, hformat, hlevels, hpure⟩
      cases hpure
      exact ⟨⟨hselected, hstatus, horigin, hkey, hname, ⟨path, hpath, leaf, hleaf⟩,
        ⟨type, htype, hformat⟩, hlevels⟩, hseen⟩
    · rintro ⟨⟨hselected, hstatus, horigin, hkey, hname, ⟨path, hpath, leaf, hleaf⟩,
        ⟨type, htype, hformat⟩, hlevels⟩, hseen⟩
      exact ⟨hselected, hstatus, horigin, hkey, name, hname, hseen, path, hpath, leaf, hleaf,
        type, htype, hformat, hlevels, rfl⟩
  | _ => simp [validateColumn, bind, Except.bind, throw, throwThe, MonadExceptOf.throw]

/-- A table's columns are accepted exactly when each is, under names that do not repeat. -/
theorem validateColumns_eq_ok_iff {ti ci : ℕ} {tablePath label : String} {seen out : List String}
    {columns : List Value} : validateColumns ti tablePath label ci seen columns = .ok out ↔
      ∃ names, out = seen ++ names ∧ List.Forall₂ (IsValidColumn tablePath) columns names ∧
        names.Nodup ∧ List.Disjoint seen names := by
  induction columns generalizing ci seen with
  | nil => simp [validateColumns, eq_comm]
  | cons column columns ih =>
    simp only [validateColumns, bind_eq_ok_iff, validateColumn_eq_ok_iff, ih]
    constructor
    · rintro ⟨name, ⟨hcolumn, hseen⟩, names, rfl, hcolumns, hnodup, hdisjoint⟩
      rw [List.disjoint_append_left, List.singleton_disjoint] at hdisjoint
      refine ⟨name :: names, by simp, .cons hcolumn hcolumns, hnodup.cons hdisjoint.2, ?_⟩
      rw [List.disjoint_cons_right]
      exact ⟨hseen, hdisjoint.1⟩
    · rintro ⟨_, rfl, hall, hnodup, hdisjoint⟩
      cases hall with
      | @cons _ name _ names hcolumn hcolumns =>
        rw [List.disjoint_cons_right] at hdisjoint
        rw [List.nodup_cons] at hnodup
        refine ⟨name, ⟨hcolumn, hdisjoint.1⟩, names, by simp, hcolumns, hnodup.2, ?_⟩
        rw [List.disjoint_append_left, List.singleton_disjoint]
        exact ⟨hdisjoint.2, hnodup.1⟩

theorem validateRowIdColumn_eq_ok_iff {ti : ℕ} {table : List (String × Value)}
    {names : List String} {u : Unit} :
    validateRowIdColumn ti table names = .ok u ↔ ValidRowIdColumn table names := by
  rw [validateRowIdColumn, ValidRowIdColumn]
  cases Assoc.get? table "row_id_column" with
  | none => simp
  | some value =>
    cases value <;> simp [bind_eq_ok_iff]

/-- **One table is accepted** exactly when it passes its own checks under a label that is
stored under a new name. -/
theorem validateTable_eq_ok_iff {ti : ℕ} {seen : List String} {table : Value} {label : String} :
    validateTable ti seen table = .ok label ↔
      IsValidTable table label ∧ ∀ prior ∈ seen, storedLabel prior ≠ storedLabel label := by
  rw [IsValidTable]
  cases table with
  | dict fields =>
    simp only [validateTable, pure_bind, bind_eq_ok_iff, require_eq_ok_iff, expect_eq_ok_iff,
      exists_const, Value.dict.injEq, exists_eq_left', Bool.not_eq_true', List.contains_eq_mem,
      decide_eq_false_iff_not]
    have hfind : ∀ label', (seen.find? fun prior => casefold (sanitiseLabelForFilesystem prior)
        = casefold (sanitiseLabelForFilesystem label')) = none ↔
          ∀ prior ∈ seen, storedLabel prior ≠ storedLabel label' := fun label' => by
      simp [storedLabel]
    constructor
    · rintro ⟨hemit, path, hpath, segments, hsegments, label', hlabel, hframe, -, hrest⟩
      split at hrest
      · cases hrest
      next hnone =>
        split at hrest
        next columns hget =>
          simp only [bind_eq_ok_iff, validateColumns_eq_ok_iff, List.nil_append,
            validateRowIdColumn_eq_ok_iff, exists_const] at hrest
          obtain ⟨_, ⟨names, rfl, hall, hnodup, -⟩, hrow, hlabel'⟩ := hrest
          cases hlabel'
          exact ⟨⟨hemit, ⟨path, hpath, ⟨segments, hsegments⟩, columns, _, hget, hall, hnodup,
            hrow⟩, hlabel, hframe⟩, (hfind _).mp hnone⟩
        · cases hrest
    · rintro ⟨⟨hemit, ⟨path, hpath, ⟨segments, hsegments⟩, columns, names, hget, hall, hnodup,
        hrow⟩, hlabel, hframe⟩, hprior⟩
      refine ⟨hemit, path, hpath, segments, hsegments, label, hlabel, hframe,
        fun hmem => hprior label hmem rfl, ?_⟩
      rw [(hfind label).mpr hprior, hget]
      simp only [bind_eq_ok_iff, validateColumns_eq_ok_iff, List.nil_append,
        validateRowIdColumn_eq_ok_iff, exists_const]
      exact ⟨names, ⟨names, rfl, hall, hnodup, by simp⟩, hrow, rfl⟩
  | _ => simp [validateTable, bind, Except.bind, throw, throwThe, MonadExceptOf.throw]

theorem validateTables_eq_ok_iff {ti : ℕ} {seen : List String} {tables : List Value} :
    validateTables ti seen tables = .ok () ↔ ∃ labels, List.Forall₂ IsValidTable tables labels ∧
      (labels.map storedLabel).Nodup ∧ List.Disjoint (seen.map storedLabel)
        (labels.map storedLabel) := by
  induction tables generalizing ti seen with
  | nil => simp [validateTables]
  | cons table tables ih =>
    simp only [validateTables, bind_eq_ok_iff, validateTable_eq_ok_iff, ih, List.map_append,
      List.map_cons, List.map_nil, List.disjoint_append_left, List.singleton_disjoint]
    constructor
    · rintro ⟨label, ⟨htable, hseen⟩, labels, hall, hnodup, hdisjoint, hnew⟩
      refine ⟨label :: labels, .cons htable hall, hnodup.cons hnew, ?_⟩
      rw [List.map_cons, List.disjoint_cons_right]
      refine ⟨fun hmem => ?_, hdisjoint⟩
      obtain ⟨prior, hprior, heq⟩ := List.mem_map.mp hmem
      exact hseen prior hprior heq
    · rintro ⟨_, hall, hnodup, hdisjoint⟩
      cases hall with
      | @cons _ label _ labels htable hall =>
        rw [List.map_cons, List.disjoint_cons_right] at hdisjoint
        rw [List.map_cons, List.nodup_cons] at hnodup
        exact ⟨label, ⟨htable, fun prior hprior heq =>
          hdisjoint.1 (heq ▸ List.mem_map_of_mem hprior)⟩, labels, hall, hnodup.2, hdisjoint.2,
          hnodup.1⟩

/-- **A config is accepted** exactly when its tables are valid, under labels that are stored
under different names. -/
theorem validateV2Schema_eq_ok_iff {config : List (String × Value)} :
    validateV2Schema config = .ok () ↔ ∃ tables labels,
      Assoc.get? config "tables" = some (.list tables) ∧
      List.Forall₂ IsValidTable tables labels ∧ (labels.map storedLabel).Nodup := by
  rw [validateV2Schema]
  cases Assoc.get? config "tables" with
  | none => simp
  | some value =>
    cases value with
    | list tables =>
      simp [validateTables_eq_ok_iff]
    | _ => simp

end Haute
