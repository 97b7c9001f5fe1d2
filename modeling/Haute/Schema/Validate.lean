import Haute.Schema.Labels

/-!
# The input schema

`validateV2Schema` checks a raw config, a dict as it was read from disk, against the v2
invariants, and raises `ApiInputSchemaError` with the message and the context of the first
check that fails. Each loop of the source is a recursion that carries what the loop
accumulates: the labels seen and their filesystem forms over the tables, the column names
seen over a table's columns.

The paths are parsed by `parseTablePath` and `parseColumnPathFull`, the input side's two
readings of the shared grammar: a table sits at an array boundary, and a column is a level,
which locates it, and a dotted leaf below the level.
-/

namespace Haute

/-- A column's declared type. -/
inductive ColumnType where
  | int
  | float
  | str
  | bool
  | date
  deriving DecidableEq

namespace ColumnType

/-- The type's token in a config. -/
def token : ColumnType → String
  | int => "int"
  | float => "float"
  | str => "str"
  | bool => "bool"
  | date => "date"

/-- The type a token names. -/
def ofToken? (s : String) : Option ColumnType :=
  [int, float, str, bool, date].find? fun t => t.token = s

@[simp] theorem ofToken?_token (t : ColumnType) : ofToken? t.token = some t := by
  cases t <;> rfl

end ColumnType

/-- The leaf that addresses an array element itself. -/
def reservedLeaf : String := "$value"

/-! ### Paths -/

/-- Parse a table path: the root array, or segments that end at an array. -/
def parseTablePath (path : String) : Except PyError (List Seg) := do
  let parsed ← parseDataPath .apiInputSchema tablePathNoun path true reservedLeaf
  require (decide (parsed.segments.getLast?.map Seg.isArray ≠ some false))
    (.apiInputSchema ("v2 table path must end at an array '[:]' — a bare object key is not a " ++
      "table (its leaves are columns of the enclosing array level)") [("path", .str path)])
  pure parsed.segments

/-- `make_table_path`. -/
def makeTablePath (segments : List Seg) : String := makeOutputPath segments

/-- Split a column path into its locating segments and its leaf's object hops. -/
def parseColumnPathFull (columnPath : String) : Except PyError (Level × List String) := do
  let parsed ← parseDataPath .apiInputSchema columnPathNoun columnPath false reservedLeaf
  let leaf := (ownPart parsed.segments).map Seg.name
  require (!leaf.isEmpty)
    (.apiInputSchema "v2 column path names no leaf field (it ends at an array iterator)"
      [("column_path", .str columnPath)])
  pure (arrayPrefix parsed.segments, leaf)

/-- The column's leaf, after checking that it sits under its table or an ancestor of it. -/
def parseColumnPath (columnPath tablePath : String) : Except PyError (List String) := do
  let (locating, leaf) ← parseColumnPathFull columnPath
  let tableSegments ← parseTablePath tablePath
  require (decide (locating = tableSegments.take locating.length))
    (.apiInputSchema
      "v2 column path is neither under its table path nor under a proper ancestor of it"
      [("column_path", .str columnPath), ("table_path", .str tablePath)])
  pure leaf

/-! ### Validation -/

/-- A non-empty string. -/
def nonEmptyStr? : Option Value → Option String
  | some (.str s) => if s.isEmpty then none else some s
  | _ => none

/-- `key in d and type(d[key]) is not bool` fails. -/
def boolWhenPresent (fields : List (String × Value)) (key : String) : Bool :=
  match Assoc.get? fields key with
  | none => true
  | some (.bool _) => true
  | some _ => false

/-- `key in d` and the value is not one of the given strings fails. -/
def oneOfWhenPresent (fields : List (String × Value)) (key : String) (tokens : List String) :
    Bool :=
  match Assoc.get? fields key with
  | none => true
  | some (.str s) => tokens.contains s
  | some _ => false

/-- What a message calls table `ti`'s column `ci`. -/
private def columnPlace (ti ci : ℕ) : String :=
  "v2 tables[" ++ toString ti ++ "].columns[" ++ toString ci ++ "]"

/-- A date column's `format`, when it sets one, is a strftime pattern; no other column sets
one. -/
def validateFormat (place label name : String) (type : ColumnType)
    (column : List (String × Value)) : Except PyError Unit :=
  match Assoc.get? column "format" with
  | none => .ok ()
  | some format => do
    require (decide (type = .date))
      (.apiInputSchema (place ++ ".format is set on a " ++ pyRepr type.token ++
        " column; only a date column takes a format")
        [("table", .str label), ("column", .str name)])
    let isPattern := match format with
      | .str s => s.toList.contains '%'
      | _ => false
    require isPattern
      (.apiInputSchema (place ++ ".format must be a strftime pattern such as %d/%m/%Y")
        [("table", .str label), ("column", .str name), ("format", format)])

/-- `levels`, when set, is a non-empty list. -/
def validateLevels (place : String) (column : List (String × Value)) : Except PyError Unit :=
  match Assoc.get? column "levels" with
  | none => .ok ()
  | some .none => .ok ()
  | some (.list xs) =>
    require (!xs.isEmpty)
      (.apiInputSchema (place ++ ".levels is empty; use null to mean 'no declared domain'") [])
  | some levels => .error (.apiInputSchema
      (place ++ ".levels must be a list or null (got " ++ levels.typeName ++ ")") [])

/-- One column's checks; the result is its name. -/
def validateColumn (ti ci : ℕ) (tablePath label : String) (seen : List String) (column : Value) :
    Except PyError String := do
  let place := columnPlace ti ci
  let fields ← match column with
    | .dict fields => pure fields
    | _ => throw (.apiInputSchema (place ++ " is not a dict") [])
  require (boolWhenPresent fields "selected")
    (.apiInputSchema (place ++ ".selected must be a bool") [])
  require (oneOfWhenPresent fields "status" ["Confirmed", "Inferred"])
    (.apiInputSchema (place ++ ".status must be Confirmed or Inferred") [])
  require (oneOfWhenPresent fields "origin" ["inferred", "inherited", "manual"])
    (.apiInputSchema (place ++ ".origin must be inferred, inherited or manual") [])
  require (boolWhenPresent fields "key")
    (.apiInputSchema (place ++ ".key must be a bool") [])
  let name ← expect (nonEmptyStr? (Assoc.get? fields "name"))
    (.apiInputSchema (place ++ ".name is missing or not a non-empty string") [])
  require (!seen.contains name)
    (.apiInputSchema ("v2 tables[" ++ toString ti ++ "] (label=" ++ pyRepr label ++
      ") has duplicate column name " ++ pyRepr name) [])
  let path ← expect (nonEmptyStr? (Assoc.get? fields "path"))
    (.apiInputSchema (place ++ ".path is missing or not a non-empty string") [])
  let _ ← parseColumnPath path tablePath
  let type := match Assoc.get? fields "type" with
    | some (.str s) => ColumnType.ofToken? s
    | _ => none
  let type ← expect type
    (.apiInputSchema "v2 column type must be one of int|float|str|bool|date"
      [("table", .str label), ("column", .str name), ("type", Value.getKey fields "type")])
  validateFormat place label name type fields
  validateLevels place fields
  pure name

/-- A table's columns, in order: the result is the names seen. -/
def validateColumns (ti : ℕ) (tablePath label : String) :
    ℕ → List String → List Value → Except PyError (List String)
  | _, seen, [] => .ok seen
  | ci, seen, column :: columns => do
    let name ← validateColumn ti ci tablePath label seen column
    validateColumns ti tablePath label (ci + 1) (seen ++ [name]) columns

/-- `row_id_column`, when set, names one of the table's columns. -/
def validateRowIdColumn (ti : ℕ) (table : List (String × Value)) (names : List String) :
    Except PyError Unit :=
  match Assoc.get? table "row_id_column" with
  | none => .ok ()
  | some .none => .ok ()
  | some value => do
    let name ← expect (nonEmptyStr? (some value))
      (.apiInputSchema ("v2 tables[" ++ toString ti ++
        "].row_id_column must be null or a non-empty string") [])
    require (names.contains name)
      (.apiInputSchema ("v2 tables[" ++ toString ti ++ "].row_id_column=" ++ pyRepr name ++
        " does not match any column.name in this table")
        [("column_names", .list ((names.mergeSort (· ≤ ·)).map Value.str))])

/-- One table's checks, given the labels seen so far; the result is its label. -/
def validateTable (ti : ℕ) (seen : List String) (table : Value) : Except PyError String := do
  let place := "v2 tables[" ++ toString ti ++ "]"
  let fields ← match table with
    | .dict fields => pure fields
    | _ => throw (.apiInputSchema (place ++ " is not a dict") [])
  require (boolWhenPresent fields "emit") (.apiInputSchema (place ++ ".emit must be a bool") [])
  let path ← expect (nonEmptyStr? (Assoc.get? fields "path"))
    (.apiInputSchema (place ++ ".path is missing or not a non-empty string") [])
  let _ ← parseTablePath path
  let label ← expect (nonEmptyStr? (Assoc.get? fields "label"))
    (.apiInputSchema (place ++ ".label is missing or not a non-empty string " ++
      "(must be unique within the apiInput)") [])
  require (isFrameLabel label)
    (.apiInputSchema ("v2 table label " ++ pyRepr label ++ " must be an ASCII Python identifier " ++
      "and must not be a hard Python keyword") [("label", .str label)])
  require (!seen.contains label)
    (.apiInputSchema ("v2 table label " ++ pyRepr label ++ " appears more than once") [])
  let folded := casefold (sanitiseLabelForFilesystem label)
  match seen.find? fun prior => casefold (sanitiseLabelForFilesystem prior) = folded with
  | some prior => throw (.apiInputSchema ("v2 table labels collide under filesystem-safe " ++
      "sanitisation (both produce the same parquet filename — filenames are compared " ++
      "case-insensitively, because case-insensitive filesystems treat names differing only in " ++
      "case as the same file) — pick labels that differ in their " ++
      "letters/digits/underscores/hyphens, not only in case")
      [("label_a", .str prior), ("label_b", .str label),
        ("sanitised", .str (sanitiseLabelForFilesystem label))])
  | none => pure ()
  let columns ← match (Assoc.get? fields "columns").getD (.list []) with
    | .list columns => pure columns
    | _ => throw (.apiInputSchema (place ++ ".columns is not a list") [])
  let names ← validateColumns ti path label 0 [] columns
  validateRowIdColumn ti fields names
  pure label

/-- The tables, in order, each against the labels before it. -/
def validateTables : ℕ → List String → List Value → Except PyError Unit
  | _, _, [] => .ok ()
  | ti, seen, table :: tables => do
    let label ← validateTable ti seen table
    validateTables (ti + 1) (seen ++ [label]) tables

/-- Raise unless `config` keeps the v2 invariants. -/
def validateV2Schema (config : List (String × Value)) : Except PyError Unit :=
  match Assoc.get? config "tables" with
  | none => .error (.apiInputSchema "config is not in v2 shape (no `tables` key)" [])
  | some (.list tables) => validateTables 0 [] tables
  | some _ => .error (.apiInputSchema "v2 `tables` must be a list" [])

end Haute
