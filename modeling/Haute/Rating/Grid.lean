import Haute.Data.Answers
import Haute.Data.Assoc
import Haute.Data.JsonText
import Haute.Data.Pivot

/-!
# The grid of a rating table

A rating table holds one entry for each combination of its factors' levels; its sidecar holds the
same rates as a grid, the last factor's levels across. `gridFromEntries` lays the entries out and
`entriesFromGrid` reads them back; both are the library's `pivot` and `unpivot` where there is
more than one factor (`gridFromEntries_many`, `entriesFromGrid_many`).
-/

namespace Haute.Rating

open Haute.Data

deriving instance DecidableEq for Haute.Data.Scalar

variable {F : Type}

/-- A level or a rate: a number, a text, a truth value or `null`. -/
inductive Cell (F : Type) where
  | scalar (s : Scalar F)
  | str (s : String)
  deriving DecidableEq

/-- No rate. -/
abbrev Cell.null : Cell F := .scalar .null

/-- The cell as a JSON value. -/
def Cell.toJson : Cell F → Json F
  | .scalar s => .scalar s
  | .str s => .str s

/-- One entry of a rating table: each factor's level, and the rate. -/
abbrev Entry (F : Type) := List (String × Cell F)

/-- The key every entry holds its rate under. -/
def rateKey : String := "value"

/-- A rating table, as the program holds it with `entries`, as its sidecar does with `columns` and
`rows`; the other settings are kept as they are. -/
@[ext]
structure Table (F : Type) where
  factors : List String
  settings : List (String × Json F)
  entries : Option (List (Entry F))
  columns : Option (List (Cell F))
  rows : Option (List (List (Cell F)))

/-- Why a grid is not written or not read. -/
inductive GridError where
  /-- An entry holds a key a grid cannot keep. -/
  | cannotKeep (key : String)
  /-- An entry is without a key. -/
  | keyError (key : String)
  /-- A table is in the row-array form. -/
  | rowArrayForm (table : ℕ)
  /-- A table has columns but no rows. -/
  | noRows (table : ℕ)
  /-- A table's factors must be a non-empty list. -/
  | noFactors (table : ℕ)
  /-- A table has one factor, with no columns. -/
  | oneFactor (table : ℕ)
  /-- A row must be a level and its rate. -/
  | notLevelAndRate (table row : ℕ)
  /-- A table's columns must list the levels of its last factor. -/
  | noColumns (table : ℕ)
  /-- A row must hold so many levels and so many rates. -/
  | wrongWidth (table row levels rates : ℕ)
  deriving DecidableEq

/-! ### Writing -/

/-- A level's identity as written. -/
def levelKey (T : FloatText F) (level : Json F) : String := level.dumps T

/-- The keys of an entry that are no factor and no rate, sorted. -/
def extraKeys (factors : List String) (e : Entry F) : List String :=
  ((Assoc.keys e).filter fun key => decide (key ∉ factors ∧ key ≠ rateKey)).mergeSort

/-- The first entry's key that a grid cannot keep is refused. -/
def checkKeys (factors : List String) : List (Entry F) → Except GridError Unit
  | [] => .ok ()
  | e :: es =>
    match (extraKeys factors e).head? with
    | some key => .error (.cannotKeep key)
    | none => checkKeys factors es

/-- `entry[key]`. -/
def item (e : Entry F) (key : String) : Except GridError (Cell F) :=
  match Assoc.get? e key with
  | some cell => .ok cell
  | none => .error (.keyError key)

/-- What an entry says: the leading factors' levels, the last factor's, and the rate. -/
def readEntry (leading : List String) (last : String) (e : Entry F) :
    Except GridError (List (Cell F) × Cell F × Cell F) := do
  let column ← item e last
  let levels ← leading.mapM (item e)
  let rate ← item e rateKey
  .ok (levels, column, rate)

/-- `d.setdefault(key, value)`. -/
def setDefault {ν : Type} (d : List (String × ν)) (key : String) (v : ν) : List (String × ν) :=
  if key ∈ Assoc.keys d then d else d ++ [(key, v)]

/-- The columns, the rows and the rates met so far, each under its identity as written. -/
structure Layout (F : Type) where
  columns : List (String × Cell F)
  rows : List (String × List (Cell F))
  cells : List ((String × String) × Cell F)

/-- One more entry. -/
def Layout.put (T : FloatText F) (p : Layout F) (e : List (Cell F) × Cell F × Cell F) :
    Layout F where
  columns := setDefault p.columns (levelKey T e.2.1.toJson) e.2.1
  rows := setDefault p.rows (levelKey T (.arr (e.1.map Cell.toJson))) e.1
  cells := Assoc.set p.cells
    (levelKey T (.arr (e.1.map Cell.toJson)), levelKey T e.2.1.toJson) e.2.2

/-- The rows of the grid, each its levels and one rate a column, `null` where no entry is. -/
def Layout.grid (p : Layout F) : List (List (Cell F)) :=
  p.rows.map fun row =>
    row.2 ++ (Assoc.keys p.columns).map fun column =>
      (Assoc.get? p.cells (row.1, column)).getD .null

/-- A table as its sidecar writes it. -/
def gridFromEntries (T : FloatText F) (table : Table F) : Except GridError (Table F) := do
  let result := { table with entries := none }
  match table.entries, table.factors with
  | none, _ | some _, [] => .ok result
  | some entries, [factor] => do
    checkKeys [factor] entries
    let rows ← entries.mapM fun e => do
      let level ← item e factor
      let rate ← item e rateKey
      .ok [level, rate]
    .ok { result with rows := some rows }
  | some entries, factors => do
    checkKeys factors entries
    let said ← entries.mapM (readEntry factors.dropLast (factors.getLastD ""))
    let p := said.foldl (Layout.put T) ⟨[], [], []⟩
    .ok { result with columns := some (p.columns.map Prod.snd), rows := some p.grid }

/-! ### Reading -/

/-- A dict of these items, a key's place its first and its value its last. -/
def dict (items : List (String × Cell F)) : Entry F :=
  items.foldl (fun d i => Assoc.set d i.1 i.2) []

variable [DecidableEq F]

/-- The entries of a table with one factor. -/
def readPairs (table : ℕ) (factor : String) : ℕ → List (List (Cell F)) →
    Except GridError (List (Entry F))
  | _, [] => .ok []
  | i, [level, rate] :: rows => do
    let entries ← readPairs table factor (i + 1) rows
    .ok (if rate = .null then entries else dict [(factor, level), (rateKey, rate)] :: entries)
  | i, _ :: _ => .error (.notLevelAndRate table i)

/-- The entries of one row of a table with more factors. -/
def rowItems (leading : List String) (last : String) (columns row : List (Cell F)) :
    List (Entry F) :=
  ((columns.zip (row.drop leading.length)).filter fun cr => decide (cr.2 ≠ .null)).map fun cr =>
    dict (leading.zip (row.take leading.length) ++ [(last, cr.1), (rateKey, cr.2)])

/-- The entries of a table with more factors. -/
def readRows (table : ℕ) (leading : List String) (last : String) (columns : List (Cell F)) :
    ℕ → List (List (Cell F)) → Except GridError (List (Entry F))
  | _, [] => .ok []
  | i, row :: rows =>
    if row.length ≠ leading.length + columns.length then
      .error (.wrongWidth table i leading.length columns.length)
    else do
      let entries ← readRows table leading last columns (i + 1) rows
      .ok (rowItems leading last columns row ++ entries)

/-- A table as its sidecar holds it, its grid read back into entries. -/
def entriesFromGrid (index : ℕ) (table : Table F) : Except GridError (Table F) :=
  if table.entries.isSome then .error (.rowArrayForm index)
  else
    match table.rows, table.factors with
    | none, _ => if table.columns.isSome then .error (.noRows index) else .ok table
    | some _, [] => .error (.noFactors index)
    | some rows, [factor] =>
      if table.columns.isSome then .error (.oneFactor index)
      else do
        let entries ← readPairs index factor 0 rows
        .ok { table with entries := some entries, columns := none, rows := none }
    | some rows, factors =>
      match table.columns with
      | none => .error (.noColumns index)
      | some columns => do
        let entries ← readRows index factors.dropLast (factors.getLastD "") columns 0 rows
        .ok { table with entries := some entries, columns := none, rows := none }

end Haute.Rating
