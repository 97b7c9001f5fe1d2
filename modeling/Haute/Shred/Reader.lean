import Haute.Json.Float
import Haute.Frame.Frame

/-!
# Reading a table's row

`resolveLeaf` resolves one column's dotted leaf within one element. The shred does not call
it for every column: `_compile_row_reader` groups the columns by their source and by shared
object prefix into a trie of keys (`PrefixNode`), so that every object on the columns' paths
is fetched once for a row, and resolves the row again column by column only to name the
column that crossed an array.

This module is the reader as the source builds it; `Haute.Shred.Compiled` proves it equal to
per-column resolution.
-/

namespace Haute

/-- A column as the walk reads it: the leaf is split at its dots, and `depth` is the array
depth its value lives at. -/
structure WalkSpec where
  name : String
  leaf : List String
  type : ColumnType
  depth : ℕ
  deriving DecidableEq

/-- The column is an array's element itself. -/
def WalkSpec.isValueLeaf (spec : WalkSpec) : Bool := decide (spec.leaf = [reservedLeaf])

/-! ### Resolving one leaf -/

/-- A leaf as a config spells it. -/
def dottedLeaf (parts : List String) : String := ".".intercalate parts

/-- A dotted leaf met a non-empty list. -/
def leafCrossesArray (leaf : List String) (part : String) : PyError :=
  .apiInputSchema ("dotted column leaf " ++ pyRepr (dottedLeaf leaf) ++
      " crosses an array at segment " ++ pyRepr part ++
      ", but a dotted leaf addresses 1-1 object nesting only " ++
      "(silently taking the first element would drop the rest); model " ++
      "this array as its own child table instead")
    [("column", .str (dottedLeaf leaf))]

/-- The walk along a leaf's hops. An empty list holds nothing to drop and reads `None`. -/
def resolveHops (leaf : List String) : Value → List String → Except PyError Value
  | cur, [] => .ok cur
  | .dict fields, part :: parts => resolveHops leaf (Value.getKey fields part) parts
  | .list [], _ :: _ => .ok .none
  | .list (_ :: _), part :: _ => .error (leafCrossesArray leaf part)
  | _, _ :: _ => .ok .none

/-- Resolve a leaf within a single element. -/
def resolveLeaf (value : Value) (leaf : List String) : Except PyError Value :=
  if leaf = [reservedLeaf] then .ok (if value.isScalar then value else .none)
  else if value.isDict then resolveHops leaf value leaf
  else .ok .none

/-! ### Coercing a cell -/

/-- Render a JSON scalar as a string. Callers pass no list and no dict. -/
def scalarToStr : Value → Except PyError String
  | .none => .ok "None"
  | .bool b => .ok (if b then "true" else "false")
  | .int n => strOfInt n
  | .float x => .ok x.repr
  | .str s => .ok s
  | .date d => .ok (isoDate d)
  | .list _ | .dict _ => .error (.value "not a scalar")

/-- Coerce a scalar to its column's type. A bool in a float column is left for the frame to
refuse. -/
def coerceScalar (value : Value) (type : ColumnType) : Except PyError Value :=
  match type, value with
  | _, .none => .ok .none
  | .str, .str s => .ok (.str s)
  | .str, value => .str <$> scalarToStr value
  | .float, .int n => .float <$> floatOfInt n
  | _, value => .ok value

/-- The string coercion of an object table's cell: a list or a dict stays for the frame to
refuse. -/
def coerceString (cell : Value) : Except PyError Value :=
  match cell with
  | .none | .str _ | .list _ | .dict _ => .ok cell
  | cell => .str <$> scalarToStr cell

/-- The string pass at one column. -/
def stringPass (spec : WalkSpec) (cell : Value) : Except PyError Value :=
  if spec.type = .str && !spec.isValueLeaf then coerceString cell else .ok cell

/-- The `$value` pass at one column. -/
def scalarPass (spec : WalkSpec) (cell : Value) : Except PyError Value :=
  if spec.isValueLeaf then coerceScalar cell spec.type else .ok cell

/-- One pass over a row's columns in order. -/
def coerceWith (pass : WalkSpec → Value → Except PyError Value) :
    List WalkSpec → List Value → Except PyError (List Value)
  | spec :: columns, cell :: row => do
    let cell ← pass spec cell
    let row ← coerceWith pass columns row
    pure (cell :: row)
  | _, row => .ok row

/-- `row[column] = str(cell)` over the string columns. -/
def coerceStrings (columns : List WalkSpec) (row : List Value) : Except PyError (List Value) :=
  coerceWith stringPass columns row

/-- `row[column] = _coerce_scalar(row[column])` over the `$value` columns. -/
def coerceScalars (columns : List WalkSpec) (row : List Value) : Except PyError (List Value) :=
  coerceWith scalarPass columns row

/-- One cell's coercion: of a `$value` column to its type, of another column to a string. -/
def coerceCell (spec : WalkSpec) (cell : Value) : Except PyError Value :=
  if spec.isValueLeaf then coerceScalar cell spec.type
  else if spec.type = .str then coerceString cell
  else .ok cell

/-! ### The compiled reader -/

/-- The columns found under one object key of a row reader's source. -/
inductive PrefixNode where
  | node (leafColumns : List ℕ) (children : List (String × PrefixNode))

namespace PrefixNode

/-- The columns whose leaf ends here. -/
def leafColumns : PrefixNode → List ℕ
  | node leafColumns _ => leafColumns

/-- The nodes below, by key. -/
def children : PrefixNode → List (String × PrefixNode)
  | node _ children => children

@[simp] theorem leafColumns_node (ls : List ℕ) (cs : List (String × PrefixNode)) :
    (node ls cs).leafColumns = ls := rfl

@[simp] theorem children_node (ls : List ℕ) (cs : List (String × PrefixNode)) :
    (node ls cs).children = cs := rfl

/-- A node with no columns. -/
def empty : PrefixNode := node [] []

/-- Add a column at the end of a path of keys. -/
def insert : PrefixNode → List String → ℕ → PrefixNode
  | node leafColumns children, [], column => node (leafColumns ++ [column]) children
  | node leafColumns children, part :: parts, column =>
    node leafColumns
      (Assoc.upsert children part fun child => insert (child.getD empty) parts column)

/-- `row[column] = get(key)` for every column that ends at a key of this object. -/
def readLeaves (children : List (String × PrefixNode)) (obj : List (String × Value))
    (row : List Value) : List Value :=
  children.foldl (fun row e => e.2.leafColumns.foldl
    (fun row column => row.set column (Value.getKey obj e.1)) row) row

mutual

/-- Read every column below a node from one dict into its row slot; `none` is
`_LeafCrossesArrayError`. -/
def read : PrefixNode → List (String × Value) → List Value → Option (List Value)
  | node _ children, obj, row => readNested children obj (readLeaves children obj row)

/-- The nested readers of one object, in turn. -/
def readNested : List (String × PrefixNode) → List (String × Value) → List Value →
    Option (List Value)
  | [], _, row => some row
  | (key, child) :: rest, obj, row =>
    if child.children.isEmpty then readNested rest obj row
    else
      match Value.getKey obj key with
      | .dict fields => (read child fields row).bind fun row => readNested rest obj row
      | .list (_ :: _) => none
      | _ => readNested rest obj row

end

end PrefixNode

/-- One source of a row: an ancestor or the element itself, and the columns read from it. -/
structure RowSource where
  depth : ℕ
  scalarColumns : List ℕ
  root : PrefixNode

/-- The columns that one source feeds. -/
def rowSource (columns : List WalkSpec) (depth : ℕ) : RowSource :=
  let own := columns.zipIdx.filter fun c => c.1.depth = depth
  { depth
    scalarColumns := (own.filter fun c => c.1.isValueLeaf).map Prod.snd
    root := (own.filter fun c => !c.1.isValueLeaf).foldl
      (fun node c => node.insert c.1.leaf c.2) .empty }

/-- The row's sources, in the order the columns first name them. -/
def rowSources (columns : List WalkSpec) : List RowSource :=
  (Grouping.firstsBy id (columns.map WalkSpec.depth)).map (rowSource columns)

/-- The element at a depth. A validated column lies no deeper than its table, so an ancestor
stands at every other depth asked for. -/
def sourceAt (ownDepth : ℕ) (value : Value) (ancestors : List Value) (depth : ℕ) : Value :=
  if depth = ownDepth then value else ancestors.getD depth .none

/-- Read one source's columns into the row. -/
def RowSource.read (s : RowSource) (source : Value) (row : List Value) : Option (List Value) :=
  let row := s.scalarColumns.foldl
    (fun row column => row.set column (if source.isScalar then source else .none)) row
  match source with
  | .dict fields => if s.root.children.isEmpty then some row else s.root.read fields row
  | _ => some row

/-- A row's cells before any coercion. -/
def readCells (columns : List WalkSpec) (source : ℕ → Value) : Option (List Value) :=
  (rowSources columns).foldlM (fun row s => s.read (source s.depth) row)
    (List.replicate columns.length .none)

/-- Read one row of a table from the element at its position and the enclosing elements. -/
def readRow (columns : List WalkSpec) (ownDepth : ℕ) (value : Value) (ancestors : List Value) :
    Except PyError (List Value) := do
  let source := sourceAt ownDepth value ancestors
  match readCells columns source with
  | some row => do
    let row ← coerceStrings columns row
    coerceScalars columns row
  | none => do
    let _ ← columns.mapM fun spec => resolveLeaf (source spec.depth) spec.leaf
    throw (.runtime "json shred row reader met an array that per-column resolution does not cross")

end Haute
