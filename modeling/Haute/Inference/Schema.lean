import Haute.Inference.State
import Haute.Schema.Labels
import Haute.Schema.Validate

/-!
# The inferred schema

The evidence becomes a schema in two steps. First the arrays that some records hold as one
object or one scalar are folded: where a key is a list somewhere, the list wins, and what was
seen of the single value joins the array's own table. Then every level becomes a table, its
leaves named and its label kept apart from the others'.

The folding repeats until no array is held once, so it is bounded here by a number of passes:
`foldSingleValuesIntoArrays` yields nothing where the passes do not suffice.
-/

namespace Haute

/-- The level that holds the array `level`. -/
def arrayParent (level : Level) : Level := arrayPrefix level.dropLast

/-- The array's object path within its parent. -/
def arrayPath (level : Level) : ObjectPath := (level.drop (arrayParent level).length).map Seg.name

/-- Whether `objectPath` lies strictly below `path`. -/
def within (objectPath path : ObjectPath) : Bool :=
  path.length < objectPath.length && objectPath.take path.length = path

/-- The levels of a store strictly below `nested`. -/
def nestedLevels {ν : Type} (store : OrdDict Level ν) (nested : Level) : List Level :=
  store.keys.filter fun level => nested.length < level.length && level.take nested.length = nested

namespace InferenceState

/-- Whether `path` at `parent` also held one object or scalar instead of a list. -/
def heldOnce (s : InferenceState) (parent : Level) (path : ObjectPath) : Bool :=
  (((s.levels.get? parent).getD .empty).keys.any fun objectPath => objectPath =
    path || within objectPath path) ||
    (((s.nullLeaves.get? parent).getD .empty).keys.any fun objectPath => within objectPath path) ||
    !(nestedLevels s.levels (parent ++ objectHops path)).isEmpty ||
    !(nestedLevels s.scalarLevels (parent ++ objectHops path)).isEmpty

end InferenceState

/-- The store without what lies below `nested`. -/
def withoutNested {ν : Type} (store : OrdDict Level ν) (nested : Level) : OrdDict Level ν :=
  store.filterKeys fun level => !(nested.length < level.length && level.take nested.length = nested)

/-- `into` with what `store` holds below `nested`, taken to `level`. -/
def rekey {ν : Type} (into store : OrdDict Level ν) (nested level : Level) : OrdDict Level ν :=
  (nestedLevels store nested).foldl (fun into inner =>
    match store.get? inner with
    | some evidence => into.insert (level ++ inner.drop nested.length) evidence
    | none => into) into

/-- Write at a key that is held; a key that is not held stays so. -/
def rewriteAt {ν : Type} (store : OrdDict Level ν) (level : Level) (f : ν → ν) : OrdDict Level ν :=
  match store.get? level with
  | some evidence => store.insert level (f evidence)
  | none => store

namespace InferenceState

/-- The evidence of `path` held once at `parent`, as it is moved into the array `level`. -/
def foldedEvidence (s : InferenceState) (parent : Level) (path : ObjectPath) (level : Level) :
    InferenceState :=
  let columns := (s.levels.get? parent).getD .empty
  let nulls := (s.nullLeaves.get? parent).getD .empty
  let containers := (s.containerPaths.get? parent).getD ∅
  let nested := parent ++ objectHops path
  let moved : InferenceState := .new
  let moved := columns.entries.foldl (fun moved (objectPath, observed) =>
    if objectPath = path then moved.noteScalars level (some observed)
    else if within objectPath path then
      { moved with levels := moved.levels.upsert level fun cols =>
          (cols.getD .empty).insert (objectPath.drop path.length) observed }
    else moved) moved
  let moved := nulls.keys.foldl (fun moved objectPath =>
    if within objectPath path then moved.noteNull level (objectPath.drop path.length)
      else moved) moved
  let below :=
    (containers.filter fun objectPath => within objectPath path).image (List.drop path.length)
  let moved := if below = ∅ then moved
    else { moved with
      containerPaths := moved.containerPaths.upsert level fun o => o.getD ∅ ∪ below }
  { moved with
    levels := rekey moved.levels s.levels nested level
    scalarLevels := rekey moved.scalarLevels s.scalarLevels nested level
    containerPaths := rekey moved.containerPaths s.containerPaths nested level
    nullLeaves := rekey moved.nullLeaves s.nullLeaves nested level }

/-- What is left at `parent` and below once the evidence of `path` has been taken. -/
def withoutFolded (s : InferenceState) (parent : Level) (path : ObjectPath) : InferenceState :=
  let nested := parent ++ objectHops path
  { s with
    levels := withoutNested (rewriteAt s.levels parent fun cols =>
      cols.filterKeys fun objectPath => !(objectPath = path || within objectPath path)) nested
    scalarLevels := withoutNested s.scalarLevels nested
    containerPaths := withoutNested (rewriteAt s.containerPaths parent fun paths =>
      paths.filter fun objectPath => !within objectPath path) nested
    nullLeaves := withoutNested (rewriteAt s.nullLeaves parent fun nulls =>
      nulls.filterKeys fun objectPath => !within objectPath path) nested }

/-- Move the evidence of `path` held once at `parent` into its array `level`. -/
def foldIntoArray (s : InferenceState) (parent : Level) (path : ObjectPath) (level : Level) :
    InferenceState :=
  (s.withoutFolded parent path).merge (s.foldedEvidence parent path level)

/-- The arrays seen, shallowest first. -/
def arrays (s : InferenceState) : List Level :=
  ((s.levels.keys ++ s.scalarLevels.keys).dedup.filter fun level => !level.isEmpty).insertionSort
    fun a b => toLex (a.length, a) ≤ toLex (b.length, b)

/-- The first array that was also held once. -/
def mixedArray (s : InferenceState) : Option Level :=
  s.arrays.find? fun level => s.heldOnce (arrayParent level) (arrayPath level)

end InferenceState

/-- Where a key holds a list in some records and one value in others, the list wins: fold one
such array after the other, in at most `passes` passes. -/
def foldSingleValuesIntoArrays : ℕ → InferenceState → Option InferenceState
  | 0, s => if s.mixedArray.isNone then some s else none
  | passes + 1, s =>
    match s.mixedArray with
    | none => some s
    | some level => foldSingleValuesIntoArrays passes
      (s.foldIntoArray (arrayParent level) (arrayPath level) level)

/-! ### Tables -/

/-- The first of `name`, `name_2`, `name_3`, … whose folded form is not taken. -/
def firstFree (fold : String → String) (taken : List String) (name : String) : String :=
  let candidate (k : ℕ) : String := if k = 0 then name else name ++ "_" ++ toString (k + 1)
  (((List.range (taken.length + 1)).map candidate).find? fun c => fold c ∉ taken).getD name

/-- Give each name in turn the first free form of it. -/
def assignFree (fold : String → String) : List String → List String → List String
  | _, [] => []
  | taken, name :: names =>
    let free := firstFree fold taken name
    free :: assignFree fold (fold free :: taken) names

/-- Name flattened object-leaf columns: bare leaf where unique, else qualify. -/
def assignColumnNames (objectPaths : List ObjectPath) : List String :=
  let bare (path : ObjectPath) : String := path.getLastD ""
  let leaves := objectPaths.map bare
  assignFree id [] (objectPaths.map fun path =>
    if 1 < leaves.count (bare path) then "_".intercalate path else bare path)

/-- One inferred column. -/
def inferredColumn (name path : String) (type : ColType) : Value :=
  .dict [("name", .str name), ("path", .str path), ("type", .str type.token),
    ("status", .str "Inferred"), ("selected", .bool true), ("levels", .none)]

/-- The columns of the table at `level`. -/
def inferredColumns (s : InferenceState) (level : Level) : List Value :=
  let tablePath := makeTablePath level
  match s.levels.get? level, s.scalarLevels.get? level with
  | none, some type => [inferredColumn "value" (tablePath ++ "." ++ reservedLeaf) (type.getD .str)]
  | columns, _ =>
    let columns := columns.getD .empty
    List.zipWith
      (fun name entry => inferredColumn name (tablePath ++ "." ++ ".".intercalate entry.1) entry.2)
      (assignColumnNames columns.keys) columns.entries

/-- A table's label before it is kept apart from the others'. -/
def baseLabel (level : Level) : String :=
  match level.getLast? with
  | none => "quote_info"
  | some seg => deriveIdentifierLabel seg.name

/-- One inferred table. -/
def inferredTable (s : InferenceState) (level : Level) (label : String) : Value :=
  .dict [("path", .str (makeTablePath level)), ("label", .str label),
    ("display_path", .str (makeTablePath level)), ("emit", .bool (arrayDepth level = 0)),
    ("row_id_column", .none), ("columns", .list (inferredColumns s level))]

/-- The levels of the evidence, in the order of their tables. -/
def tableLevels (s : InferenceState) : List Level :=
  (s.levels.keys ++ s.scalarLevels.keys).dedup.insertionSort fun a b =>
    toLex (arrayDepth a, toLex (a.length, a)) ≤ toLex (arrayDepth b, toLex (b.length, b))

/-- The labels of the tables. -/
def tableLabels (levels : List Level) : List String :=
  let folded := levels.map fun level => casefold (baseLabel level)
  assignFree casefold [] (levels.map fun level =>
    if 1 < folded.count (casefold (baseLabel level)) && !level.isEmpty then
      "_".intercalate (level.map fun seg => deriveIdentifierLabel seg.name)
    else baseLabel level)

/-- A leaf seen only as null still earns a column, typed `str`, unless it ever held a container. -/
def addNullColumns (s : InferenceState) : InferenceState :=
  { s with levels := s.nullLeaves.entries.foldl (fun levels (level, nulls) =>
      let containers := (s.containerPaths.get? level).getD ∅
      levels.upsert level fun cols => nulls.keys.foldl (fun cols objectPath =>
        if objectPath ∈ cols.keys ∨ objectPath ∈ containers then cols
          else cols.insert objectPath .str)
          (cols.getD .empty)) s.levels }

/-- Convert accumulated evidence into the public v2 inference payload. -/
def assembleInferenceSchema (passes : ℕ) (s : InferenceState) : Option Value :=
  (foldSingleValuesIntoArrays passes s).map fun s =>
    let s := addNullColumns s
    let levels := tableLevels s
    .dict [("tables", .list (List.zipWith (inferredTable s) levels (tableLabels levels)))]

end Haute
