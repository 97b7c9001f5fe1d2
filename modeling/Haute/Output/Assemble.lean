import Haute.Output.Mapping

/-!
# Assembling the document

`assembleDocument` nests flat frames into one JSON document. Each frame's columns are its
output paths; a frame emits at its deepest level. `Assembly` is what the walk of the
array-prefix tree reads: the paths, and the rows collected for each emitting level.
`Assembly.build` descends the tree: a level's objects are its distinct rows in scope, and
each child level is built on its own, in the scope the parent object's keys add.

A row limit bounds what each level collects: the first rows of an emitting root, and below
it the rows whose keys match the nearest collected ancestor level. That match is made by
the frame library, so it is a parameter here (`keyEq`): whether two cells of one key column
match.
-/

namespace Haute

open NestedDict Grouping

instance : NestedDict String Value where
  dict := .dict
  dict?
    | .dict fs => some fs
    | _ => none
  dict?_dict _ := rfl

/-! ### Pruning -/

/-- Nothing: `None`, or an empty collection. -/
def Value.isAbsent (v : Value) : Bool := decide (v = .none ∨ v = .list [] ∨ v = .dict [])

mutual

/-- Recursively drop absent structure: null fields and empty collections. -/
def prune : Value → Value
  | .dict fs => .dict (pruneFields fs)
  | .list xs => .list (pruneList xs)
  | v => v

/-- The fields that carry data, pruned. -/
def pruneFields : List (String × Value) → List (String × Value)
  | [] => []
  | (k, v) :: fs =>
    if (prune v).isAbsent then pruneFields fs else (k, prune v) :: pruneFields fs

/-- The elements pruned; an empty object carried nothing and is dropped. -/
def pruneList : List Value → List Value
  | [] => []
  | x :: xs => if prune x = .dict [] then pruneList xs else prune x :: pruneList xs

end

/-! ### The walk -/

/-- What the walk of the array-prefix tree reads. -/
structure Assembly where
  /-- The frames' parsed paths. -/
  ports : PortPaths
  /-- The rows collected for each emitting level. -/
  rowsByPrefix : List (Level × List Row)
  /-- Whether each row of an emitting root level is its own object. -/
  topLevelPerRow : Bool

/-- A row's identity at some columns. -/
def rowIdentity (keys : List String) (row : Row) : List Ident :=
  keys.map fun key => identity (row.get key)

/-- Rows grouped by their values at `keys`, in order. -/
def groupRows (rows : List Row) (keys : List String) : List (List Row) :=
  (groupBy (rowIdentity keys) rows).entries.map Prod.snd

/-- Rows indexed by their values at `keys`. -/
def indexRows (rows : List Row) (keys : List String) : OrdDict (List Ident) (List Row) :=
  groupBy (rowIdentity keys) rows

/-- What `_set_nested` is called with for one object, in order: its own leaves, then each
child level's array where it has elements. -/
def objectWrites (ports : PortPaths) (level : Level) (row : Row) (kids : Level → List Value) :
    List (List String × Value) :=
  (ownPaths ports level).map (fun path => (path.ownSubpath, row.get path.raw)) ++
    ((childrenOf ports level).filter fun child => !(kids child).isEmpty).map
      fun child => (childHop level child, .list (kids child))

/-- More than the length of every level. -/
def treeFuel (ports : PortPaths) : ℕ := ((levelsOf ports).map List.length).foldr max 0 + 1

namespace Assembly

variable (a : Assembly)

/-- The rows of a level: the emitting frame's, or where no frame emits every row of the
frames below. -/
def levelRows (level : Level) : List Row :=
  match portAt? a.ports level with
  | some _ => (Assoc.get? a.rowsByPrefix level).getD []
  | none =>
    (a.ports.filter fun p => decide (level <+: emitPrefix p.2 ∧ level ≠ emitPrefix p.2)).flatMap
      fun p => (Assoc.get? a.rowsByPrefix (emitPrefix p.2)).getD []

/-- The rows of a level that agree with the keys in scope. -/
def scopedRows (level : Level) (scope : Row) : List Row :=
  if scope.isEmpty then a.levelRows level
  else
    let keys := (Assoc.keys scope).insertionSort (· ≤ ·)
    ((indexRows (a.levelRows level) keys).get? (rowIdentity keys scope)).getD []

/-- The scope of a child level under an object: the parent's, and the object's own keys
that the child's subtree carries. -/
def childScope (level child : Level) (scope row : Row) : Row :=
  (ownPaths a.ports level).foldl
    (fun s path =>
      if path.raw ∈ carries a.ports child then Assoc.set s path.raw (row.get path.raw) else s)
    scope

/-- The rows one object each stands for, grouped by their own fields. -/
def groupedRows (level : Level) (scope : Row) : List (List Row) :=
  if a.topLevelPerRow && level.isEmpty && (portAt? a.ports level).isSome then
    (a.scopedRows level scope).map ([·])
  else groupRows (a.scopedRows level scope) ((ownPaths a.ports level).map ParsedPath.raw)

/-- The objects of a level in a scope. Every child level is longer than its parent, so a
fuel above the longest level is never used up. -/
def build : ℕ → Level → Row → List Value
  | 0, _, _ => []
  | fuel + 1, level, scope =>
    (a.groupedRows level scope).map fun group =>
      let row := group.headD []
      .dict <| writeAll <| objectWrites a.ports level row fun child =>
        build fuel child (a.childScope level child scope row)

/-- The document: the root level's objects, pruned. -/
def document : List Value := pruneList (a.build (treeFuel a.ports) [] [])

end Assembly

/-! ### Collecting the levels -/

/-- The columns whose values are nesting keys of a frame: none may be null. -/
def nonnullKeys (ports : PortPaths) (paths : List ParsedPath) : List String :=
  firstsBy id <| ((levelsOf ports).filter (· ≠ [])).flatMap fun child =>
    if emitPrefix paths = parentLevel child ∨ child <+: emitPrefix paths then
      relationKeys ports child
    else []

/-- The rows, unless a nesting key of one of them is null. -/
def rowsFromDataframe (port : String) (keys : List String) : List Row → Except PyError (List Row)
  | [] => .ok []
  | row :: rows =>
    match keys.find? fun key => row.get key = .none with
    | some key => .error (.outputNestingKey port key)
    | none => (rowsFromDataframe port keys rows).map (row :: ·)

/-- How the frame library matches the keys of two frames. It refuses key columns it does not
compare. -/
structure KeyLibrary where
  /-- What `is_in` raises for a column's type and the values sought in it. -/
  isInError : DType → List Value → Option PyError
  /-- What a semi join raises for the types of the key columns on its two sides. -/
  joinError : List DType → List DType → Option PyError
  /-- Whether it takes two key values for equal. -/
  keyEq : Value → Value → Bool

/-- A column's type. -/
def Frame.dtype (frame : Frame) (column : String) : DType :=
  (Assoc.get? frame.schema column).getD default

section Limit

variable (lib : KeyLibrary)

/-- What matching a frame's rows at some keys with those of another frame raises. -/
def KeyLibrary.keyError (keys : List String) (frame ancestor : Frame) : Option PyError :=
  match keys with
  | [] => none
  | [key] => lib.isInError (frame.dtype key) (ancestor.rows.map (Row.get · key)).dedup
  | keys => lib.joinError (keys.map frame.dtype) (keys.map ancestor.dtype)

/-- Whether a row's keys match those of a row of the ancestor level. -/
def KeyLibrary.matchesKeys (keys : List String) (ancestorRows : List Row) (row : Row) : Bool :=
  ancestorRows.any fun other => keys.all fun key => lib.keyEq (row.get key) (other.get key)

/-- The keys by which a frame's rows are matched with those of a level above it. -/
def limitKeys (ports : PortPaths) (ancestor : Level) (paths : List ParsedPath) : List String :=
  (((ownPaths ports ancestor).map ParsedPath.raw).filter fun key =>
    decide (key ∈ paths.map ParsedPath.raw)).insertionSort (· ≤ ·)

/-- Bound one emitting level's read to the rows a limited document needs. -/
def limitLevel (ports : PortPaths) (collected : List (Level × Frame)) (n : ℕ)
    (paths : List ParsedPath) (frame : Frame) : Except PyError Frame :=
  if emitPrefix paths = [] then .ok (frame.head n)
  else
    match (ancestorLevels (emitPrefix paths)).dropLast.reverse.findSome? fun level =>
        (Assoc.get? collected level).map (level, ·) with
    | none => .ok frame
    | some (ancestor, ancestorFrame) => do
      let keys := limitKeys ports ancestor paths
      raiseSome (lib.keyError keys frame ancestorFrame)
      .ok (if keys.isEmpty then frame else frame.filter (lib.matchesKeys keys ancestorFrame.rows))

/-- The plan of one emitting level: its frame, bounded where there is a limit. -/
def levelPlan (ports : PortPaths) (limit : Option ℕ) (collected : List (Level × Frame))
    (paths : List ParsedPath) (frame : Frame) : Except PyError Frame :=
  match limit with
  | some n => limitLevel lib ports collected n paths frame
  | none => .ok frame

/-- Collect the emitting levels, ancestors first. -/
def collectLevels (ports : PortPaths) (limit : Option ℕ) :
    List (Level × Frame) → List (String × List ParsedPath × Frame) →
      Except PyError (List (Level × Frame))
  | collected, [] => .ok collected
  | collected, (port, paths, frame) :: rest => do
    let frame ← levelPlan lib ports limit collected paths frame
    let _ ← rowsFromDataframe port ((nonnullKeys ports paths).insertionSort (· ≤ ·)) frame.rows
    collectLevels ports limit (collected ++ [(emitPrefix paths, frame)]) rest

/-- The rows collected for each emitting level. -/
def rowsByPrefix (collected : List (Level × Frame)) : List (Level × List Row) :=
  collected.map fun e => (e.1, e.2.rows)

/-- Every frame's columns, parsed as output paths. -/
def parseColumns : List String → Except PyError (List ParsedPath)
  | [] => .ok []
  | column :: columns => do
    let path ← parseOutputPath column
    let paths ← parseColumns columns
    pure (path :: paths)

/-- The field frames with their columns' paths. -/
def parseFrames : List (String × Frame) → Except PyError (List (String × List ParsedPath × Frame))
  | [] => .ok []
  | (port, frame) :: frames => do
    let paths ← parseColumns frame.columns
    let rest ← parseFrames frames
    pure ((port, paths, frame) :: rest)

/-- One frame per level; `taken` holds the levels taken, each with its frame's first path. -/
def checkOneFrame : List (Level × String × String) → PortPaths → Except PyError Unit
  | _, [] => .ok ()
  | taken, (port, paths) :: rest =>
    let first := (paths.head?.map ParsedPath.raw).getD ""
    match Assoc.get? taken (emitPrefix paths) with
    | some (otherPort, otherPath) => .error (sameLevelError otherPort port otherPath first)
    | none => checkOneFrame (Assoc.set taken (emitPrefix paths) (port, first)) rest

/-- Whether a frame emits the root level. -/
def emitsRoot (ports : PortPaths) : Bool := ports.any fun p => decide (emitPrefix p.2 = [])

/-- Assemble the nested document from the field frames. -/
def assembleDocument (fieldFrames : List (String × Frame)) (rowLimit : Option ℕ)
    (topLevelPerRow : Bool) : Except PyError (List Value) := do
  let frames ← parseFrames fieldFrames
  let ports : PortPaths := frames.map fun f => (f.1, f.2.1)
  raiseSome (locationConflict ports)
  checkOneFrame [] ports
  raiseSome (nestingKeyError ports)
  -- a root that no frame emits has no rows of its own to limit
  let limit := if emitsRoot ports then rowLimit else none
  let collected ← collectLevels lib ports limit []
    (frames.insertionSort fun f g => (emitPrefix f.2.1).length ≤ (emitPrefix g.2.1).length)
  pure (Assembly.document ⟨ports, rowsByPrefix collected, topLevelPerRow⟩)

/-- The field frame of each source frame: its columns, renamed to their output paths. -/
def fieldFrames (frames : List (String × Frame)) :
    List (String × List (MappingEntry × ParsedPath)) → Except PyError (List (String × Frame))
  | [] => .ok []
  | (port, entries) :: rest => do
    let frame ← expect (Assoc.get? frames port) (.key port)
    let field ← frame.select (entries.map fun e => ⟨e.1.sourceColumn, e.1.outputPath⟩)
    let more ← fieldFrames frames rest
    pure ((port, field) :: more)

/-- Assemble the document from source frames and a mapping. -/
def assembleOutputFromMapping (frames : List (String × Frame)) (mapping : List MappingEntry)
    (rowLimit : Option ℕ) (topLevelPerRow : Bool) : Except PyError (List Value) := do
  validateV2OutputMapping mapping
  let parsed ← parseEntries mapping
  let fields ← fieldFrames frames (entriesByPort parsed)
  assembleDocument lib fields rowLimit topLevelPerRow

end Limit

end Haute
