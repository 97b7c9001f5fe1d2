import Haute.Frame.Frame

/-!
# The output mapping

A mapping sends source columns to output paths. Grouped by source frame it gives each
frame its paths; a frame *emits* at the deepest level among them and carries the shallower
paths as keys. `validateV2OutputMapping` is the structural check made before any frame is
collected: the grammar, injectivity within a frame, one kind per location of the document,
one branch per frame, one frame per level, and the nesting keys carried by every frame that
takes part in a nesting.

`levelsOf`, `childrenOf`, `ownPaths` and `carries` are the walk of the array-prefix tree
that the assembler and the published schema share.
-/

namespace Haute

/-! ### Output paths -/

/-- Parse an output path: it must end at a field. -/
def parseOutputPath (raw : String) : Except PyError ParsedPath := do
  let parsed ← parsePath .outputMapping outputPathNoun raw
  require (decide (parsed.segments.getLast?.map Seg.isArray ≠ some true))
    (.outputMapping "output path must end at a field name, not at an array selector '[:]'"
      [("output_path", .str raw)])
  pure parsed

/-- A path's level: its segments through the last array. -/
def ParsedPath.level (path : ParsedPath) : Level := arrayPrefix path.segments

/-- The object keys of a leaf within its own array element. -/
def ParsedPath.ownSubpath (path : ParsedPath) : List String :=
  (ownPart path.segments).map Seg.name

/-- `make_output_path(_array_prefix(parsed))`. -/
def levelPath (path : ParsedPath) : String := makeOutputPath path.level

/-! ### The array-prefix tree -/

/-- Every source frame with its parsed output paths, in order. -/
abbrev PortPaths := List (String × List ParsedPath)

/-- The path whose level is deepest, the first of them. -/
def emitPath? (paths : List ParsedPath) : Option ParsedPath :=
  paths.argmax fun path => path.level.length

/-- Where a frame emits: its deepest level. -/
def emitPrefix (paths : List ParsedPath) : Level := ((emitPath? paths).map ParsedPath.level).getD []

/-- Every path, once, in the order the frames give them. -/
def allPaths (ports : PortPaths) : List ParsedPath :=
  Grouping.firstsBy ParsedPath.raw (ports.flatMap Prod.snd)

/-- The nodes of the tree: every emitting level and its ancestors. -/
def levelsOf (ports : PortPaths) : List Level :=
  Grouping.firstsBy id (ports.flatMap fun p => ancestorLevels (emitPrefix p.2))

/-- The levels directly under a level, sorted. -/
def childrenOf (ports : PortPaths) (level : Level) : List Level :=
  sortLevels ((levelsOf ports).filter fun n => decide (n ≠ [] ∧ parentLevel n = level))

/-- The paths whose level is this one. -/
def ownPaths (ports : PortPaths) (level : Level) : List ParsedPath :=
  (allPaths ports).filter fun path => decide (path.level = level)

/-- The frames that emit at or below a level. -/
def subtreePorts (ports : PortPaths) (level : Level) : PortPaths :=
  ports.filter fun p => decide (level <+: emitPrefix p.2)

/-- The paths carried at or below a level. -/
def carries (ports : PortPaths) (level : Level) : List String :=
  (subtreePorts ports level).flatMap fun p => p.2.map ParsedPath.raw

/-- The frame that emits at a level. -/
def portAt? (ports : PortPaths) (level : Level) : Option (String × List ParsedPath) :=
  ports.find? fun p => decide (emitPrefix p.2 = level)

/-- A child level's relation keys: the parent level's own paths that the child's subtree
carries. -/
def relationKeys (ports : PortPaths) (child : Level) : List String :=
  ((ownPaths ports (parentLevel child)).map ParsedPath.raw).filter fun key =>
    decide (key ∈ carries ports child)

/-! ### Locations -/

/-- What a place of the document holds. -/
inductive PlaceKind where
  | field
  | object
  | array
  deriving DecidableEq

def PlaceKind.text : PlaceKind → String
  | field => "a field"
  | object => "an object"
  | array => "an array"

/-- One place a path steps through, or ends at. -/
structure Place where
  location : List String
  kind : PlaceKind
  port : String
  path : String
  /-- The place spelled as a path. -/
  spelled : String

/-- What a path makes of the place its prefix `pre` reaches. -/
def kindAt (segments pre : List Seg) : PlaceKind :=
  if pre.length = segments.length then .field
  else if pre.getLast?.map Seg.isArray = some true then .array
  else .object

/-- The places of a path, in order: one for each segment. -/
def placesOf (port : String) (path : ParsedPath) : List Place :=
  path.segments.inits.tail.map fun pre =>
    { location := pre.map Seg.name
      kind := kindAt path.segments pre
      port := port
      path := path.raw
      spelled := makeOutputPath (pre.dropLast ++ objectHops (pre.getLast?.toList.map Seg.name)) }

/-- The first place that is claimed as another kind already, with the first claim. -/
def firstClash (claimed : List (List String × Place)) : List Place → Option (Place × Place)
  | [] => none
  | place :: places =>
    let first := (Assoc.get? claimed place.location).getD place
    if first.kind = place.kind then
      firstClash (Assoc.upsert claimed place.location fun o => o.getD place) places
    else some (first, place)

/-- The first location of the document two paths use as different kinds. -/
def locationConflict (ports : PortPaths) : Option PyError :=
  let places := ports.flatMap fun p => p.2.flatMap (placesOf p.1)
  (firstClash [] places).map fun (first, place) =>
    .outputMapping ("output paths use " ++ place.spelled ++ " as two things: " ++ first.kind.text ++
        " in " ++ first.path ++ " and " ++ place.kind.text ++ " in " ++ place.path ++
        ". A place in the response holds one field, object or array, so map one of them to a " ++
        "different path")
      [("output_path", .str (first.path ++ " vs " ++ place.path)),
        if first.port = place.port then ("source_port", .str place.port)
        else ("source_ports", .list [.str first.port, .str place.port])]

/-! ### Nesting keys -/

/-- The frames that take part in nesting a level under its parent: the parent's emitting
frame, then the child's subtree in the order of the names. -/
def participants (ports : PortPaths) (child : Level) : PortPaths :=
  (ports.filter fun p => decide (emitPrefix p.2 = parentLevel child)) ++
    (subtreePorts ports child).insertionSort (fun p q => p.1 ≤ q.1)

/-- Levels by depth, then in order. -/
def levelsByLength (levels : List Level) : List Level :=
  levels.insertionSort fun a b => toLex (a.length, a) ≤ toLex (b.length, b)

/-- The first frame that takes part in a nesting without one of its keys. -/
def nestingKeyError (ports : PortPaths) : Option PyError :=
  let ports := ports.filter fun p => !p.2.isEmpty
  (levelsByLength (levelsOf ports)).findSome? fun child =>
    if child = [] then none
    else
      (participants ports child).findSome? fun p =>
        let missing := (relationKeys ports child).filter fun key =>
          decide (key ∉ p.2.map ParsedPath.raw)
        (missing.insertionSort (· ≤ ·)).head?.map fun key =>
          .outputMapping ("a source frame taking part in nesting one array level under another " ++
              "must carry every nesting key of that level; carry the key through to this frame " ++
              "upstream, for example with a Join node")
            [("source_port", .str p.1),
              ("output_path", .str (((emitPath? p.2).map levelPath).getD "")), ("key", .str key)]

/-! ### Validation -/

/-- One row of the mapping. A source column or an output path that is missing, or is no
string, is blank. -/
structure MappingEntry where
  sourcePort : String
  sourceColumn : String
  outputPath : String
  enabled : Bool
  deriving DecidableEq

/-- Whether a mapping entry contributes: enabled and fully filled in. -/
def isActiveMappingEntry (entry : MappingEntry) : Bool :=
  entry.enabled && !(pyStrip entry.sourceColumn).isEmpty && !(pyStrip entry.outputPath).isEmpty

/-- The active entries with their parsed paths. -/
def parseEntries : List MappingEntry → Except PyError (List (MappingEntry × ParsedPath))
  | [] => .ok []
  | entry :: entries =>
    if isActiveMappingEntry entry then do
      let path ← parseOutputPath entry.outputPath
      let rest ← parseEntries entries
      pure ((entry, path) :: rest)
    else parseEntries entries

/-- The entries of each source frame, in mapping order. -/
def entriesByPort (parsed : List (MappingEntry × ParsedPath)) :
    List (String × List (MappingEntry × ParsedPath)) :=
  (Grouping.groupBy (fun e => e.1.sourcePort) parsed).entries

/-- Each source frame's distinct paths, in mapping order. -/
def distinctByPort (parsed : List (MappingEntry × ParsedPath)) : PortPaths :=
  (entriesByPort parsed).map fun p =>
    (p.1, Grouping.firstsBy ParsedPath.raw (p.2.map Prod.snd))

/-- No two different columns of a frame map to one path. -/
def checkInjective (port : String) :
    List (String × String) → List (MappingEntry × ParsedPath) → Except PyError Unit
  | _, [] => .ok ()
  | pathToColumn, (entry, path) :: entries => do
    require (decide ((Assoc.get? pathToColumn path.raw).getD entry.sourceColumn =
      entry.sourceColumn))
      (.outputMapping "two columns of one source frame map to the same output path"
        [("source_port", .str port), ("output_path", .str path.raw)])
    checkInjective port (Assoc.set pathToColumn path.raw entry.sourceColumn) entries

/-- `_same_level_error`. -/
def sameLevelError (firstPort secondPort firstPath secondPath : String) : PyError :=
  .outputMapping ("two source frames emit at the same array level; an OUTPUT level takes one " ++
      "frame, so join them upstream (for example with a Join node) or map one of them to a " ++
      "different level")
    [("source_ports", .list [.str firstPort, .str secondPort]),
      ("output_path", .str (firstPath ++ " vs " ++ secondPath))]

/-- Neighbouring paths of one frame sit on one branch. -/
def checkBranch (port : String) : List ParsedPath → Except PyError Unit
  | a :: b :: rest => do
    require (decide (b.level <+: a.level ∨ a.level <+: b.level))
      (.outputMapping "one source frame cannot emit into divergent array branches"
        [("source_port", .str port), ("output_path", .str (a.raw ++ " vs " ++ b.raw))])
    checkBranch port (b :: rest)
  | _ => .ok ()

/-- A frame's paths by level. -/
def pathsByLevel (paths : List ParsedPath) : List ParsedPath :=
  paths.insertionSort fun a b => a.level ≤ b.level

/-- One branch per frame, and one frame per level; `emitting` holds the levels taken. -/
def checkLevels : List (Level × String × String) → PortPaths → Except PyError Unit
  | _, [] => .ok ()
  | emitting, (port, paths) :: rest => do
    checkBranch port (pathsByLevel paths)
    match (pathsByLevel paths).getLast? with
    | none => checkLevels emitting rest
    | some last =>
      match Assoc.get? emitting last.level with
      | some (otherPort, otherPath) => throw (sameLevelError otherPort port otherPath last.raw)
      | none => checkLevels (Assoc.set emitting last.level (port, last.raw)) rest

/-- Raise the error, if there is one. -/
def raiseSome : Option PyError → Except PyError Unit
  | some e => .error e
  | none => .ok ()

/-- The checks for each frame's entries. -/
def checkAllInjective : List (String × List (MappingEntry × ParsedPath)) → Except PyError Unit
  | [] => .ok ()
  | (port, entries) :: rest => do
    checkInjective port [] entries
    checkAllInjective rest

/-- The structural checks, on the parsed mapping. -/
def validateParsed (parsed : List (MappingEntry × ParsedPath)) : Except PyError Unit := do
  checkAllInjective (entriesByPort parsed)
  raiseSome (locationConflict (distinctByPort parsed))
  checkLevels [] (distinctByPort parsed)
  raiseSome (nestingKeyError (distinctByPort parsed))

/-- The frames of a mapping with their distinct parsed paths. -/
def mappingPorts (mapping : List MappingEntry) : Except PyError PortPaths :=
  (parseEntries mapping).map distinctByPort

/-- Raise unless the mapping is structurally valid. -/
def validateV2OutputMapping (mapping : List MappingEntry) : Except PyError Unit := do
  let parsed ← parseEntries mapping
  validateParsed parsed

end Haute
