import Haute.Shred.Compiled
import Haute.Shred.Specs

/-!
# The shred walk

One walk over the records emits the rows of every table at once. It visits a position of the
document (the root or an array), emits for the tables there, and descends to the arrays below
along the tables' paths. What it does is a sequence of *events*: a row handed to a table, or
a row a table lost, with the record, the place and the shape the table reads there. The
buffers, the skip statistics and the counts are folds of the events; a strict caller raises
at the first loss.

The descents at a position are a Python set: `order` is the order the set happens to iterate
in, and stays a parameter of the walk. The walk goes as deep as the longest table path, which
bounds its recursion.
-/

namespace Haute

/-- The shape a table reads at a place. -/
inductive Expected where
  | object
  | scalar
  | array
  deriving DecidableEq

/-- The shape, as messages name it. -/
def Expected.text : Expected → String
  | object => "an object"
  | scalar => "a scalar"
  | array => "an array"

/-- What the walk does for one table. -/
inductive ShredEvent where
  /-- A row's cells in declared column order. -/
  | row (label : String) (cells : List Value)
  /-- One row a table lost: the record it was in, the place, and what the table reads there. -/
  | skip (label : String) (record : ℕ) (place : Level) (expected : Expected)
  deriving DecidableEq

/-- The table an event is for. -/
def ShredEvent.label : ShredEvent → String
  | row label _ => label
  | skip label _ _ _ => label

@[simp] theorem ShredEvent.label_row (label : String) (cells : List Value) :
    (row label cells).label = label := rfl

@[simp] theorem ShredEvent.label_skip (label : String) (record : ℕ) (place : Level)
    (expected : Expected) : (skip label record place expected).label = label := rfl

/-- A null and an empty string hold nothing where an object or an array is expected. -/
def holdsNothing : Value → Bool
  | .none => true
  | .str s => s.isEmpty
  | _ => false

/-- A way down from a position: object hops, an array's key, and the position reached. -/
structure Descent where
  hops : List String
  key : String
  child : Level
  deriving DecidableEq

/-- The descents one table's path registers, each under the position it starts from. -/
def descentsFrom : Level → Level → List String → List Seg → List (Level × Descent)
  | _, _, _, [] => []
  | taken, parent, hops, seg :: segs =>
    let child := taken ++ [seg]
    if seg.isArray then (parent, ⟨hops, seg.name, child⟩) :: descentsFrom child child [] segs
    else descentsFrom child parent (hops ++ [seg.name]) segs

/-- `container = container.get(okey)` along some hops, for as long as the container is a dict:
the last dict, or the hops taken and what is not one. -/
def followObjects : List (String × Value) → List String → List String →
    List (String × Value) ⊕ (List String × Value)
  | fields, _, [] => .inl fields
  | fields, taken, key :: hops =>
    match Value.getKey fields key with
    | .dict inner => followObjects inner (taken ++ [key]) hops
    | v => .inr (taken ++ [key], v)

section Walk

variable (specs : List EmittingTableSpec) (order : Level → List Descent)

/-- The descents at a position. -/
def descentsAt (pos : Level) : Finset Descent :=
  (((specs.flatMap fun spec => descentsFrom [] [] [] spec.segments).filter
    fun d => d.1 = pos).map Prod.snd).toFinset

/-- The tables at or below an array. -/
def tablesAtOrBelow (child : Level) : List EmittingTableSpec :=
  specs.filter fun spec => child <+: spec.segments

/-- The tables strictly below a position that has descents. -/
def tablesBelow (pos : Level) : List EmittingTableSpec :=
  if descentsAt specs pos = ∅ then []
  else specs.filter fun spec => pos.length < spec.segments.length ∧ pos <+: spec.segments

/-- Each of these tables loses one row. -/
def countRowSkips (tables : List EmittingTableSpec) (record : ℕ) (place : Level)
    (expected : Expected) : Yielded ShredEvent :=
  .forEach tables fun spec => ⟨[.skip spec.label record place expected], none⟩

/-- The shape a table reads its elements in. -/
def EmittingTableSpec.expected (spec : EmittingTableSpec) : Expected :=
  if spec.isScalarTable then .scalar else .object

/-- Whether an element has the shape its table reads. -/
def EmittingTableSpec.shapeMatches (spec : EmittingTableSpec) (value : Value) : Bool :=
  if spec.isScalarTable then value.isScalar else value.isDict

/-- Hand a table the row read from an element. -/
def deliverRow (spec : EmittingTableSpec) (value : Value) (ancestors : List Value) :
    Yielded ShredEvent :=
  .ofExcept (.row spec.label <$> readRow spec.columns spec.depth value ancestors)

/-- The row of one table at an element, or its loss. -/
def emitTable (spec : EmittingTableSpec) (record : ℕ) (pos : Level) (value : Value)
    (ancestors : List Value) : Yielded ShredEvent :=
  if spec.shapeMatches value then deliverRow spec value ancestors
  else ⟨[.skip spec.label record pos spec.expected], none⟩

/-- Iterate the array at a position: a null or an empty string is a row of a scalar table
alone, and any other element is visited. -/
def walkArray (visit : Value → Yielded ShredEvent) (record : ℕ) (pos : Level) (arr : Value)
    (ancestors : List Value) : Yielded ShredEvent :=
  match arr with
  | .list items => .forEach items fun item =>
      if holdsNothing item then
        .forEach (specs.filter fun spec => spec.segments = pos ∧ spec.isScalarTable)
          fun spec => deliverRow spec item ancestors
      else visit item
  | arr =>
    if holdsNothing arr then .done
    else countRowSkips (tablesAtOrBelow specs pos) record pos .array

/-- Process the element at a position: emit for the tables there, then descend. -/
def emitAt : ℕ → ℕ → Level → Value → List Value → Yielded ShredEvent
  | 0, _, _, _, _ => .done
  | fuel + 1, record, pos, value, ancestors =>
    .append
      (.forEach (specs.filter fun spec => spec.segments = pos)
        fun spec => emitTable spec record pos value ancestors) <|
    match value with
    | .dict fields =>
      .forEach (order pos) fun d =>
        match followObjects fields [] d.hops with
        | .inl inner =>
          walkArray specs (fun item => emitAt fuel record d.child item (ancestors ++ [value]))
            record d.child (Value.getKey inner d.key) (ancestors ++ [value])
        | .inr (taken, container) =>
          if holdsNothing container then .done
          else countRowSkips (tablesAtOrBelow specs d.child) record
            (pos ++ objectHops taken) .object
    | _ => countRowSkips (tablesBelow specs pos) record pos .object

/-- A depth the walk does not reach. -/
def walkFuel : ℕ := (specs.map fun spec => spec.segments.length).foldr max 0 + 1

/-- Everything the walk does over some records, in order. -/
def shredEvents (records : List Value) : Yielded ShredEvent :=
  .forEach records.zipIdx fun r => emitAt specs order (walkFuel specs) r.2 [] r.1 []

end Walk

/-! ### What the events amount to -/

/-- Counts of inputs the shred dropped because their shape did not fit. -/
structure ShredSkipStats where
  skippedRecords : ℕ
  skippedRowsByTable : OrdDict String ℕ
  deriving DecidableEq

namespace ShredSkipStats

/-- Nothing skipped. -/
def empty : ShredSkipStats := ⟨0, .empty⟩

/-- `count_record_skip`. -/
def countRecordSkip (stats : ShredSkipStats) : ShredSkipStats :=
  { stats with skippedRecords := stats.skippedRecords + 1 }

/-- `count_row_skip`. -/
def countRowSkip (stats : ShredSkipStats) (label : String) : ShredSkipStats :=
  { stats with
    skippedRowsByTable := stats.skippedRowsByTable.upsert label fun count => count.getD 0 + 1 }

/-- The rows a table lost. -/
def rowSkips (stats : ShredSkipStats) (label : String) : ℕ :=
  (stats.skippedRowsByTable.get? label).getD 0

end ShredSkipStats

/-- Count what an event lost. -/
def ShredEvent.count (stats : ShredSkipStats) : ShredEvent → ShredSkipStats
  | row _ _ => stats
  | skip label _ _ _ => stats.countRowSkip label

/-- Append an event's row to its table's buffer. -/
def ShredEvent.buffer (buffers : OrdDict String (List (List Value))) :
    ShredEvent → OrdDict String (List (List Value))
  | row label cells => buffers.upsert label fun rows => rows.getD [] ++ [cells]
  | skip _ _ _ _ => buffers

/-- An empty buffer for every table. -/
def emptyBuffers (specs : List EmittingTableSpec) : OrdDict String (List (List Value)) :=
  specs.foldl (fun buffers spec => buffers.insert spec.label []) .empty

/-- Shred records, buffering every table's rows and counting what was lost. A buffered row is
its cells; its dict is these under the table's column names. -/
def shredToBuffers (order : Level → List Descent) (records : List Value)
    (config : List (String × Value)) (stats : ShredSkipStats) :
    Except PyError (OrdDict String (List (List Value)) × ShredSkipStats) := do
  let specs ← emittingTableSpecs config
  let events ← (shredEvents specs order records).toExcept
  pure (events.foldl ShredEvent.buffer (emptyBuffers specs), events.foldl ShredEvent.count stats)

end Haute
