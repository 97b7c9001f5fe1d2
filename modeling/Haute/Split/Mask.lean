import Haute.Data.OrdDict
import Haute.Data.Sorting
import Mathlib.Algebra.Order.Floor.Ring
import Mathlib.Data.Rat.Floor
import Mathlib.Tactic.Linarith

/-!
# Train, validation and holdout rows

`splitMask` labels the rows of a frame by the strategy of its config. The labels of a random split
and of a temporal one with a holdout are drawn over the rows in canonical order and put back at
their rows' positions (`inSourceOrder`); the other splits decide each row by its own values.

Sizes are exact. The seeded permutation, the hash, a value's text in Python and in Polars, and a
value's date are what NumPy, `hashlib`, Python and Polars make of them.
-/

namespace Haute.Split

open Data

/-- The partition labels. -/
inductive Partition where
  | train
  | validation
  | holdout
  deriving DecidableEq

inductive Strategy where
  | random
  | temporal
  | group
  deriving DecidableEq

def Strategy.name : Strategy → String
  | random => "random"
  | temporal => "temporal"
  | group => "group"

inductive SplitError where
  | validation (message : String)
  /-- Polars cannot read a value as a date, or a row position. -/
  | polars
  deriving DecidableEq

structure SplitConfig where
  strategy : Strategy
  validationSize : ℚ
  holdoutSize : ℚ
  seed : ℤ
  dateColumn : Option String
  cutoffDate : Option String
  groupColumn : Option String

/-- What a rational's text in an error reads as is left out. -/
def SplitConfig.postInit (config : SplitConfig) : Except SplitError Unit :=
  let blank (text : Option String) : Bool := text.all fun s => s = ""
  if ¬ (0 ≤ config.validationSize ∧ config.validationSize < 1) then
    .error (.validation "validation_size must be between 0 and 1")
  else if ¬ (0 ≤ config.holdoutSize ∧ config.holdoutSize < 1) then
    .error (.validation "holdout_size must be between 0 and 1")
  else if 1 ≤ config.validationSize + config.holdoutSize then
    .error (.validation "validation_size + holdout_size must be less than 1")
  else if config.strategy = .temporal ∧ blank config.dateColumn then
    .error (.validation "date_column is required for temporal split")
  else if config.strategy = .temporal ∧ blank config.cutoffDate then
    .error (.validation "cutoff_date is required for temporal split")
  else if config.strategy = .group ∧ blank config.groupColumn then
    .error (.validation "group_column is required for group split")
  else .ok ()

/-- The sizes of an accepted config. -/
theorem SplitConfig.sizes {config : SplitConfig} (h : config.postInit = .ok ()) :
    0 ≤ config.validationSize ∧ 0 ≤ config.holdoutSize ∧
      config.validationSize + config.holdoutSize < 1 := by
  unfold SplitConfig.postInit at h
  split_ifs at h with hv hh hsum
  all_goals exact ⟨hv.1, hh.1, lt_of_not_ge hsum⟩

/-- A frame by its columns; a null is an absent value. -/
structure Frame (V : Type) where
  height : ℕ
  column : String → Option (List (Option V))
  length_column : ∀ name cells, column name = some cells → cells.length = height

/-- What the libraries make of a value. -/
structure Engine (V : Type) where
  /-- `rng.permutation` of so many positions, by the seed. -/
  permutation : ℤ → ℕ → List ℕ
  /-- `int(md5(text).hexdigest()[:8], 16)`. -/
  hash : String → Fin (2 ^ 32)
  /-- Python's `str` of a value, `"None"` for a null. -/
  str : Option V → String
  /-- The text Polars casts a value to, and Python's `str` of it. -/
  castText : Option V → String
  /-- The date of a value, none where Polars raises. -/
  date : V → Option ℤ
  /-- `str.to_date` of a literal. -/
  toDate : String → Option ℤ
  /-- What `np.empty` holds at a position before it is written. -/
  unwritten : ℕ → Partition

variable {V : Type} (engine : Engine V)

/-- `needs_row_order`. -/
def needsRowOrder (config : SplitConfig) : Bool :=
  config.strategy = .random ∨ (config.strategy = .temporal ∧ 0 < config.holdoutSize)

/-! ### Labels by position -/

/-- `labels[positions] = label`. -/
def setAll (labels : List Partition) (positions : List ℕ) (label : Partition) : List Partition :=
  positions.foldl (fun labels i => labels.set i label) labels

/-- `_in_source_order`: the label drawn for a row at its source position. -/
def inSourceOrder (canonical : List Partition) (rowOrder : List ℕ) : List Partition :=
  (rowOrder.zip canonical).foldl (fun labels (i, label) => labels.set i label)
    ((List.range canonical.length).map engine.unwritten)

/-- `int(n * size)` of a size that is not negative. -/
def share (n : ℕ) (size : ℚ) : ℕ := ⌊(n : ℚ) * size⌋.toNat

/-- `_random_mask`. -/
def randomMask (n : ℕ) (validationSize holdoutSize : ℚ) (seed : ℤ) : List Partition :=
  let indices := engine.permutation seed n
  let nHoldout := share n holdoutSize
  let nValidation := share n validationSize
  let partition := List.replicate n Partition.train
  let partition :=
    if 0 < nHoldout then setAll partition (indices.drop (n - nHoldout)) .holdout else partition
  if 0 < nValidation then
    setAll partition ((indices.take (n - nHoldout)).drop (n - nHoldout - nValidation)) .validation
  else partition

/-- The rows that are not before the cutoff. -/
def nonTrainIndices (isTrain : List Bool) : List ℕ :=
  (List.range isTrain.length).filter fun i => isTrain[i]? = some false

/-- The labels of dated rows. -/
def labelDates (dates : List ℤ) (cutoff : ℤ) (validationSize holdoutSize : ℚ) : List Partition :=
  let isTrain := dates.map fun date => decide (date < cutoff)
  let partition := isTrain.map fun train => if train then Partition.train else .validation
  let nonTrain := nonTrainIndices isTrain
  let partition :=
    if 0 < holdoutSize ∧ 0 < nonTrain.length then
      let sortedNonTrain := sortOn (fun i => dates[i]?.getD 0) nonTrain
      let nHoldout := share nonTrain.length (holdoutSize / (validationSize + holdoutSize))
      setAll partition (sortedNonTrain.drop (nonTrain.length - nHoldout)) .holdout
    else partition
  if validationSize = 0 then
    partition.map fun label => if label = .validation then .train else label
  else partition

/-- `_temporal_mask`. -/
def temporalMask (df : Frame V) (dateColumn cutoffDate : String) (validationSize holdoutSize : ℚ) :
    Except SplitError (List Partition) :=
  match df.column dateColumn with
  | none => .error (.validation ("Date column '" ++ dateColumn ++ "' not found in DataFrame"))
  | some cells =>
    let nullCount := cells.countP Option.isNone
    if nullCount ≠ 0 then
      .error (.validation ("Temporal split: date column '" ++ dateColumn ++ "' contains " ++
        toString nullCount ++ " null value(s) out of " ++ toString df.height ++ " row(s). " ++
        "Every row needs a non-null date to be assigned a partition — " ++
        "filter out or impute null dates upstream before training."))
    else
      match engine.toDate cutoffDate, cells.mapM fun cell => cell.bind engine.date with
      | some cutoff, some dates => .ok (labelDates dates cutoff validationSize holdoutSize)
      | _, _ => .error .polars

/-! ### Labels by group -/

/-- `frac` of a group. -/
def hashFraction (seed : ℤ) (group : String) : ℚ :=
  ((engine.hash (toString seed ++ ":" ++ group)).val : ℚ) / 2 ^ 32

/-- The partition a group's hash falls in. -/
def groupLabel (validationSize holdoutSize : ℚ) (seed : ℤ) (group : String) : Partition :=
  let frac := hashFraction engine seed group
  if 0 < holdoutSize ∧ frac < holdoutSize then .holdout
  else if 0 < validationSize + holdoutSize ∧ frac < validationSize + holdoutSize then .validation
  else .train

/-- `sorted(str(v) for v in df[group_column].unique().to_list())`. -/
def uniqueGroups [DecidableEq V] (cells : List (Option V)) : List String :=
  sortOn id (cells.dedup.map engine.str)

/-- `group_partition`. -/
def groupPartition (groups : List String) (validationSize holdoutSize : ℚ) (seed : ℤ) :
    OrdDict String Partition :=
  let assigned := groups.foldl (fun found group =>
    found.insert group (groupLabel engine validationSize holdoutSize seed group)) .empty
  let noValidation := assigned.entries.all fun entry => entry.2 ≠ .validation
  if 0 < validationSize ∧ noValidation ∧ 1 < groups.length then
    match groups.find? fun group => assigned.get? group = some .train with
    | some group => assigned.insert group .validation
    | none => assigned
  else assigned

/-- `_group_mask`. -/
def groupMask [DecidableEq V] (df : Frame V) (groupColumn : String) (validationSize holdoutSize : ℚ)
    (seed : ℤ) : Except SplitError (List Partition) :=
  match df.column groupColumn with
  | none => .error (.validation ("Group column '" ++ groupColumn ++ "' not found in DataFrame"))
  | some cells =>
    let found := groupPartition engine (uniqueGroups engine cells) validationSize holdoutSize seed
    .ok (cells.map fun cell => (found.get? (engine.castText cell)).getD .train)

/-! ### The mask -/

/-- `df[row_order]`. -/
def Frame.gather (df : Frame V) (rowOrder : List ℕ) : Frame V where
  height := rowOrder.length
  column name := (df.column name).map fun cells => rowOrder.map fun i => (cells[i]?).getD none
  length_column name cells h := by
    obtain ⟨held, -, rfl⟩ := Option.map_eq_some_iff.mp h
    exact List.length_map _

/-- A temporal split that holds rows out, drawn over the canonical order. -/
def temporalInOrder (df : Frame V) (order : List ℕ) (dateColumn cutoffDate : String)
    (validationSize holdoutSize : ℚ) : Except SplitError (List Partition) :=
  if order.any fun i => df.height ≤ i then .error .polars
  else do
    let canonical ← temporalMask engine (df.gather order) dateColumn cutoffDate
        validationSize holdoutSize
    return inSourceOrder engine canonical order

/-- `split_mask`. -/
def splitMask [DecidableEq V] (nRows : ℕ) (config : SplitConfig) (df : Option (Frame V))
    (rowOrder : Option (List ℕ)) : Except SplitError (List Partition) :=
  if nRows = 0 then .error (.validation "Cannot split an empty DataFrame")
  else
    match needsRowOrder config, rowOrder with
    | false, some _ =>
      .error (.validation ("A " ++ config.strategy.name ++
        " split decides each row by its values and needs no row order"))
    | true, none =>
      .error (.validation ("A " ++ config.strategy.name ++
        " split selects rows by position and needs the canonical row order"))
    | true, some order =>
      if order.length ≠ nRows then
        .error (.validation ("The canonical row order holds " ++ toString order.length ++
          " rows; the split has " ++ toString nRows))
      else
        match config.strategy with
        | .random =>
          .ok (inSourceOrder engine
            (randomMask engine nRows config.validationSize config.holdoutSize config.seed) order)
        | _ =>
          match df, config.dateColumn, config.cutoffDate with
          | some df, some dateColumn, some cutoffDate =>
            temporalInOrder engine df order dateColumn cutoffDate config.validationSize
              config.holdoutSize
          | _, _, _ =>
            .error (.validation "Temporal split requires df, date_column, and cutoff_date")
    | false, none =>
      match config.strategy, df, config.dateColumn, config.cutoffDate, config.groupColumn with
      | .temporal, some df, some dateColumn, some cutoffDate, _ =>
        temporalMask engine df dateColumn cutoffDate config.validationSize config.holdoutSize
      | .group, some df, _, _, some groupColumn =>
        groupMask engine df groupColumn config.validationSize config.holdoutSize config.seed
      | .group, _, _, _, _ => .error (.validation "Group split requires df and group_column")
      | _, _, _, _, _ =>
        .error (.validation "Temporal split requires df, date_column, and cutoff_date")

end Haute.Split
