import Haute.Cardinality.Joins
import Haute.Cardinality.Syntax
import Haute.Data.Assoc
import Mathlib.Data.List.Dedup

/-!
# Programs over one frame

A node's code, as far as a row count looks at it: imports, helpers, and assignments to `df`, each
a name or a chain of frame methods on one. `parseProgram` is the closed parser in its row-count
mode. It reads no value: an operand is resolved by its name, to the input of that name.

Which arguments are accepted is decided by their row effect and, beside it, by checks that only
tell which columns are read (`Readings`, a parameter): they refuse calls, and nothing is assumed
of what they let through.
-/

namespace Haute.Cardinality

/-- A refusal, with the method it is about. -/
structure ParseFailure where
  reason : String
  operation : Option String := none
  deriving DecidableEq, Repr

/-- Frame methods whose arguments do not matter to a row count once they are accepted. -/
inductive PlainMethod where
  | rename | filter | cast | shift | head | tail | limit | slice | reverse | topK | bottomK
  | interpolate | sort | unique | drop | dropNulls | withRowIndex
  deriving DecidableEq, Repr

namespace PlainMethod

def spelled : PlainMethod → String
  | .rename => "rename"
  | .filter => "filter"
  | .cast => "cast"
  | .shift => "shift"
  | .head => "head"
  | .tail => "tail"
  | .limit => "limit"
  | .slice => "slice"
  | .reverse => "reverse"
  | .topK => "top_k"
  | .bottomK => "bottom_k"
  | .interpolate => "interpolate"
  | .sort => "sort"
  | .unique => "unique"
  | .drop => "drop"
  | .dropNulls => "drop_nulls"
  | .withRowIndex => "with_row_index"

/-- `_ROW_NON_INCREASING_FRAME_METHODS`. -/
def nonIncreasing : PlainMethod → Bool
  | .shift | .interpolate => false
  | _ => true

end PlainMethod

/-- The checks that find out which columns are read. -/
structure Readings where
  /-- `_normalise_expression_outputs` names the outputs, or every expression is
  `_readable_with_selectors`. -/
  readable : Arguments → Bool
  /-- `_referenced_columns` names what every value reads. -/
  referenced : Arguments → Bool
  /-- `_referenced_columns` finds a column, and `classify_row_local_expression` admits the
  expression. -/
  rowLocal : Node → Bool
  /-- What a method's own argument parser refuses. -/
  refusal : PlainMethod → Arguments → Option ParseFailure

/-- A call in the right operand of an as-of join. -/
inductive OperandCall where
  | plain (method : PlainMethod) (arguments : Arguments)
  | select (arguments : Arguments)
  | withColumns (arguments : Arguments)
  | other (method : String)

/-- The key arguments of a join. -/
inductive JoinKeys where
  | absent
  | literal (left right : List String)
  | dynamic

/-- A call of a chain. -/
inductive FrameCall where
  | plain (method : PlainMethod) (arguments : Arguments)
  | select (method : String) (arguments : Arguments)
  | withColumns (arguments : Arguments)
  | fillNull (arguments : Arguments)
  | groupBy (arguments : Arguments)
  | agg (arguments : Arguments)
  | explode
  | unpivot (on : Option (List String)) (index : List String) (variableName valueName : String)
  | join (right how suffix : String) (validate : Option String) (keys : JoinKeys)
  | joinAsof (right : String) (calls : List OperandCall)
  | other (method : String)

/-- The arguments of a call that are expressions. -/
def OperandCall.arguments : OperandCall → Arguments
  | .plain _ arguments | .select arguments | .withColumns arguments => arguments
  | .other _ => {}

/-- The arguments of a call that are expressions; an operand of a join is none. -/
def FrameCall.arguments : FrameCall → Arguments
  | .plain _ arguments | .select _ arguments | .withColumns arguments | .fillNull arguments
  | .groupBy arguments | .agg arguments => arguments
  | .explode | .unpivot .. | .join .. | .joinAsof .. | .other _ => {}

/-- What an assignment to a name other than `df` reads. -/
structure HelperValue where
  names : List String
  hasCall : Bool

/-- A statement of the code. -/
inductive Statement where
  | importing (names : List String)
  | passing
  | helper (target : String) (value : HelperValue)
  | naming (source : String)
  | chain (root : String) (calls : List FrameCall)
  | other (failure : ParseFailure)

/-- A parsed operation; the kinds that a row count treats alike are one constructor. -/
inductive Operation where
  | joining (method right : String) (how : JoinHow) (validate : JoinValidation)
  | selecting (method : String)
  | unpivoting (on : List String)
  | exploding
  | keeping (method : String)
  deriving DecidableEq, Repr

/-! ### Parsing a chain -/

def JoinHow.ofText (text : String) : Option JoinHow :=
  [.inner, .left, .right, .full, .semi, .anti, .cross].find? fun how => how.spelled = text

/-- `normalise_join_validation` of a text. -/
def normaliseJoinValidation (text : String) : Option JoinValidation :=
  [.manyToMany, .manyToOne, .oneToMany, .oneToOne].find? fun v => v.spelled = text

section Parsing

variable (R : Readings) (inputs : List String)

/-- `_parse_join`, in row-count mode, which takes any suffix. -/
def parseJoin (right how : String) (validate : Option String) (keys : JoinKeys) :
    Except ParseFailure Operation :=
  if right ∉ inputs then .error ⟨"unknown_join_input", "join"⟩
  else
    match (validate.map normaliseJoinValidation).getD (some .manyToMany), JoinHow.ofText how with
    | none, _ => .error ⟨"unsupported_join_semantics", "join"⟩
    | some _, none => .error ⟨"unsupported_join_semantics", "join"⟩
    | some v, some .cross =>
      match keys with
      | .absent => .ok (.joining "join" right .cross v)
      | _ => .error ⟨"unsupported_join_semantics", "join"⟩
    | some v, some how =>
      match keys with
      | .literal leftOn rightOn =>
        if leftOn.dedup.length ≠ rightOn.dedup.length ∨ leftOn.length ≠ rightOn.length then
          .error ⟨"dynamic_join_keys", "join"⟩
        else .ok (.joining "join" right how v)
      | _ => .error ⟨"dynamic_join_keys", "join"⟩

/-- One call of `_row_non_increasing_chain_input`. -/
def OperandCall.nonIncreasing : OperandCall → Bool
  | .plain method _ => method.nonIncreasing
  | .select arguments | .withColumns arguments => projectsOnlyExistingColumns arguments
  | .other _ => false

/-- `_parse_join_asof`. -/
def parseJoinAsof (right : String) (calls : List OperandCall) : Except ParseFailure Operation :=
  if calls.all OperandCall.nonIncreasing && decide (right ∈ inputs) then
    .ok (.joining "join_asof" right .left .manyToOne)
  else .error ⟨"dynamic_join_asof_input", "join_asof"⟩

/-- `_parse_unpivot`, in row-count mode. -/
def parseUnpivot (on : Option (List String)) (index : List String)
    (variableName valueName : String) :
    Except ParseFailure Operation :=
  match on with
  | none | some [] => .error ⟨"dynamic_unpivot", "unpivot"⟩
  | some on =>
    if variableName = valueName ∨ variableName ∈ index ∨ valueName ∈ index ∨ on.any (· ∈ index) then
      .error ⟨"invalid_unpivot", "unpivot"⟩
    else .ok (.unpivoting on.dedup)

/-- One turn of `_parse_call_sequence`, in row-count mode. -/
def parseCall : FrameCall → Except ParseFailure Operation
  | .plain method arguments =>
    match R.refusal method arguments with
    | some failure => .error failure
    | none => .ok (.keeping method.spelled)
  | .select method arguments =>
    if arguments.values.any expressionHasUnboundedRowEffect
        || selectsALitOfUnknownLength R.rowLocal arguments then
      .error ⟨"row_expansion_unbounded", method⟩
    else if R.readable arguments then .ok (.selecting method)
    else .error ⟨"dynamic_select", method⟩
  | .withColumns arguments =>
    if arguments.values.any expressionHasUnboundedRowEffect then
      .error ⟨"row_expansion_unbounded", "with_columns"⟩
    else if R.readable arguments then .ok (.selecting "with_columns")
    else .error ⟨"dynamic_with_columns", "with_columns"⟩
  | .fillNull arguments =>
    -- the values are only read for the columns they name
    if R.referenced arguments then .ok (.keeping "fill_null")
    else .error ⟨"dynamic_fill_null", "fill_null"⟩
  | .groupBy _ => .error ⟨"incomplete_group_by", "group_by"⟩
  | .agg _ => .error ⟨"orphan_aggregate", "agg"⟩
  | .explode => .ok .exploding
  | .unpivot on index variableName valueName => parseUnpivot on index variableName valueName
  | .join right how _ validate keys => parseJoin inputs right how validate keys
  | .joinAsof right calls => parseJoinAsof inputs right calls
  | .other method => .error ⟨"unsupported_operation", method⟩

/-- `_parse_call_sequence`: a `group_by` takes the `agg` after it along. -/
def parseCalls : List FrameCall → Except ParseFailure (List Operation)
  | [] => .ok []
  | .groupBy _ :: .agg _ :: rest => do
    return .keeping "group_by.agg" :: (← parseCalls rest)
  | call :: rest => do
    let operation ← parseCall R inputs call
    return operation :: (← parseCalls rest)

/-! ### Parsing a program -/

/-- The input that `df` stands for before the code assigns it: the sole input. -/
def implicitDf : Option String :=
  match inputs with
  | [name] => some name
  | _ => none

/-- What the parser knows between two statements. -/
structure ParseState where
  root : Option String := none
  operations : List Operation := []
  started : Bool := false

/-- The input a chain is rooted in. -/
def chainRoot (s : ParseState) (root : String) : Except ParseFailure (Option String) :=
  if s.started then
    if root ≠ "df" then .error ⟨"frame_root_reset", none⟩ else .ok s.root
  else if root = "df" then
    match s.root, implicitDf inputs with
    | some r, _ => .ok (some r)
    | none, some r => .ok (some r)
    | none, none => .error ⟨"ambiguous_frame_root", none⟩
  else if root ∈ inputs then .ok (some root)
  else .error ⟨"unknown_frame_root", none⟩

/-- One turn of the loop of `_parse_program`, in row-count mode. -/
def parseStatement (s : ParseState) : Statement → Except ParseFailure ParseState
  | .importing _ | .passing => .ok s
  | .other failure => .error failure
  | .helper target value =>
    if target = "df" then .error ⟨"unknown_frame_root", none⟩
    else if value.names.any fun name => name ∈ inputs ∨ name = "df" then
      .error ⟨"frame_dependent_helper", none⟩
    else if value.hasCall then .error ⟨"dynamic_helper", none⟩
    else .ok s
  | .naming source =>
    if s.started then .error ⟨"unknown_frame_root", none⟩
    else if source ∈ inputs then .ok { s with root := some source }
    else if source = "df" ∧ s.root = none ∧ implicitDf inputs ≠ none then
      .ok { s with root := implicitDf inputs }
    else if source ≠ "df" ∨ s.root = none then .error ⟨"unknown_frame_root", none⟩
    else .ok s
  | .chain root calls => do
    let root ← chainRoot inputs s root
    let operations ← parseCalls R inputs calls
    return ⟨root, s.operations ++ operations, true⟩

def parseStatements (s : ParseState) : List Statement → Except ParseFailure ParseState
  | [] => .ok s
  | statement :: rest => do
    let s ← parseStatement R inputs s statement
    parseStatements s rest

structure LinearFrameProgram where
  rootInput : String
  operations : List Operation

/-- `_parse_program`, in row-count mode. -/
def parseProgram (code : List Statement) : Except ParseFailure LinearFrameProgram := do
  let s ← parseStatements R inputs {} code
  match s.root with
  | none => .error ⟨"no_frame_root", none⟩
  | some root => return ⟨root, s.operations⟩

end Parsing

/-! ### The analysis -/

/-- What the analysis has accumulated. -/
structure Bounds where
  current : ℕ
  peak : ℕ
  operandPeak : ℕ
  hasCrossJoin : Bool := false
  dependsOnManyToManyJoin : Bool := false
  operandReferences : List (String × ℕ)
  evidence : List String

/-- The bounds before the first operation. -/
def Bounds.start (root : String) (rows : ℕ) : Bounds where
  current := rows
  peak := rows
  operandPeak := rows
  operandReferences := [(root, 1)]
  evidence := ["cardinality_root_input=" ++ root, "cardinality_root_upper_bound=" ++ toString rows]

/-- The bound of an input; the parser lets only inputs through as operands. -/
def inputRows (inputs : List (String × ℕ)) (name : String) : ℕ := (Assoc.get? inputs name).getD 0

def operationEvidence (index : ℕ) (text : String) : String :=
  "operation[" ++ toString index ++ "]." ++ text

/-- One turn of the loop of `analyze_polars_cardinality`. -/
def boundOperation (inputs : List (String × ℕ)) (index : ℕ) (b : Bounds) :
    Operation → Except ParseFailure Bounds
  | .exploding => .error ⟨"row_expansion_unbounded", "explode"⟩
  | .joining _ right how validate =>
    let rightRows := inputRows inputs right
    let bound := joinCardinalityUpperBound how validate b.current rightRows
    .ok {
      current := bound.maxRows
      peak := max b.peak (max rightRows bound.maxRows)
      operandPeak := max b.operandPeak (max b.current rightRows)
      hasCrossJoin := b.hasCrossJoin || decide (how = .cross)
      dependsOnManyToManyJoin := b.dependsOnManyToManyJoin || decide (validate = .manyToMany)
      operandReferences := Assoc.upsert b.operandReferences right fun held => held.getD 0 + 1
      evidence := b.evidence ++ bound.evidence.map (operationEvidence index) }
  | .selecting _ =>
    -- a scalar is one row even over an empty frame
    .ok { b with
      operandPeak := max b.operandPeak b.current
      current := max b.current 1
      peak := max b.peak (max b.current 1)
      evidence := b.evidence ++
        [operationEvidence index
          ("scalar_empty_frame_upper_bound=" ++ toString (max b.current 1))] }
  | .unpivoting on =>
    .ok { b with
      operandPeak := max b.operandPeak b.current
      current := b.current * on.length
      peak := max b.peak (b.current * on.length)
      evidence :=
        b.evidence ++ [operationEvidence index ("unpivot_factor=" ++ toString on.length)] }
  | .keeping _ => .ok b

def boundOperations (inputs : List (String × ℕ)) : ℕ → Bounds → List Operation →
    Except ParseFailure Bounds
  | _, b, [] => .ok b
  | index, b, operation :: rest => do
    let b ← boundOperation inputs index b operation
    boundOperations inputs (index + 1) b rest

/-- A supported result of the analysis. -/
structure RowCardinality where
  outputUpperBound : ℕ
  peakUpperBound : ℕ
  evidence : List String
  operandPeakRows : ℕ
  hasCrossJoin : Bool
  dependsOnManyToManyJoin : Bool
  operandReferenceCounts : List (String × ℕ)

/-- `analyze_polars_cardinality`, of code Python has parsed. -/
def analyzePolarsCardinality (R : Readings) (code : List Statement)
    (inputs : List (String × ℕ)) : Except ParseFailure RowCardinality := do
  if inputs = [] ∨ "" ∈ Assoc.keys inputs then throw ⟨"invalid_inputs", none⟩
  let program ← parseProgram R (Assoc.keys inputs) code
  let start := Bounds.start program.rootInput (inputRows inputs program.rootInput)
  let b ← boundOperations inputs 0 start program.operations
  return {
    outputUpperBound := b.current
    peakUpperBound := b.peak
    evidence := b.evidence ++
      ["cardinality_output_upper_bound=" ++ toString b.current,
        "cardinality_peak_upper_bound=" ++ toString b.peak]
    operandPeakRows := b.operandPeak
    hasCrossJoin := b.hasCrossJoin
    dependsOnManyToManyJoin := b.dependsOnManyToManyJoin
    operandReferenceCounts := b.operandReferences }

end Haute.Cardinality
