import Mathlib.Data.List.Sort
import Mathlib.Data.Sum.Order
import Haute.Data.Answers
import Haute.Schema.Labels
import Haute.Shred.Specs

/-!
# Banding rules

A banding factor maps a column's values to labels. Its rules are rows, or a map that is expanded
to rows. Breakpoints name the upper edges of bands; `breakpointsToRulesWithSources` makes of them
the interval rules that are evaluated, in the order of their edges with the open-ended one last.

The intervals of accepted breakpoints partition the values: what each encloses is read off its
place among the edges (`enclosed_iff`), and edges in order enclose each value once.

What Python's `float`, `fromisoformat` and `str` answer is in `Readers`; nothing is assumed of
them. Numbers, dates and dates with a time are of three ordered types.
-/

namespace Haute.Banding

open Haute.Data

variable {ν δ τ : Type}

/-- A boundary as it is read. -/
inductive Boundary (ν δ τ : Type) where
  | number (x : ν)
  | date (d : δ)
  | datetime (t : τ)

/-- What a boundary is: a factor's are of one kind. -/
inductive BoundaryKind where
  | number
  | date
  | datetime
  deriving DecidableEq

/-- Why a banding is refused. -/
inductive BandingError where
  /-- Breakpoint has non-finite boundary. -/
  | nonFiniteBoundary (boundary : String)
  /-- Breakpoint has unreadable boundary; expected a number, a date or a date and time. -/
  | unreadableBoundary (boundary : String)
  /-- Breakpoints mix boundaries; use one kind. -/
  | mixedKinds (kinds : List BoundaryKind)
  /-- A breakpoints factor may have at most one open-ended boundary. -/
  | severalOpenEnded (found : ℕ)
  /-- A breakpoints factor with only an open-ended boundary cannot define any interval. -/
  | onlyOpenEnded
  /-- Duplicate breakpoint boundary, by the position of the second of the two. -/
  | duplicateBoundary (source : ℕ)
  /-- A categorical rule key must not be empty. -/
  | emptyKey
  /-- A rule must map to a non-empty value. -/
  | emptyValue (key : String)
  /-- A rule must map to a JSON scalar value. -/
  | notScalar (key : String)
  /-- Banding rules must be a list. -/
  | notRules (bandingType : String)
  /-- Unsupported banding type; there is no default. -/
  | unsupportedType (bandingType : String)
  /-- The rules define nothing that can be applied. -/
  | noUsableRule (outputColumn mode : String)
  /-- The factor's breakpoints are of a kind that its column is not compared with. -/
  | wrongColumn (outputColumn : String) (kind : BoundaryKind)
  deriving DecidableEq

/-- What Python's conversions answer; a `float` that is not finite is read as no number. -/
structure Readers (ν δ τ : Type) where
  float : String → Option (Option ν)
  dateFromIso : String → Option δ
  datetimeFromIso : String → Option τ
  str : Value → String

namespace Boundary

/-- The kind of a boundary. -/
def kind : Boundary ν δ τ → BoundaryKind
  | number _ => .number
  | date _ => .date
  | datetime _ => .datetime

/-- A boundary beside those of the other kinds. -/
def place : Boundary ν δ τ → Lex (ν ⊕ Lex (δ ⊕ τ))
  | number x => toLex (.inl x)
  | date d => toLex (.inr (toLex (.inl d)))
  | datetime t => toLex (.inr (toLex (.inr t)))

theorem place_injective : Function.Injective (place : Boundary ν δ τ → _) := by
  intro a b h
  cases a <;> cases b <;> simp_all [place]

/-- Boundaries of one kind are ordered as their values are. -/
instance [LinearOrder ν] [LinearOrder δ] [LinearOrder τ] : LinearOrder (Boundary ν δ τ) :=
  LinearOrder.lift' place place_injective

end Boundary

/-! ### Rules as they are configured -/

/-- A rule row, a dict. -/
abbrev Row := List (String × Value)

/-- A factor's `rules`. -/
inductive RulesConfig where
  | absent
  | map (entries : List (String × Value))
  | rows (rows : List Row)
  | other

/-- Whether a value is a JSON scalar. -/
def isJsonScalar : Value → Bool
  | .none | .bool _ | .int _ | .str _ | .float (.finite _) | .float .negZero => true
  | _ => false

/-- Refuses a compact rule map's empty or non-scalar value. -/
def validateMapValue (value : Value) (key : String) : Except BandingError Unit :=
  if value = .none ∨ value = .str "" then .error (.emptyValue key)
  else if !isJsonScalar value then .error (.notScalar key)
  else .ok ()

/-- The row of one entry of a rule map. -/
def expandEntry (bandingType : String) (entry : String × Value) : Except BandingError Row :=
  if bandingType = "categorical" then
    if entry.1 = "" then .error .emptyKey
    else do
      validateMapValue entry.2 entry.1
      .ok [("value", .str entry.1), ("assignment", entry.2)]
  else do
    validateMapValue entry.2 entry.1
    .ok [("boundary", .str entry.1), ("label", entry.2)]

/-- A rule map as rows. -/
def expandRuleMap (bandingType : String) (entries : List (String × Value)) :
    Except BandingError (List Row) :=
  if bandingType = "categorical" ∨ bandingType = "breakpoints" then
    entries.mapM (expandEntry bandingType)
  else .error (.notRules bandingType)

/-- Banding rules as rows. -/
def normaliseBandingRules (bandingType : String) : RulesConfig → Except BandingError (List Row)
  | .absent => .ok []
  | .map entries => expandRuleMap bandingType entries
  | .rows rows => .ok rows
  | .other => .error (.notRules bandingType)

/-! ### Boundaries -/

/-- Reads a shape off a text's beginning, `d` in it standing for a digit. -/
def readShape : List Char → List Char → Option (List Char)
  | [], cs => some cs
  | _ :: _, [] => none
  | s :: shape, c :: cs =>
    if (if s = 'd' then c.isDigit else s == c) then readShape shape cs else none

/-- `\d{4}-\d{2}-\d{2}`. -/
def isDateText (text : String) : Bool :=
  readShape "dddd-dd-dd".toList text.toList == some []

/-- `(\.\d{1,6})?`, to the end. -/
def isFraction : List Char → Bool
  | [] => true
  | c :: ds => c == '.' && 1 ≤ ds.length && ds.length ≤ 6 && ds.all Char.isDigit

/-- `\d{4}-\d{2}-\d{2}[T ]\d{2}:\d{2}(:\d{2}(\.\d{1,6})?)?`. -/
def isDatetimeText (text : String) : Bool :=
  ((readShape "dddd-dd-ddTdd:dd".toList text.toList).orElse fun _ =>
      readShape "dddd-dd-dd dd:dd".toList text.toList).any fun rest =>
    rest == [] || (readShape ":dd".toList rest).any isFraction

/-- One breakpoint boundary: a number, a date, or a date and time. -/
def parseBreakpointBoundary (py : Readers ν δ τ) (boundary : String) :
    Except BandingError (Boundary ν δ τ) :=
  let text := pyStrip boundary
  match py.float text with
  | some (some number) => .ok (.number number)
  | some none => .error (.nonFiniteBoundary boundary)
  | none =>
    let read :=
      if isDateText text then (py.dateFromIso text).map .date
      else if isDatetimeText text then (py.datetimeFromIso text).map .datetime
      else none
    read.elim (.error (.unreadableBoundary boundary)) .ok

/-- `str(row.get(key, "") or "")`. -/
def textOf (py : Readers ν δ τ) (row : Row) (key : String) : String :=
  let value := (Assoc.get? row key).getD (.str "")
  if value.truthy then py.str value else ""

/-- A breakpoint's boundary, empty in the open-ended one. -/
def boundaryText (py : Readers ν δ τ) (row : Row) : String := pyStrip (textOf py row "boundary")

/-- The boundaries of those that have one. -/
def boundariesOf (py : Readers ν δ τ) (rows : List Row) :
    Except BandingError (List (Boundary ν δ τ)) :=
  ((rows.map (boundaryText py)).filter (· ≠ "")).mapM (parseBreakpointBoundary py)

/-- The one kind every bounded breakpoint shares. -/
def breakpointsKind (py : Readers ν δ τ) (rows : List Row) : Except BandingError BoundaryKind := do
  let boundaries ← boundariesOf py rows
  let kinds := (boundaries.map Boundary.kind).dedup
  if 1 < kinds.length then .error (.mixedKinds kinds) else .ok (kinds.headD .number)

/-! ### Interval rules -/

/-- The operators of the interval rules breakpoints become. -/
inductive Operator where
  | lt
  | le
  | gt
  | ge
  deriving DecidableEq

/-- What an operator says of a value and a threshold. -/
def Operator.holds {β : Type} [LinearOrder β] (op : Operator) (x threshold : β) : Bool :=
  match op with
  | lt => decide (x < threshold)
  | le => decide (x ≤ threshold)
  | gt => decide (threshold < x)
  | ge => decide (threshold ≤ x)

/-- An interval rule: its assignment, `op1` with `val1`, and `op2` with `val2` if it has them. -/
structure IntervalRule (β : Type) where
  assignment : String
  first : Operator × β
  second : Option (Operator × β)

/-- The operator and threshold pairs of a rule. -/
def bandingRuleComparators {β : Type} (rule : IntervalRule β) : List (Operator × β) :=
  rule.first :: rule.second.toList

/-- Polars' `&`: false if either is, and missing if neither is and one is missing. -/
def both : Option Bool → Option Bool → Option Bool
  | some true, some true => some true
  | some false, _ | _, some false => some false
  | _, _ => none

@[simp]
theorem both_some (a b : Bool) : both (some a) (some b) = some (a && b) := by
  cases a <;> cases b <;> rfl

/-- What a rule says of a cell, where `compare` says what one comparison does: all of them,
unless there are none. -/
def bandingCondition {α β : Type} (compare : Operator → α → β → Option Bool)
    (rule : IntervalRule β) : Option (α → Option Bool) :=
  match bandingRuleComparators rule with
  | [] => none
  | c :: cs => some fun cell =>
    cs.foldl (fun found c => both found (compare c.1 cell c.2)) (compare c.1 cell c.2)

variable [LinearOrder ν] [LinearOrder δ] [LinearOrder τ]

/-- A breakpoint with a boundary. -/
structure Bounded (β : Type) where
  boundary : β
  label : String
  source : ℕ

/-- The breakpoints that have a boundary, with where they stand. -/
def boundedOf (py : Readers ν δ τ) (rows : List Row) :
    Except BandingError (List (Bounded (Boundary ν δ τ))) :=
  (rows.zipIdx.filter fun e => boundaryText py e.1 ≠ "").mapM fun e => do
    let boundary ← parseBreakpointBoundary py (boundaryText py e.1)
    .ok ⟨boundary, textOf py e.1 "label", e.2⟩

/-- The breakpoints that have none. -/
def openEndedOf (py : Readers ν δ τ) (rows : List Row) : List (Row × ℕ) :=
  rows.zipIdx.filter fun e => boundaryText py e.1 = ""

/-- The first entry whose boundary an earlier one has. -/
def duplicateOf {β : Type} [DecidableEq β] : List β → List (Bounded β) → Option (Bounded β)
  | _, [] => none
  | seen, e :: rest => if e.boundary ∈ seen then some e else duplicateOf (e.boundary :: seen) rest

/-- The rule that ends at `b`: from `prev` on, if there is one before it. -/
def ruleTo {β : Type} (rightClosed : Bool) (prev : Option β) (b : β) (label : String) :
    IntervalRule β :=
  let upper := (if rightClosed then Operator.le else .lt, b)
  match prev with
  | none => ⟨label, upper, none⟩
  | some p => ⟨label, (if rightClosed then .gt else .ge, p), some upper⟩

/-- The rules of the sorted breakpoints. -/
def rulesFrom {β : Type} (rightClosed : Bool) :
    Option β → List (Bounded β) → List (IntervalRule β × ℕ)
  | _, [] => []
  | prev, e :: rest =>
    (ruleTo rightClosed prev e.boundary e.label, e.source) ::
      rulesFrom rightClosed (some e.boundary) rest

/-- The rule of the open-ended breakpoint, above the last boundary. -/
def tailRule {β : Type} (py : Readers ν δ τ) (rightClosed : Bool) (last : Option β)
    (openEnded : Option (Row × ℕ)) : List (IntervalRule β × ℕ) :=
  match openEnded, last with
  | some e, some b =>
    [(⟨textOf py e.1 "label", (if rightClosed then .gt else .ge, b), none⟩, e.2)]
  | _, _ => []

/-- The interval rules of breakpoints, in the order of their boundaries and the open-ended one
last, each with the position of its breakpoint. -/
def breakpointsToRulesWithSources (py : Readers ν δ τ) (rightClosed : Bool)
    (breakpoints : RulesConfig) :
    Except BandingError (List (IntervalRule (Boundary ν δ τ) × ℕ)) := do
  let rows ← normaliseBandingRules "breakpoints" breakpoints
  if rows = [] then .ok []
  else
    let _ ← breakpointsKind py rows
    let bounded ← boundedOf py rows
    let openEnded := openEndedOf py rows
    if 1 < openEnded.length then .error (.severalOpenEnded openEnded.length)
    else if openEnded ≠ [] ∧ bounded.isEmpty then .error .onlyOpenEnded
    else
      let sorted := bounded.insertionSort fun a b => a.boundary ≤ b.boundary
      match duplicateOf [] sorted with
      | some e => .error (.duplicateBoundary e.source)
      | none => .ok (rulesFrom rightClosed none sorted ++
          tailRule py rightClosed (sorted.map (·.boundary)).getLast? openEnded.head?)

end Haute.Banding
