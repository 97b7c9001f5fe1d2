import Mathlib.Data.List.Basic
import Mathlib.Order.Lattice
import Mathlib.Tactic.Common

/-!
# The syntax of an argument

Python's expressions as far as a row count looks at them, and the source's predicates on them:
which calls may give more values than the frame has rows (`expressionHasUnboundedRowEffect`),
which selections hold a literal of unknown length (`selectsALitOfUnknownLength`) and which project
only columns that are there (`projectsOnlyExistingColumns`).

`Node.leaves` are the parts that syntax says nothing about: what they stand for is found in the
names the code runs with.
-/

namespace Haute.Cardinality

/-- A constant. -/
inductive Constant where
  | str (s : String)
  | int (i : ℤ)
  | bool (b : Bool)
  | other
  deriving DecidableEq

/-- An expression. Lists and tuples are one constructor, and so are all operators but `+` and the
signs, conditionals included. -/
inductive Node where
  | constant (c : Constant)
  | name (id : String)
  | attr (value : Node) (name : String)
  | call (func : Node) (args : List Node) (keywords : List (Option String × Node))
  | sequence (elts : List Node)
  | add (left right : Node)
  | signed (operand : Node)
  | operator (operands : List Node)
  | lambda (children : List Node)
  | other (children : List Node)

/-- The arguments of a call. -/
structure Arguments where
  positional : List Node := []
  keywords : List (Option String × Node) := []

/-- The expressions among the arguments, keywords last. -/
def Arguments.values (args : Arguments) : List Node := args.positional ++ args.keywords.map Prod.snd

mutual

/-- `ast.walk`, in preorder. -/
def Node.walk : Node → List Node
  | .constant c => [.constant c]
  | .name id => [.name id]
  | .attr value attr => .attr value attr :: value.walk
  | .call func args keywords =>
    .call func args keywords :: (func.walk ++ (walkAll args ++ walkKeywords keywords))
  | .sequence elts => .sequence elts :: walkAll elts
  | .add left right => .add left right :: (left.walk ++ right.walk)
  | .signed operand => .signed operand :: operand.walk
  | .operator operands => .operator operands :: walkAll operands
  | .lambda children => .lambda children :: walkAll children
  | .other children => .other children :: walkAll children

def walkAll : List Node → List Node
  | [] => []
  | e :: es => e.walk ++ walkAll es

def walkKeywords : List (Option String × Node) → List Node
  | [] => []
  | (_, e) :: es => e.walk ++ walkKeywords es

end

/-! ### Names and literals -/

/-- `_literal_string`. -/
def literalString : Node → Option String
  | .constant (.str s) => if s = "" then none else some s
  | _ => none

/-- `_literal_column_name`: neither `*` nor `^...$`. -/
def literalColumnName (e : Node) : Option String :=
  (literalString e).filter fun name =>
    name ≠ "*" && !(name.toList.head? = some '^' && name.toList.getLast? = some '$')

/-- `_polars_call_name`, of what is called. -/
def polarsCallName : Node → Option String
  | .attr (.name id) attr => if id = "pl" then some attr else none
  | _ => none

/-- `_pl_col_name`, of a call. -/
def plColName (func : Node) (args : List Node) (keywords : List (Option String × Node)) :
    Option String :=
  match polarsCallName func, args, keywords with
  | some "col", [e], [] => literalColumnName e
  | _, _, _ => none

/-- `is_literal_scalar`. -/
def isLiteralScalar : Node → Bool
  | .constant _ => true
  | .signed (.constant _) => true
  | _ => false

/-- `is_literal_collection`. -/
def isLiteralCollection : Node → Bool
  | .sequence elts => elts.all isLiteralScalar
  | _ => false

/-! ### Row effects -/

/-- `_ROW_EXPANDING_EXPRESSION_METHODS`: the methods of expressions that the operation registry
says can outgrow the frame. -/
def rowExpandingExpressionMethods : List String :=
  ["append", "deserialize", "explode", "extend_constant", "gather", "hist", "reshape", "sample",
    "search_sorted", "map_batches", "pipe", "pipe_with_dtype"]

/-- `_HORIZONTAL_PL_CALL_OUTPUTS`. -/
def horizontalPlCallOutputs : List String :=
  ["all_horizontal", "any_horizontal", "cum_sum_horizontal", "max_horizontal", "mean_horizontal",
    "min_horizontal", "sum_horizontal"]

/-- `_ROW_BOUND_SAFE_POLARS_CALLS`. -/
def rowBoundSafePolarsCalls : List String :=
  ["all", "exclude", "first", "last", "nth", "arg_sort_by", "arg_where", "business_day_count",
    "coalesce", "col", "concat_arr", "concat_list", "concat_str", "date", "date_ranges", "datetime",
    "datetime_ranges", "duration", "element", "format", "from_epoch", "int_ranges", "len",
    "linear_spaces", "lit", "struct", "time", "time_ranges", "when"] ++ horizontalPlCallOutputs

/-- `_range_bound_terms`: a multiple of `pl.len()` and a constant. -/
def rangeBoundTerms : Node → Option (ℕ × ℕ)
  | .constant (.int i) => if i < 0 then none else some (0, i.toNat)
  | .call func [] [] => if polarsCallName func = some "len" then some (1, 0) else none
  | .add left right => do
    let l ← rangeBoundTerms left
    let r ← rangeBoundTerms right
    if l.1 + r.1 > 1 then none else some (l.1 + r.1, l.2 + r.2)
  | _ => none

/-- The bounds of `pl.int_range`, where they are the only arguments. -/
def rangeBounds : List Node → List (Option String × Node) → Option ((ℕ × ℕ) × (ℕ × ℕ))
  | [stop], [] => (rangeBoundTerms stop).map fun e => ((0, 0), e)
  | [start, stop], [] => do
    let s ← rangeBoundTerms start
    let e ← rangeBoundTerms stop
    return (s, e)
  | _, _ => none

/-- `_is_frame_length_range`. -/
def isFrameLengthRange (args : List Node) (keywords : List (Option String × Node)) : Bool :=
  match rangeBounds args keywords with
  | none => false
  | some (s, e) => e.1 = s.1 + 1 && decide (e.2 ≤ s.2)

/-- A function or a lambda passed to a method. -/
def isCallback : Node → Bool
  | .lambda _ | .name _ => true
  | _ => false

/-- A call that may give more values than the frame has rows. -/
def callHasRowEffect : Node → Bool
  | .call func args keywords =>
    match polarsCallName func, func with
    | some direct, _ =>
      !(direct = "int_range" && isFrameLengthRange args keywords) &&
        !rowBoundSafePolarsCalls.contains direct
    | none, .attr _ method =>
      rowExpandingExpressionMethods.contains method
        || (args.any isCallback && (method = "map_elements" || method = "rolling_map"))
    | none, _ => false
  | _ => false

/-- `_expression_has_unbounded_row_effect`. -/
def expressionHasUnboundedRowEffect (e : Node) : Bool := e.walk.any callHasRowEffect

/-! ### Literals of unknown length -/

/-- The value a `pl.lit` is given. -/
def litValue (args : List Node) (keywords : List (Option String × Node)) : Option Node :=
  args.head?.or ((keywords.find? fun k => k.1 = some "value").map Prod.snd)

/-- A value that is written out, if there is one. -/
def isLiteralLit (args : List Node) (keywords : List (Option String × Node)) : Bool :=
  match litValue args keywords with
  | none => true
  | some e => isLiteralScalar e || isLiteralCollection e

/-- A `pl.lit` of a value that is not written out. -/
def isUnknownLit : Node → Bool
  | .call func args keywords => polarsCallName func = some "lit" && !isLiteralLit args keywords
  | _ => false

/-- `_keeps_the_frame_height`. `rowLocal` says whether an expression reads a column and is
row-local. -/
def keepsTheFrameHeight (rowLocal : Node → Bool) (positional : Bool) (e : Node) : Bool :=
  (literalColumnName e).isSome ||
    match positional, e with
    | true, .sequence elts => elts.any fun element => (literalColumnName element).isSome
    | _, _ => rowLocal e

/-- `_selects_a_lit_of_unknown_length`. -/
def selectsALitOfUnknownLength (rowLocal : Node → Bool) (args : Arguments) : Bool :=
  !(args.positional.any (keepsTheFrameHeight rowLocal true)
      || args.keywords.any fun k => keepsTheFrameHeight rowLocal false k.2)
    && args.values.any fun e => e.walk.any isUnknownLit

/-! ### Projections -/

/-- `_is_plain_column_expression`. -/
def isPlainColumnExpression : Node → Bool
  | .sequence elts => allPlainColumns elts
  | .constant (.str s) => s ≠ ""
  | .call (.attr receiver attr) args keywords =>
    if attr = "alias" then
      (match args with | [e] => (literalString e).isSome | _ => false) && keywords.isEmpty
        && isPlainColumnExpression receiver
    else (plColName (.attr receiver attr) args keywords).isSome
  | _ => false
where
  allPlainColumns : List Node → Bool
    | [] => true
    | e :: es => isPlainColumnExpression e && allPlainColumns es

/-- `_projects_only_existing_columns`. -/
def projectsOnlyExistingColumns (args : Arguments) : Bool :=
  !args.values.isEmpty && args.values.all isPlainColumnExpression

/-! ### What syntax says nothing about -/

/-- A name, or a name with attributes. -/
def Node.isDotted : Node → Bool
  | .name _ => true
  | .attr value _ => value.isDotted
  | _ => false

mutual

/-- The parts of an expression that stand for whatever the code's names are bound to: names with
their attributes, what is called on one or is no method, and a `pl.lit` of a value that is not
written out. -/
def Node.leaves : Node → List Node
  | .constant _ => []
  | .name id => [.name id]
  | .attr value attr => if value.isDotted then [.attr value attr] else value.leaves
  | .call (.attr receiver attr) args keywords =>
    match polarsCallName (.attr receiver attr) with
    | some direct =>
      if direct = "lit" then
        if isLiteralLit args keywords then [] else [.call (.attr receiver attr) args keywords]
      else leavesAll args ++ leavesKeywords keywords
    | none =>
      if receiver.isDotted then [.call (.attr receiver attr) args keywords]
      else receiver.leaves ++ (leavesAll args ++ leavesKeywords keywords)
  | .call func args keywords => [.call func args keywords]
  | .sequence elts => leavesAll elts
  | .add left right => left.leaves ++ right.leaves
  | .signed operand => operand.leaves
  | .operator operands => leavesAll operands
  | .lambda children => [.lambda children]
  | .other children => [.other children]

def leavesAll : List Node → List Node
  | [] => []
  | e :: es => e.leaves ++ leavesAll es

def leavesKeywords : List (Option String × Node) → List Node
  | [] => []
  | (_, e) :: es => e.leaves ++ leavesKeywords es

end

end Haute.Cardinality
