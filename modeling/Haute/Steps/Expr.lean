import Haute.Data.PyExpr
import Haute.Json.Float
import Mathlib.Data.NNRat.Defs

/-!
# The step language's expressions

The expressions of the Polars steps, as the step validator leaves them, and their text:
`exprText` is `_expr_body`, `operandText` is `_operand`, and so down to the conditions and
the windows. A text is given by its Python tokens; the blanks in the templates, which
separate tokens and no more, are left out, and so is what the renderer refuses: a tree it
refuses has no text.

`exprTree` is the operator tree an expression means. It names no bracket and no precedence.
-/

namespace Haute.Steps

open Haute.Data.PyExpr

/-! ### The trees -/

/-- `BINARY_OPERATORS`. -/
inductive BinaryOperator where
  | add
  | sub
  | mul
  | div
  | floorDiv
  | mod
  | pow
  deriving DecidableEq

/-- The operator as Python spells it. -/
def BinaryOperator.python : BinaryOperator → BinOp
  | add => .add
  | sub => .sub
  | mul => .mul
  | div => .div
  | floorDiv => .floorDiv
  | mod => .mod
  | pow => .pow

/-- A finite number: a whole one, or a float by its sign and its magnitude. -/
inductive Number where
  | int (n : ℤ)
  | float (negative : Bool) (magnitude : ℚ≥0)

/-- A literal operand. -/
inductive Literal where
  | number (value : Number)
  | text (value : String)
  | boolean (value : Bool)
  | date (day : String)
  | null

/-- The functions without an argument. -/
inductive Function₀ where
  | abs
  | floor
  | ceil
  | sqrt
  | log
  | exp
  | upper
  | lower
  | strip
  | length
  | year
  | month
  | day
  | weekday
  | totalDays

/-- The functions of one argument, `divide` and the casts apart. -/
inductive Function₁ where
  | round
  | fillNull
  | offsetBy
  | toDate
  | toDatetime
  | tryToDate
  | tryToDatetime

/-- The functions of two arguments. -/
inductive Function₂ where
  | clip
  | replace
  | replaceAll
  | replaceRegex
  | slice
  | splitPart
  | extract

/-- The operators of a condition that take one text. -/
inductive TextOperator where
  | contains
  | startsWith
  | endsWith
  | matches

/-- A membership list, its values as they are written: numbers as the condition's number type
says, decimals as their exact texts with the scale that holds them. -/
inductive Members where
  | texts (values : List String)
  | booleans (values : List Bool)
  | dates (values : List String)
  | integers (values : List ℤ)
  | floats (values : List (Bool × ℚ≥0))
  | decimals (texts : List String) (scale : ℕ)

/-- All of the conditions, or any. -/
inductive MatchKind where
  | all
  | any

/-- An aggregate's call: a quantile, or a method without arguments. -/
inductive AggregateCall where
  | quantile (q : Number)
  | method (name : String)

/-- The aggregates that only a window has, the row number apart. -/
inductive PositionalKind where
  | cumSum
  | shift
  | rank (descending : Bool)
  | denseRank (descending : Bool)
  | forwardFill
  | backwardFill

/-- What a window runs over: nothing, some columns, or those in an order. -/
inductive Over where
  | none
  | columns (window : List String)
  | ordered (window order : List String) (descending : Bool)

mutual

/-- An operand. -/
inductive Operand where
  | column (name : String)
  | literal (value : Literal)
  | expr (e : Expr)
  | variable (name : String)
  | constant (name : String)

/-- An expression. -/
inductive Expr where
  | operand (o : Operand)
  | binary (left : Operand) (op : BinaryOperator) (right : Operand)
  | function₀ (fn : Function₀) (receiver : Operand)
  | function₁ (fn : Function₁) (receiver arg : Operand)
  | function₂ (fn : Function₂) (receiver first second : Operand)
  | divide (receiver divisor : Operand)
  | cast (strict : Bool) (receiver : Operand) (dtype : String)
  | conditional (branches : Branches) (otherwise : Operand)
  | concat (parts : Operands) (separator : String)
  | sumHorizontal (parts : Operands)
  | rowNumber (window : Over)
  | length (window : Over)
  | lengthWhere (kind : MatchKind) (conditions : Conditions) (window : Over)
  | aggregate (call : AggregateCall) (of : Operand) (window : Over)
  | aggregateWhere (call : AggregateCall) (of : Operand) (kind : MatchKind)
    (conditions : Conditions)
      (window : Over)
  | positional (kind : PositionalKind) (of : Operand) (window : Over)

/-- A condition on a column. -/
inductive Condition where
  | compare (column : String) (op : CmpOp) (value : Operand)
  | text (column : String) (op : TextOperator) (value : Operand)
  | isNull (column : String) (negated : Bool)
  | isIn (column : String) (negated : Bool) (members : Members)

/-- One condition or more, in order. -/
inductive Conditions where
  | one (condition : Condition)
  | snoc (before : Conditions) (condition : Condition)

/-- One branch or more, in order. -/
inductive Branches where
  | one (kind : MatchKind) (conditions : Conditions) (result : Operand)
  | snoc (before : Branches) (kind : MatchKind) (conditions : Conditions) (result : Operand)

/-- Some operands, in order. -/
inductive Operands where
  | nil
  | cons (o : Operand) (rest : Operands)

end

/-! ### When a nested formula is bracketed -/

/-- The side of its parent a formula is on. -/
inductive Side where
  | left
  | right
  deriving DecidableEq

/-- `_PRECEDENCE`. -/
def BinaryOperator.precedence : BinaryOperator → ℕ
  | add | sub => 1
  | mul | div | floorDiv | mod => 2
  | pow => 3

/-- `_needs_parentheses`. -/
def needsParentheses (child : BinaryOperator) : Option (BinaryOperator × Side) → Bool
  | none => true
  | some (parent, side) =>
    if child = .pow ∨ parent = .pow ∨ side = .right then true
    else decide (child.precedence < parent.precedence)

/-- The operator of a formula. -/
def Expr.binary? : Expr → Option BinaryOperator
  | binary _ op _ => some op
  | _ => none

/-! ### Texts -/

/-- `{f}({args})`. -/
def callText (f : List Token) (args : List (List Token)) : List Token :=
  f ++ .lpar :: commas args ++ [.rpar]

/-- `{e}.{path}`. -/
def pathText (e : List Token) (path : List String) : List Token :=
  path.foldl (fun e s => e ++ [.dot, .name s]) e

/-- `({e})`. -/
def parenText (e : List Token) : List Token := .lpar :: e ++ [.rpar]

/-- `[{items}]`. -/
def listText (items : List (List Token)) : List Token := .lbrack :: commas items ++ [.rbrack]

/-- `{k}={value}`. -/
def keywordText (k : String) (value : List Token) : List Token := .name k :: .assign :: value

/-- `repr` of a bool. -/
def boolText (b : Bool) : List Token := [.name (if b then "True" else "False")]

/-- `repr` of a list of strings. -/
def stringsText (ss : List String) : List Token := listText (ss.map fun s => [.str s])

/-- The `repr` of a float's magnitude, after its sign. -/
def signedText (negative : Bool) (magnitude : String) : List Token :=
  if negative then [.bin .sub, .num magnitude] else [.num magnitude]

/-- A number's `repr`, a float's without its exponent's plus. -/
def numberText : Number → List Token
  | .int n => signedText (n < 0) (toString n.natAbs)
  | .float negative magnitude =>
    signedText negative ((PyFloat.repr (.finite magnitude)).replace "e+" "e")

/-- `pl.lit({value})`. -/
def litText (value : List Token) : List Token := callText (pathText [.name "pl"] ["lit"]) [value]

/-- `pl.col({name!r})`. -/
def columnText (name : String) : List Token :=
  callText (pathText [.name "pl"] ["col"]) [[.str name]]

/-- `_literal`, rendered. -/
def literalText : Literal → List Token
  | .number value => numberText value
  | .text value => [.str value]
  | .boolean value => boolText value
  | .null => [.name "None"]
  | .date day => callText (pathText (litText [.str day]) ["str", "to_date"]) []

def Function₀.path : Function₀ → List String
  | abs => ["abs"]
  | floor => ["floor"]
  | ceil => ["ceil"]
  | sqrt => ["sqrt"]
  | log => ["log"]
  | exp => ["exp"]
  | upper => ["str", "to_uppercase"]
  | lower => ["str", "to_lowercase"]
  | strip => ["str", "strip_chars"]
  | length => ["str", "len_chars"]
  | year => ["dt", "year"]
  | month => ["dt", "month"]
  | day => ["dt", "day"]
  | weekday => ["dt", "weekday"]
  | totalDays => ["dt", "total_days"]

def Function₁.path : Function₁ → List String
  | round => ["round"]
  | fillNull => ["fill_null"]
  | offsetBy => ["dt", "offset_by"]
  | toDate | tryToDate => ["str", "to_date"]
  | toDatetime | tryToDatetime => ["str", "to_datetime"]

/-- Whether the template passes `strict=False`. -/
def Function₁.lenient : Function₁ → Bool
  | tryToDate | tryToDatetime => true
  | _ => false

def function₁Text (fn : Function₁) (receiver arg : List Token) : List Token :=
  callText (pathText receiver fn.path)
    (arg :: if fn.lenient then [keywordText "strict" (boolText false)] else [])

def function₂Text (fn : Function₂) (receiver first second : List Token) : List Token :=
  match fn with
  | .clip => callText (pathText receiver ["clip"]) [first, second]
  | .replace =>
    callText (pathText receiver ["str", "replace"])
      [first, second, keywordText "literal" (boolText true)]
  | .replaceAll =>
    callText (pathText receiver ["str", "replace_all"])
      [first, second, keywordText "literal" (boolText true)]
  | .replaceRegex => callText (pathText receiver ["str", "replace_all"]) [first, second]
  | .slice => callText (pathText receiver ["str", "slice"]) [first, second]
  | .splitPart =>
    callText (pathText (callText (pathText receiver ["str", "split"]) [first]) ["list", "get"])
      [second, keywordText "null_on_oob" (boolText true)]
  | .extract => callText (pathText receiver ["str", "extract"]) [first, second]

/-- `pl.when({0} != 0).then({r} / {0})`. -/
def divideText (receiver divisor : List Token) : List Token :=
  callText (pathText (callText (pathText [.name "pl"] ["when"]) [divisor ++ .cmp .ne :: [.num "0"]])
    ["then"])
    [receiver ++ .bin .div :: divisor]

/-- `{r}.cast(pl.{0})`, with `strict=False` where it is not strict. -/
def castText (strict : Bool) (receiver : List Token) (dtype : String) : List Token :=
  callText (pathText receiver ["cast"])
    (pathText [.name "pl"] [dtype] :: if strict then []
      else [keywordText "strict" (boolText false)])

/-- `_members`. -/
def membersText : Members → List Token
  | .texts values => stringsText values
  | .booleans values => listText (values.map boolText)
  | .dates values =>
    callText (pathText (callText (pathText (callText (pathText [.name "pl"] ["Series"])
      [stringsText values]) ["str", "to_date"]) []) ["implode"]) []
  | .integers values => listText (values.map fun n => numberText (.int n))
  | .floats values => listText (values.map fun x => signedText x.1 (PyFloat.repr (.finite x.2)))
  | .decimals texts scale =>
    callText (pathText (callText (pathText (callText (pathText [.name "pl"] ["Series"])
      [stringsText texts]) ["str", "to_decimal"]) [keywordText "scale" [.num (toString scale)]])
        ["implode"]) []

/-- A text operator's call. -/
def textConditionText (op : TextOperator) (column value : List Token) : List Token :=
  match op with
  | .contains => callText (pathText column ["str", "contains"])
    [value, keywordText "literal" (boolText true)]
  | .startsWith => callText (pathText column ["str", "starts_with"]) [value]
  | .endsWith => callText (pathText column ["str", "ends_with"]) [value]
  | .matches => callText (pathText column ["str", "contains"]) [value]

/-- The operator that joins conditions. -/
def MatchKind.python : MatchKind → BinOp
  | all => .bitAnd
  | any => .bitOr

/-- `_aggregate_call`. -/
def aggregateCallText (receiver : List Token) : AggregateCall → List Token
  | .quantile q =>
    callText (pathText receiver ["quantile"])
      [numberText q, keywordText "interpolation" [.str "linear"]]
  | .method name => callText (pathText receiver [name]) []

def positionalText (column : List Token) : PositionalKind → List Token
  | .cumSum => callText (pathText column ["cum_sum"]) []
  | .shift => callText (pathText column ["shift"]) [[.num "1"]]
  | .rank descending =>
    callText (pathText column ["rank"])
      [keywordText "method" [.str "ordinal"], keywordText "descending" (boolText descending)]
  | .denseRank descending =>
    callText (pathText column ["rank"])
      [keywordText "method" [.str "dense"], keywordText "descending" (boolText descending)]
  | .forwardFill => callText (pathText column ["fill_null"])
    [keywordText "strategy" [.str "forward"]]
  | .backwardFill => callText (pathText column ["fill_null"])
    [keywordText "strategy" [.str "backward"]]

/-- `.over(..)`, where there is something to run over. -/
def overText (base : List Token) : Over → List Token
  | .none => base
  | .columns window => callText (pathText base ["over"]) [stringsText window]
  | .ordered window order descending =>
    callText (pathText base ["over"])
      [stringsText window, keywordText "order_by" (stringsText order),
      keywordText "descending" (boolText descending)]

/-- `pl.int_range(1, pl.len() + 1)`. -/
def rowNumberText : List Token :=
  callText (pathText [.name "pl"] ["int_range"])
    [[.num "1"], callText (pathText [.name "pl"] ["len"]) [] ++ .bin .add :: [.num "1"]]

mutual

/-- `_operand`: in expression position (`expr`) or in value position, inside the operator and
on the side of `parent`. -/
def operandText (expr : Bool) (parent : Option (BinaryOperator × Side)) : Operand → List Token
  | .column name => columnText name
  | .literal (.date day) => literalText (.date day)
  | .literal .null => litText (literalText .null)
  | .literal value => if expr then litText (literalText value) else literalText value
  | .expr e =>
    match e.binary? with
    | none => exprText e
    | some op => if needsParentheses op parent then parenText (exprText e) else exprText e
  | .variable name => if expr then litText [.name name] else [.name name]
  | .constant name =>
    let read := pathText [.name "global_constants"] [name]
    if expr then litText read else read

/-- `_expr_body`. -/
def exprText : Expr → List Token
  | .operand o => operandText true none o
  | .binary left op right =>
    operandText true (some (op, .left)) left ++ .bin op.python :: operandText false
      (some (op, .right)) right
  | .function₀ fn receiver => callText (pathText (operandText true none receiver) fn.path) []
  | .function₁ fn receiver arg =>
    function₁Text fn (operandText true none receiver) (operandText false none arg)
  | .function₂ fn receiver first second =>
    function₂Text fn (operandText true none receiver) (operandText false none first)
      (operandText false none second)
  | .divide receiver divisor => divideText (operandText true none receiver)
    (operandText false none divisor)
  | .cast strict receiver dtype => castText strict (operandText true none receiver) dtype
  | .conditional branches otherwise =>
    callText (pathText (branchesText branches) ["otherwise"]) [operandText true none otherwise]
  | .concat parts separator =>
    callText (pathText [.name "pl"] ["concat_str"])
      [listText (operandTexts parts), keywordText "separator" [.str separator]]
  | .sumHorizontal parts => callText (pathText [.name "pl"] ["sum_horizontal"]) (operandTexts parts)
  | .rowNumber window => overText rowNumberText window
  | .length window => overText (callText (pathText [.name "pl"] ["len"]) []) window
  | .lengthWhere kind conditions window =>
    overText (callText (pathText (parenText (conditionsText kind conditions)) ["sum"]) []) window
  | .aggregate call value window =>
    overText (aggregateCallText (operandText true none value) call) window
  | .aggregateWhere call value kind conditions window =>
    overText (aggregateCallText
      (callText (pathText (operandText true none value) ["filter"])
        [conditionsText kind conditions]) call) window
  | .positional kind value window =>
    overText (positionalText (operandText true none value) kind) window

/-- `_condition`. -/
def conditionText : Condition → List Token
  | .compare column op value => columnText column ++ .cmp op :: operandText false none value
  | .text column op value => textConditionText op (columnText column) (operandText false none value)
  | .isNull column negated =>
    callText (pathText (columnText column) [if negated then "is_not_null" else "is_null"]) []
  | .isIn column negated members =>
    (if negated then [.tilde] else []) ++ callText (pathText (columnText column) ["is_in"])
      [membersText members]

/-- `_conditions`: each in brackets, joined. -/
def conditionsText (kind : MatchKind) : Conditions → List Token
  | .one condition => parenText (conditionText condition)
  | .snoc before condition =>
    conditionsText kind before ++ .bin kind.python :: parenText (conditionText condition)

/-- The chain of `pl.when(..).then(..)`. -/
def branchesText : Branches → List Token
  | .one kind conditions result =>
    callText (pathText (callText (pathText [.name "pl"] ["when"]) [conditionsText kind conditions])
      ["then"])
      [operandText true none result]
  | .snoc before kind conditions result =>
    callText (pathText
      (callText (pathText (branchesText before) ["when"]) [conditionsText kind conditions])
      ["then"]) [operandText true none result]

def operandTexts : Operands → List (List Token)
  | .nil => []
  | .cons o rest => operandText true none o :: operandTexts rest

end

/-! ### Operator trees -/

/-- The name `e.path`. -/
def pathTree (e : Py) (path : List String) : Py := path.foldl .attr e

/-- A call, its arguments by position. -/
def callTree (f : Py) (args : List Py) : Py := .call f (args.map fun e => (none, e))

def boolTree (b : Bool) : Py := .name (if b then "True" else "False")

def stringsTree (ss : List String) : Py := .list (ss.map .str)

def signedTree (negative : Bool) (magnitude : String) : Py :=
  if negative then .unary .minus (.num magnitude) else .num magnitude

def numberTree : Number → Py
  | .int n => signedTree (n < 0) (toString n.natAbs)
  | .float negative magnitude =>
    signedTree negative ((PyFloat.repr (.finite magnitude)).replace "e+" "e")

def pl (path : List String) : Py := pathTree (.name "pl") path

def litTree (value : Py) : Py := callTree (pl ["lit"]) [value]

def columnTree (name : String) : Py := callTree (pl ["col"]) [.str name]

def literalTree : Literal → Py
  | .number value => numberTree value
  | .text value => .str value
  | .boolean value => boolTree value
  | .null => .name "None"
  | .date day => callTree (pathTree (litTree (.str day)) ["str", "to_date"]) []

def function₁Tree (fn : Function₁) (receiver arg : Py) : Py :=
  .call (pathTree receiver fn.path)
    ((none, arg) :: if fn.lenient then [(some "strict", boolTree false)] else [])

def function₂Tree (fn : Function₂) (receiver first second : Py) : Py :=
  match fn with
  | .clip => callTree (pathTree receiver ["clip"]) [first, second]
  | .replace =>
    .call (pathTree receiver ["str", "replace"])
      [(none, first), (none, second), (some "literal", boolTree true)]
  | .replaceAll =>
    .call (pathTree receiver ["str", "replace_all"])
      [(none, first), (none, second), (some "literal", boolTree true)]
  | .replaceRegex => callTree (pathTree receiver ["str", "replace_all"]) [first, second]
  | .slice => callTree (pathTree receiver ["str", "slice"]) [first, second]
  | .splitPart =>
    .call (pathTree (callTree (pathTree receiver ["str", "split"]) [first]) ["list", "get"])
      [(none, second), (some "null_on_oob", boolTree true)]
  | .extract => callTree (pathTree receiver ["str", "extract"]) [first, second]

def divideTree (receiver divisor : Py) : Py :=
  callTree (pathTree (callTree (pl ["when"]) [.compare divisor [(.ne, .num "0")]]) ["then"])
    [.binary .div receiver divisor]

def castTree (strict : Bool) (receiver : Py) (dtype : String) : Py :=
  .call (pathTree receiver ["cast"])
    ((none, pl [dtype]) :: if strict then [] else [(some "strict", boolTree false)])

def membersTree : Members → Py
  | .texts values => stringsTree values
  | .booleans values => .list (values.map boolTree)
  | .dates values =>
    callTree (pathTree (callTree (pathTree (callTree (pl ["Series"]) [stringsTree values])
      ["str", "to_date"]) []) ["implode"]) []
  | .integers values => .list (values.map fun n => numberTree (.int n))
  | .floats values => .list (values.map fun x => signedTree x.1 (PyFloat.repr (.finite x.2)))
  | .decimals texts scale =>
    callTree (pathTree (.call (pathTree (callTree (pl ["Series"]) [stringsTree texts])
      ["str", "to_decimal"]) [(some "scale", .num (toString scale))]) ["implode"]) []

def textConditionTree (op : TextOperator) (column value : Py) : Py :=
  match op with
  | .contains => .call (pathTree column ["str", "contains"])
    [(none, value), (some "literal", boolTree true)]
  | .startsWith => callTree (pathTree column ["str", "starts_with"]) [value]
  | .endsWith => callTree (pathTree column ["str", "ends_with"]) [value]
  | .matches => callTree (pathTree column ["str", "contains"]) [value]

def aggregateCallTree (receiver : Py) : AggregateCall → Py
  | .quantile q =>
    .call (pathTree receiver ["quantile"])
      [(none, numberTree q), (some "interpolation", .str "linear")]
  | .method name => callTree (pathTree receiver [name]) []

def positionalTree (column : Py) : PositionalKind → Py
  | .cumSum => callTree (pathTree column ["cum_sum"]) []
  | .shift => callTree (pathTree column ["shift"]) [.num "1"]
  | .rank descending =>
    .call (pathTree column ["rank"])
      [(some "method", .str "ordinal"), (some "descending", boolTree descending)]
  | .denseRank descending =>
    .call (pathTree column ["rank"])
      [(some "method", .str "dense"), (some "descending", boolTree descending)]
  | .forwardFill => .call (pathTree column ["fill_null"]) [(some "strategy", .str "forward")]
  | .backwardFill => .call (pathTree column ["fill_null"]) [(some "strategy", .str "backward")]

def overTree (base : Py) : Over → Py
  | .none => base
  | .columns window => callTree (pathTree base ["over"]) [stringsTree window]
  | .ordered window order descending =>
    .call (pathTree base ["over"])
      [(none, stringsTree window), (some "order_by", stringsTree order),
      (some "descending", boolTree descending)]

def rowNumberTree : Py :=
  callTree (pl ["int_range"]) [.num "1", .binary .add (callTree (pl ["len"]) []) (.num "1")]

mutual

/-- An operand's tree, in expression position or in value position. -/
def operandTree (expr : Bool) : Operand → Py
  | .column name => columnTree name
  | .literal (.date day) => literalTree (.date day)
  | .literal .null => litTree (literalTree .null)
  | .literal value => if expr then litTree (literalTree value) else literalTree value
  | .expr e => exprTree e
  | .variable name => if expr then litTree (.name name) else .name name
  | .constant name =>
    let read := pathTree (.name "global_constants") [name]
    if expr then litTree read else read

/-- The operator tree of an expression. -/
def exprTree : Expr → Py
  | .operand o => operandTree true o
  | .binary left op right => .binary op.python (operandTree true left) (operandTree false right)
  | .function₀ fn receiver => callTree (pathTree (operandTree true receiver) fn.path) []
  | .function₁ fn receiver arg => function₁Tree fn (operandTree true receiver)
    (operandTree false arg)
  | .function₂ fn receiver first second =>
    function₂Tree fn (operandTree true receiver) (operandTree false first)
      (operandTree false second)
  | .divide receiver divisor => divideTree (operandTree true receiver) (operandTree false divisor)
  | .cast strict receiver dtype => castTree strict (operandTree true receiver) dtype
  | .conditional branches otherwise =>
    callTree (pathTree (branchesTree branches) ["otherwise"]) [operandTree true otherwise]
  | .concat parts separator =>
    .call (pl ["concat_str"])
      [(none, .list (operandTrees parts)), (some "separator", .str separator)]
  | .sumHorizontal parts => callTree (pl ["sum_horizontal"]) (operandTrees parts)
  | .rowNumber window => overTree rowNumberTree window
  | .length window => overTree (callTree (pl ["len"]) []) window
  | .lengthWhere kind conditions window =>
    overTree (callTree (pathTree (conditionsTree kind conditions) ["sum"]) []) window
  | .aggregate call value window =>
    overTree (aggregateCallTree (operandTree true value) call) window
  | .aggregateWhere call value kind conditions window =>
    overTree (aggregateCallTree
      (callTree (pathTree (operandTree true value) ["filter"]) [conditionsTree kind conditions])
        call) window
  | .positional kind value window => overTree (positionalTree (operandTree true value) kind) window

/-- A condition's tree. -/
def conditionTree : Condition → Py
  | .compare column op value => .compare (columnTree column) [(op, operandTree false value)]
  | .text column op value => textConditionTree op (columnTree column) (operandTree false value)
  | .isNull column negated =>
    callTree (pathTree (columnTree column) [if negated then "is_not_null" else "is_null"]) []
  | .isIn column negated members =>
    let held := callTree (pathTree (columnTree column) ["is_in"]) [membersTree members]
    if negated then .unary .invert held else held

/-- Conditions joined one after the other. -/
def conditionsTree (kind : MatchKind) : Conditions → Py
  | .one condition => conditionTree condition
  | .snoc before condition =>
    .binary kind.python (conditionsTree kind before) (conditionTree condition)

def branchesTree : Branches → Py
  | .one kind conditions result =>
    callTree (pathTree (callTree (pl ["when"]) [conditionsTree kind conditions]) ["then"])
      [operandTree true result]
  | .snoc before kind conditions result =>
    callTree (pathTree
      (callTree (pathTree (branchesTree before) ["when"]) [conditionsTree kind conditions])
      ["then"]) [operandTree true result]

def operandTrees : Operands → List Py
  | .nil => []
  | .cons o rest => operandTree true o :: operandTrees rest

end

end Haute.Steps
