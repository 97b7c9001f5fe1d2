import Haute.Cardinality.Program

/-!
# Running a program

Polars is a parameter: the heights of its frames, what each method may return, and how many values
an expression gives over a frame. `Documented` is what its documentation says of these, call by
call of an expression and method by method of a frame, a join's in terms of the keys of its two
sides. A run binds names to objects as Python does, so an operand is whatever its name is bound to
when the statement runs. The frames a run reads or makes are listed, those that the arguments of a
call read or make among them.

`Condition` restricts the statements and calls a run may take; `Condition.any` restricts none.
-/

namespace Haute.Cardinality

/-- What a name is bound to: a frame, or anything else. -/
inductive Object (F O : Type) where
  | frame (f : F)
  | other (o : O)

/-- What the names of the running code are bound to. -/
abbrev Env (F O : Type) := String → Option (Object F O)

/-- Polars, as far as row counts go. -/
structure Polars (F O : Type) where
  height : F → ℕ
  /-- The number of columns. -/
  width : F → ℕ
  /-- An expression gives so many values over a frame. -/
  length : Env F O → F → Node → ℕ → Prop
  /-- An argument of `select` or `with_columns` gives a column of so many values. -/
  output : Env F O → F → Node → ℕ → Prop
  /-- An argument is a column of the frame, and not a value that is repeated over it. -/
  column : Env F O → F → Node → Prop
  /-- The frames that evaluating the arguments of a call reads or makes. -/
  reads : Env F O → Arguments → List F → Prop
  plain : PlainMethod → Env F O → Arguments → F → F → Prop
  select : Env F O → Arguments → F → F → Prop
  withColumns : Env F O → Arguments → F → F → Prop
  fillNull : Env F O → Arguments → F → F → Prop
  groupAgg : Env F O → Arguments → Arguments → F → F → Prop
  explode : F → F → Prop
  unpivot : List String → F → F → Prop
  join : JoinHow → JoinValidation → F → F → F → Prop
  joinAsof : F → F → F → Prop

/-! ### Expressions -/

/-- The number a bound of `pl.int_range` is over a frame of so many rows, where it is put together
from numbers and `pl.len()`. -/
def boundValue (rows : ℕ) : Node → Option ℕ
  | .constant (.int i) => if i < 0 then none else some i.toNat
  | .call func [] [] => if polarsCallName func = some "len" then some rows else none
  | .add left right => do
    let l ← boundValue rows left
    let r ← boundValue rows right
    return l + r
  | _ => none

/-- The values of a `pl.int_range` between bounds that are such numbers. -/
def rangeLength (rows : ℕ) : List Node → Option ℕ
  | [stop] => boundValue rows stop
  | [start, stop] => do
    let s ← boundValue rows start
    let e ← boundValue rows stop
    return e - s
  | _ => none

/-- Strings and lists, which have no method that gives an expression. -/
def Node.isText : Node → Bool
  | .constant (.str _) | .sequence _ => true
  | _ => false

variable {F O : Type}

/-- What is documented of the values an expression gives over a frame: an operator repeats the
shorter operand, a constructor and a method give no more than the frame has rows or what they are
given, but for those that the operation registry lists. -/
structure Polars.Broadcasts (P : Polars F O) : Prop where
  constant : ∀ env f c n, P.length env f (.constant c) n → n ≤ max (P.height f) 1
  sequence : ∀ env f es n, P.length env f (.sequence es) n →
    n ≤ max (P.height f) 1 ∨ ∃ e ∈ es, P.length env f e n
  add : ∀ env f l r n, P.length env f (.add l r) n → P.length env f l n ∨ P.length env f r n
  signed : ∀ env f e n, P.length env f (.signed e) n → P.length env f e n
  operator : ∀ env f es n, P.length env f (.operator es) n → ∃ e ∈ es, P.length env f e n
  /-- A namespace of an expression. -/
  accessor : ∀ env f e a n, e.isDotted = false → P.length env f (.attr e a) n →
    P.length env f e n
  col : ∀ env f func args keywords n, polarsCallName func = some "col" →
    P.length env f (.call func args keywords) n → n = P.height f
  lit : ∀ env f func args keywords n, polarsCallName func = some "lit" →
    isLiteralLit args keywords = true → P.length env f (.call func args keywords) n → n = 1
  intRange : ∀ env f func args n m, polarsCallName func = some "int_range" →
    rangeLength (P.height f) args = some m → P.length env f (.call func args []) n → n = m
  constructor : ∀ env f func args keywords direct n, polarsCallName func = some direct →
    direct ∈ rowBoundSafePolarsCalls → direct ≠ "lit" →
      P.length env f (.call func args keywords) n → n ≤ max (P.height f) 1 ∨
        ∃ e ∈ (Arguments.mk args keywords).values, P.length env f e n
  method : ∀ env f receiver m args keywords n, receiver.isDotted = false →
    m ∉ rowExpandingExpressionMethods →
      (m = "map_elements" ∨ m = "rolling_map" → args.any isCallback = false) →
        P.length env f (.call (.attr receiver m) args keywords) n → n ≤ max (P.height f) 1 ∨
          P.length env f receiver n ∨
            ∃ e ∈ (Arguments.mk args keywords).values, P.length env f e n
  /-- Renaming keeps the values, and is a method of expressions. -/
  renamed : ∀ env f receiver args keywords n,
    P.length env f (.call (.attr receiver "alias") args keywords) n →
      receiver.isText = false ∧ P.length env f receiver n
  /-- A string names columns where an output is asked for. -/
  text : ∀ env f s n, P.output env f (.constant (.str s)) n → n = P.height f
  listed : ∀ env f es n, P.output env f (.sequence es) n → ∃ e ∈ es, P.output env f e n
  expression : ∀ env f e n, e.isText = false → P.output env f e n → P.length env f e n

/-- What is documented of heights. The keys of a join are numbered by their values. -/
structure Polars.Documented (P : Polars F O) : Prop extends P.Broadcasts where
  plain : ∀ m env args f g, P.plain m env args f g → P.height g ≤ P.height f
  /-- A selection is as high as its columns. -/
  select : ∀ env args f g, P.select env args f g →
    P.height g = 0 ∨ ∃ e ∈ args.values, P.output env f e (P.height g)
  /-- Beside a column of the frame there are only such columns and values that are repeated. -/
  selectColumn : ∀ env args f g, P.select env args f g → (∃ e ∈ args.values, P.column env f e) →
    P.height g = P.height f
  /-- The columns added to a frame that has some are held to its height. -/
  withColumns : ∀ env args f g, P.withColumns env args f g → 0 < P.width f →
    P.height g = P.height f
  addFirst : ∀ env args f g, P.withColumns env args f g →
    P.height g = P.height f ∨ ∃ e ∈ args.values, P.output env f e (P.height g)
  /-- What fills nulls is one value, or a column of the frame. -/
  fillNull : ∀ env args f g, P.fillNull env args f g →
    (∀ e ∈ args.values, ∀ n, P.length env f e n → n ≤ max (P.height f) 1) → P.height g ≤ P.height f
  groupAgg : ∀ env keys args f g, P.groupAgg env keys args f g → P.height g ≤ P.height f
  unpivot : ∀ on f g, P.unpivot on f g → P.height g = P.height f * on.length
  join : ∀ how v f g h, P.join how v f g h → ∃ left right : List (Option ℕ),
    left.length = P.height f ∧ right.length = P.height g ∧ v.Holds left right ∧
      P.height h = joinRows left right how
  /-- Each left row is matched with one right row at most. -/
  joinAsof : ∀ f g h, P.joinAsof f g h → P.height h = P.height f

/-! ### Calls -/

/-- Which statements and calls a run may take, and where. -/
structure Condition (F O : Type) where
  statement : Env F O → Statement → Prop
  call : Env F O → FrameCall → F → Prop

def Condition.any : Condition F O := ⟨fun _ _ => True, fun _ _ _ => True⟩

/-- The right operand of an as-of join: what it returns, and the frames on the way. -/
inductive OperandRun (P : Polars F O) (env : Env F O) : F → List OperandCall → F →
    List F → Prop where
  | done {f : F} : OperandRun P env f [] f [f]
  | plain {m : PlainMethod} {args : Arguments} {rest : List OperandCall} {f g h : F}
    {touched seen : List F}
      (hargs : P.reads env args touched) (hcall : P.plain m env args f g)
      (hrest : OperandRun P env g rest h seen) :
      OperandRun P env f (.plain m args :: rest) h (f :: (touched ++ seen))
  | select {args : Arguments} {rest : List OperandCall} {f g h : F} {touched seen : List F}
      (hargs : P.reads env args touched) (hcall : P.select env args f g)
      (hrest : OperandRun P env g rest h seen) :
      OperandRun P env f (.select args :: rest) h (f :: (touched ++ seen))
  | withColumns {args : Arguments} {rest : List OperandCall} {f g h : F} {touched seen : List F}
      (hargs : P.reads env args touched) (hcall : P.withColumns env args f g)
      (hrest : OperandRun P env g rest h seen) :
      OperandRun P env f (.withColumns args :: rest) h (f :: (touched ++ seen))

/-- One call: what it returns, and the frames it reads beside its own and its arguments'. -/
inductive CallRun (P : Polars F O) (env : Env F O) : FrameCall → F → F → List F → Prop where
  | plain {m : PlainMethod} {args : Arguments} {f g : F} (h : P.plain m env args f g) :
      CallRun P env (.plain m args) f g []
  | select {method : String} {args : Arguments} {f g : F} (h : P.select env args f g) :
      CallRun P env (.select method args) f g []
  | withColumns {args : Arguments} {f g : F} (h : P.withColumns env args f g) :
      CallRun P env (.withColumns args) f g []
  | fillNull {args : Arguments} {f g : F} (h : P.fillNull env args f g) :
      CallRun P env (.fillNull args) f g []
  | explode {f g : F} (h : P.explode f g) : CallRun P env .explode f g []
  | unpivot {on index : List String} {variableName valueName : String} {f g : F}
      (h : P.unpivot on.dedup f g) :
      CallRun P env (.unpivot (some on) index variableName valueName) f g []
  | join {right how suffix : String} {validate : Option String} {keys : JoinKeys} {j : JoinHow}
      {v : JoinValidation} {f g r : F} (hright : env right = some (.frame r))
      (hhow : JoinHow.ofText how = some j)
      (hvalidate : (validate.map normaliseJoinValidation).getD (some .manyToMany) = some v)
      (h : P.join j v f r g) : CallRun P env (.join right how suffix validate keys) f g [r]
  | joinAsof {right : String} {calls : List OperandCall} {f g r r' : F} {seen : List F}
      (hright : env right = some (.frame r)) (hoperand : OperandRun P env r calls r' seen)
      (h : P.joinAsof f r' g) : CallRun P env (.joinAsof right calls) f g seen

/-- A chain from a frame: what it returns, and the frames it reads or makes. -/
inductive CallsRun (P : Polars F O) (C : Condition F O) (env : Env F O) :
    F → List FrameCall → F → List F → Prop where
  | done {f : F} : CallsRun P C env f [] f [f]
  | grouped {keys args : Arguments} {rest : List FrameCall} {f g h : F}
    {touched touched' seen : List F}
      (hkeys : C.call env (.groupBy keys) f) (hok : C.call env (.agg args) f)
      (hreads : P.reads env keys touched) (hargs : P.reads env args touched')
      (hcall : P.groupAgg env keys args f g) (hrest : CallsRun P C env g rest h seen) :
      CallsRun P C env f (.groupBy keys :: .agg args :: rest) h (f :: (touched ++ touched' ++ seen))
  | called {call : FrameCall} {rest : List FrameCall} {f g h : F} {touched read seen : List F}
      (hok : C.call env call f) (hargs : P.reads env call.arguments touched)
      (hcall : CallRun P env call f g read) (hrest : CallsRun P C env g rest h seen) :
      CallsRun P C env f (call :: rest) h (f :: (touched ++ read ++ seen))

/-- Binding `df`. -/
def Env.assign (env : Env F O) (f : F) : Env F O :=
  fun name => if name = "df" then some (.frame f) else env name

@[simp] theorem Env.assign_df (env : Env F O) (f : F) : env.assign f "df" = some (.frame f) :=
  if_pos rfl

/-- One statement: the names after it, and the frames its chain reads or makes. An import and a
helper bind their names to anything. -/
inductive StatementRun (P : Polars F O) (C : Condition F O) :
    Env F O → Statement → Env F O → List F → Prop where
  | importing {names : List String} {env env' : Env F O}
      (hother : ∀ name, name ∉ names → env' name = env name) :
      StatementRun P C env (.importing names) env' []
  | passing {env : Env F O} : StatementRun P C env .passing env []
  | helper {target : String} {value : HelperValue} {env env' : Env F O}
      (hother : ∀ name, name ≠ target → env' name = env name) :
      StatementRun P C env (.helper target value) env' []
  | naming {source : String} {env : Env F O} {f : F} (hsource : env source = some (.frame f)) :
      StatementRun P C env (.naming source) (env.assign f) []
  | chain {root : String} {calls : List FrameCall} {env : Env F O} {f g : F} {seen : List F}
      (hroot : env root = some (.frame f)) (hcalls : CallsRun P C env f calls g seen) :
      StatementRun P C env (.chain root calls) (env.assign g) seen

/-- A run of the code: the names at its end, and the frames read or made. -/
inductive ProgramRun (P : Polars F O) (C : Condition F O) :
    Env F O → List Statement → Env F O → List F → Prop where
  | done {env : Env F O} : ProgramRun P C env [] env []
  | next {statement : Statement} {rest : List Statement} {env env' env'' : Env F O}
      {seen seen' : List F} (hok : C.statement env statement)
      (hstatement : StatementRun P C env statement env' seen)
      (hrest : ProgramRun P C env' rest env'' seen') :
      ProgramRun P C env (statement :: rest) env'' (seen ++ seen')

/-- The names a node's code is called with: its inputs, no longer than their bounds, and a sole
input under the name `df` too, where `df` is bound at all. -/
structure Called (P : Polars F O) (inputs : List (String × ℕ)) (env : Env F O) : Prop where
  bound : ∀ name rows, Assoc.get? inputs name = some rows →
    ∃ f, env name = some (.frame f) ∧ P.height f ≤ rows
  implicit : ∀ name rows, inputs = [(name, rows)] → ∀ f, env "df" = some (.frame f) →
    env name = some (.frame f)

/-! ### Where the bounds hold -/

/-- Evaluating the arguments reads and makes no frame. -/
def FrameFree (P : Polars F O) (env : Env F O) (args : Arguments) : Prop :=
  ∀ touched, P.reads env args touched → touched = []

/-- What syntax says nothing about gives no more values than the frame has rows, or one. -/
def Modest (P : Polars F O) (env : Env F O) (f : F) (args : Arguments) : Prop :=
  ∀ e ∈ args.values, ∀ leaf ∈ e.leaves, ∀ n, P.length env f leaf n → n ≤ max (P.height f) 1

/-- Every operand still is the input it is taken for: nothing the code did before has bound an
input's name again, a right operand's or a root's. No argument reads or makes a frame. What syntax
says nothing about is held to the frame's height, by a column beside it or the columns it is added
to, or is no longer; and what fills nulls has no unbounded row effect. -/
def operandsKept (P : Polars F O) (inputs : List String) (env₀ : Env F O) : Condition F O where
  statement env
    | .importing names => "df" ∉ names
    | .naming source => source ∈ inputs → env source = env₀ source
    | .chain root _ => root ∈ inputs → root ≠ "df" → env root = env₀ root
    | .helper _ _ | .passing | .other _ => True
  call env call f := FrameFree P env call.arguments ∧
    match call with
    | .join right _ _ _ _ => env right = env₀ right
    | .joinAsof right calls => env right = env₀ right ∧ ∀ c ∈ calls, FrameFree P env c.arguments
    | .select _ args => (∃ e ∈ args.values, P.column env f e) ∨ Modest P env f args
    | .withColumns args => 0 < P.width f ∨ Modest P env f args
    | .fillNull args =>
      args.values.any expressionHasUnboundedRowEffect = false ∧ Modest P env f args
    | _ => True

end Haute.Cardinality
