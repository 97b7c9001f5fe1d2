import Haute.Steps.Expr

/-!
# A rendered expression reads back as its tree

Every text but a formula's is a primary, so it stands wherever an operand may; a literal in
value position may be a signed number, which is an operand of any operator but the left one of
`**`, where no such literal stands. A formula of `**` is a factor, and one of another operator
a chain of that operator's level, which is what its text may be continued as: by its parent,
unbracketed, where the parent's operator is of the same level or a looser one and the formula
is on its left. Those are the cases in which `needsParentheses` leaves the brackets out, and
`operandText_reads` and `exprText_reads` carry the argument through the trees.
-/

namespace Haute.Steps

open Haute.Data.PyExpr

/-! ### The templates -/

section Templates

variable {e f ts us vs : List Token} {te tf t u v : Py}

/-- An attribute path reads back as a primary. -/
theorem prim_path (h : Prim e te) (path : List String) :
    Prim (pathText e path) (pathTree te path) := by
  induction path generalizing e te with
  | nil => exact h
  | cons s path ih => exact ih (h.attr s)

theorem prim_pl (path : List String) : Prim (pathText [.name "pl"] path) (pl path) :=
  prim_path (.name "pl") path

/-- A call with arguments by position. -/
theorem prim_call (h : Prim f tf) {texts : List (List Token)} {trees : List Py}
    (hargs : List.Forall₂ Val texts trees) : Prim (callText f texts) (callTree tf trees) := by
  refine h.call ?_
  rw [List.forall₂_map_right_iff]
  exact hargs.imp fun _ _ hval => .one hval

theorem prim_call₀ (h : Prim f tf) : Prim (callText f []) (callTree tf []) := prim_call h .nil

/-- A call with one argument reads back as a primary. -/
theorem prim_call₁ (h : Prim f tf) (ht : Val ts t) : Prim (callText f [ts]) (callTree tf [t]) :=
  prim_call h (.cons ht .nil)

/-- A call with two arguments reads back as a primary. -/
theorem prim_call₂ (h : Prim f tf) (ht : Val ts t) (hu : Val us u) :
    Prim (callText f [ts, us]) (callTree tf [t, u]) :=
  prim_call h (.cons ht (.cons hu .nil))

/-- A truth value reads back as an argument. -/
theorem val_bool (b : Bool) : Val (boolText b) (boolTree b) := by
  cases b <;> exact (Prim.name _).val

/-- A list of strings reads back as an argument. -/
theorem val_strings (ss : List String) : Val (stringsText ss) (stringsTree ss) := by
  refine (Prim.list ?_).val
  rw [List.forall₂_map_left_iff, List.forall₂_map_right_iff]
  exact List.forall₂_same.mpr fun s _ => (Prim.str s).val

/-- A signed magnitude reads back as a factor. -/
theorem fac_signed (negative : Bool) (magnitude : String) :
    Fac (signedText negative magnitude) (signedTree negative magnitude) := by
  cases negative
  · exact (Prim.num magnitude).fac
  · exact (Prim.num magnitude).fac.unary rfl

/-- A number reads back as a factor. -/
theorem fac_number : ∀ n : Number, Fac (numberText n) (numberTree n)
  | .int _ => fac_signed _ _
  | .float _ _ => fac_signed _ _

/-- A literal's call reads back as a primary. -/
theorem prim_lit (h : Val ts t) : Prim (litText ts) (litTree t) := prim_call₁ (prim_pl ["lit"]) h

/-- A column reads back as a primary. -/
theorem prim_column (name : String) : Prim (columnText name) (columnTree name) :=
  prim_call₁ (prim_pl ["col"]) (Prim.str name).val

/-- A literal reads back as a factor. -/
theorem fac_literal : ∀ l : Literal, Fac (literalText l) (literalTree l)
  | .number n => fac_number n
  | .text s => (Prim.str s).fac
  | .boolean b => by cases b <;> exact (Prim.name _).fac
  | .null => (Prim.name "None").fac
  | .date day => (prim_call₀ (prim_path (prim_lit (Prim.str day).val) ["str", "to_date"])).fac

/-- A function of one argument reads back as a primary. -/
theorem prim_function₁ (fn : Function₁) (h : Prim e te) (ht : Val ts t) :
    Prim (function₁Text fn e ts) (function₁Tree fn te t) := by
  unfold function₁Text function₁Tree
  cases fn.lenient with
  | false => exact (prim_path h fn.path).call (.cons (.one ht) .nil)
  | true =>
    exact (prim_path h fn.path).call (.cons (.one ht) (.cons (.keyword _ (val_bool false)) .nil))

/-- A function of two arguments reads back as a primary. -/
theorem prim_function₂ (fn : Function₂) (h : Prim e te) (ht : Val ts t) (hu : Val us u) :
    Prim (function₂Text fn e ts us) (function₂Tree fn te t u) := by
  have hflag : ∀ k, Arg (keywordText k (boolText true)) (some k, boolTree true) :=
    fun k => .keyword k (val_bool true)
  cases fn with
  | clip => exact prim_call₂ (prim_path h _) ht hu
  | replace => exact (prim_path h _).call (.cons (.one ht) (.cons (.one hu) (.cons (hflag _) .nil)))
  | replaceAll =>
    exact (prim_path h _).call (.cons (.one ht) (.cons (.one hu) (.cons (hflag _) .nil)))
  | replaceRegex => exact prim_call₂ (prim_path h _) ht hu
  | slice => exact prim_call₂ (prim_path h _) ht hu
  | splitPart =>
    exact (prim_path (prim_call₁ (prim_path h _) ht) _).call
      (.cons (.one hu) (.cons (hflag _) .nil))
  | extract => exact prim_call₂ (prim_path h _) ht hu

/-- A guarded division reads back as a primary. -/
theorem prim_divide (h : Prim e te) (ht : Fac ts t) : Prim (divideText e ts) (divideTree te t) := by
  have hwhen : Val (ts ++ .cmp .ne :: [.num "0"]) (.compare t [(.ne, .num "0")]) :=
    Val.compare ht (Prim.num "0").fac
  have hquotient : Lev BinOp.div.level (e ++ .bin .div :: ts) (.binary .div te t) :=
    Lev.binary (by decide) h.fac.lev4 ht
  have hthen : Lev 1 (e ++ .bin .div :: ts) (.binary .div te t) :=
    hquotient.mono (by decide) (by decide) (by decide)
  exact prim_call₁ (prim_path (prim_call₁ (prim_pl ["when"]) hwhen) ["then"]) hthen.val

/-- A cast reads back as a primary. -/
theorem prim_cast (strict : Bool) (h : Prim e te) (dtype : String) :
    Prim (castText strict e dtype) (castTree strict te dtype) := by
  have hdtype : Arg (pathText [.name "pl"] [dtype]) (none, pl [dtype]) := .one (prim_pl [dtype]).val
  cases strict with
  | false => exact (prim_path h _).call (.cons hdtype (.cons (.keyword _ (val_bool false)) .nil))
  | true => exact (prim_path h _).call (.cons hdtype .nil)

/-- The members of a list read back as an argument. -/
theorem val_members : ∀ members : Members, Val (membersText members) (membersTree members)
  | .texts values => val_strings values
  | .booleans values => by
    refine (Prim.list ?_).val
    rw [List.forall₂_map_left_iff, List.forall₂_map_right_iff]
    exact List.forall₂_same.mpr fun b _ => val_bool b
  | .dates values =>
    (prim_call₀
      (prim_path
      (prim_call₀ (prim_path (prim_call₁ (prim_pl ["Series"]) (val_strings values)) _)) _)).val
  | .integers values => by
    refine (Prim.list ?_).val
    rw [List.forall₂_map_left_iff, List.forall₂_map_right_iff]
    exact List.forall₂_same.mpr fun n _ => (fac_number (.int n)).val
  | .floats values => by
    refine (Prim.list ?_).val
    rw [List.forall₂_map_left_iff, List.forall₂_map_right_iff]
    exact List.forall₂_same.mpr fun x _ => (fac_signed x.1 _).val
  | .decimals texts scale =>
    (prim_call₀ (prim_path ((prim_path (prim_call₁ (prim_pl ["Series"]) (val_strings texts)) _).call
      (.cons (.keyword _ (Prim.num _).val) .nil)) _)).val

/-- A condition on text reads back as a primary. -/
theorem prim_textCondition (op : TextOperator) (h : Prim e te) (ht : Val ts t) :
    Prim (textConditionText op e ts) (textConditionTree op te t) := by
  cases op with
  | contains =>
    exact (prim_path h _).call (.cons (.one ht) (.cons (.keyword _ (val_bool true)) .nil))
  | startsWith | endsWith | «matches» => exact prim_call₁ (prim_path h _) ht

/-- A call of an aggregate reads back as a primary. -/
theorem prim_aggregateCall (h : Prim e te) : ∀ call : AggregateCall,
    Prim (aggregateCallText e call) (aggregateCallTree te call)
  | .quantile q =>
    (prim_path h _).call
      (.cons (.one (fac_number q).val) (.cons (.keyword _ (Prim.str _).val) .nil))
  | .method _ => prim_call₀ (prim_path h _)

/-- A positional operation reads back as a primary. -/
theorem prim_positional (h : Prim e te) : ∀ kind : PositionalKind,
    Prim (positionalText e kind) (positionalTree te kind)
  | .cumSum => prim_call₀ (prim_path h _)
  | .shift => prim_call₁ (prim_path h _) (Prim.num "1").val
  | .rank descending | .denseRank descending =>
    (prim_path h _).call
      (.cons (.keyword _ (Prim.str _).val) (.cons (.keyword _ (val_bool descending)) .nil))
  | .forwardFill | .backwardFill => (prim_path h _).call (.cons (.keyword _ (Prim.str _).val) .nil)

/-- A window reads back as a primary. -/
theorem prim_over (h : Prim e te) : ∀ window : Over, Prim (overText e window) (overTree te window)
  | .none => h
  | .columns names => prim_call₁ (prim_path h _) (val_strings names)
  | .ordered names order descending =>
    (prim_path h _).call (.cons (.one (val_strings names)) (.cons (.keyword _ (val_strings order))
      (.cons (.keyword _ (val_bool descending)) .nil)))

/-- The row number reads back as a primary. -/
theorem prim_rowNumber : Prim rowNumberText rowNumberTree := by
  have hsum : Lev BinOp.add.level
      (callText (pathText [.name "pl"] ["len"]) [] ++ .bin .add :: [.num "1"])
      (.binary .add (callTree (pl ["len"]) []) (.num "1")) :=
    Lev.binary (by decide) ((prim_call₀ (prim_pl ["len"])).fac.lev (by decide)) (Prim.num "1").fac
  have hend := hsum.mono (Nat.le_refl 1) (by decide) (by decide)
  exact prim_call₂ (prim_pl ["int_range"]) (Prim.num "1").val hend.val

end Templates

/-! ### The trees -/

/-- What an expression's text reads as: a factor for a power, a chain of its level for another
formula, and a primary for everything else. -/
def ExprReads (e : Expr) : Prop :=
  match e.binary? with
  | none => Prim (exprText e) (exprTree e)
  | some op =>
    if op = .pow then Fac (exprText e) (exprTree e)
    else Lev op.python.level (exprText e) (exprTree e)

/-- An expression that is no binary operation reads back as a primary. -/
theorem ExprReads.prim {e : Expr} (h : ExprReads e) (he : e.binary? = none) :
    Prim (exprText e) (exprTree e) := by
  rw [ExprReads, he] at h
  exact h

/-- Every operator but the power binds at one of four levels. -/
theorem BinaryOperator.level_python {op : BinaryOperator} (h : op ≠ .pow) :
    1 ≤ op.python.level ∧ op.python.level ≤ 4 := by
  cases op <;> first | exact absurd rfl h | decide

/-- An expression reads back as an argument. -/
theorem ExprReads.val {e : Expr} (h : ExprReads e) : Val (exprText e) (exprTree e) := by
  unfold ExprReads at h
  split at h
  · exact h.val
  · rename_i op _
    split at h
    · exact h.val
    · rename_i hpow
      have hlevel := op.level_python hpow
      exact (h.mono (by omega) hlevel.2 hlevel.1).val

/-- Where the brackets are left out, the formula's level is its parent's or a tighter one. -/
theorem level_le_of_not_needsParentheses {child parent : BinaryOperator} {side : Side}
    (h : needsParentheses child (some (parent, side)) = false) :
    child ≠ .pow ∧ parent ≠ .pow ∧ side = .left ∧ parent.python.level ≤ child.python.level := by
  by_cases hneeds : child = .pow ∨ parent = .pow ∨ side = .right
  · simp [needsParentheses, hneeds] at h
  · simp only [needsParentheses, if_neg hneeds] at h
    have hprecedence := of_decide_eq_false h
    simp only [not_or] at hneeds
    obtain ⟨hchild, hparent, hside⟩ := hneeds
    refine ⟨hchild, hparent, ?_, ?_⟩
    · cases side with
      | left => rfl
      | right => exact absurd rfl hside
    · cases child <;> cases parent <;>
        first
        | exact absurd rfl hchild
        | exact absurd rfl hparent
        | decide
        | exact absurd (by decide) hprecedence

/-- What an operand's text reads as, by its position. -/
structure OperandReads (o : Operand) : Prop where
  /-- In expression position outside a formula, a primary. -/
  expr : Prim (operandText true none o) (operandTree true o)
  /-- In value position outside a formula, a factor. -/
  value : Fac (operandText false none o) (operandTree false o)
  /-- On the right of an operator, a factor. -/
  right : ∀ op, Fac (operandText false (some (op, .right)) o) (operandTree false o)
  /-- On the left of `**`, a primary. -/
  base : Prim (operandText true (some (.pow, .left)) o) (operandTree true o)
  /-- On the left of another operator, a chain of its level. -/
  left : ∀ op, op ≠ .pow → Lev op.python.level (operandText true (some (op, .left)) o)
    (operandTree true o)

/-- An operand that is no formula reads alike everywhere. -/
theorem OperandReads.of_prim {o : Operand}
    (htext : ∀ expr parent, operandText expr parent o = operandText expr none o)
    (hexpr : Prim (operandText true none o) (operandTree true o))
    (hvalue : Fac (operandText false none o) (operandTree false o)) : OperandReads o where
  expr := hexpr
  value := hvalue
  right op := by rw [htext]; exact hvalue
  base := by rw [htext]; exact hexpr
  left op hop := by rw [htext]; exact hexpr.fac.lev (op.level_python hop)

/-- An expression reads back as an operand. -/
theorem OperandReads.of_expr {e : Expr} (h : ExprReads e) : OperandReads (.expr e) := by
  cases he : e.binary? with
  | none =>
    have htext : ∀ expr parent, operandText expr parent (.expr e) = exprText e := by
      intro expr parent
      rw [operandText, he]
    have hprim := h.prim he
    exact .of_prim (fun expr parent => by rw [htext, htext]) (by rw [htext]; exact hprim)
      (by rw [htext]; exact hprim.fac)
  | some op =>
    have htext : ∀ expr parent, operandText expr parent (.expr e) =
        if needsParentheses op parent then parenText (exprText e) else exprText e := by
      intro expr parent
      rw [operandText, he]
    have hparen : Prim (parenText (exprText e)) (exprTree e) := Prim.paren h.val
    refine ⟨?_, ?_, fun parent => ?_, ?_, fun parent hparent => ?_⟩
    · rw [htext]
      exact hparen
    · rw [htext]
      exact hparen.fac
    · rw [htext, if_pos (by simp [needsParentheses])]
      exact hparen.fac
    · rw [htext, if_pos (by simp [needsParentheses])]
      exact hparen
    · rw [htext]
      cases hneeds : needsParentheses op (some (parent, .left)) with
      | true => exact hparen.fac.lev (parent.level_python hparent)
      | false =>
        -- unbracketed: the formula's own chain, of the parent's level or a tighter one
        obtain ⟨hpow, -, -, hle⟩ := level_le_of_not_needsParentheses hneeds
        rw [ExprReads, he] at h
        simp only [if_neg hpow] at h
        exact h.mono (parent.level_python hparent).1 (op.level_python hpow).2 hle

mutual

/-- An operand's text reads as its tree. -/
theorem operandText_reads : ∀ o : Operand, OperandReads o
  | .column name => .of_prim (fun _ _ => rfl) (prim_column name) (prim_column name).fac
  | .literal value => by
    cases value with
    | number n => exact .of_prim (fun _ _ => rfl) (prim_lit (fac_number n).val) (fac_number n)
    | text s => exact .of_prim (fun _ _ => rfl) (prim_lit (Prim.str s).val) (Prim.str s).fac
    | boolean b =>
      exact .of_prim (fun _ _ => rfl) (prim_lit (val_bool b)) (fac_literal (.boolean b))
    | date day =>
      have hday : Prim (literalText (.date day)) (literalTree (.date day)) :=
        prim_call₀ (prim_path (prim_lit (Prim.str day).val) ["str", "to_date"])
      exact .of_prim (fun _ _ => rfl) hday hday.fac
    | null =>
      have hnull : Prim (litText (literalText .null)) (litTree (literalTree .null)) :=
        prim_lit (Prim.name "None").val
      exact .of_prim (fun _ _ => rfl) hnull hnull.fac
  | .expr e => .of_expr (exprText_reads e)
  | .variable name => .of_prim (fun _ _ => rfl) (prim_lit (Prim.name name).val) (Prim.name name).fac
  | .constant name =>
    .of_prim (fun _ _ => rfl) (prim_lit (prim_path (.name _) [name]).val)
      (prim_path (.name _) [name]).fac

/-- An expression's text reads as its tree. -/
theorem exprText_reads : ∀ e : Expr, ExprReads e
  | .operand o => (operandText_reads o).expr
  | .binary left op right => by
    have hleft := operandText_reads left
    have hright := (operandText_reads right).right op
    unfold ExprReads
    simp only [Expr.binary?]
    by_cases hpow : op = .pow
    · subst hpow
      rw [if_pos rfl]
      exact Fac.pow hleft.base hright
    · rw [if_neg hpow]
      exact Lev.binary (op.level_python hpow).2 (hleft.left op hpow) hright
  | .function₀ fn receiver => prim_call₀ (prim_path (operandText_reads receiver).expr fn.path)
  | .function₁ fn receiver arg =>
    prim_function₁ fn (operandText_reads receiver).expr (operandText_reads arg).value.val
  | .function₂ fn receiver first second =>
    prim_function₂ fn (operandText_reads receiver).expr (operandText_reads first).value.val
      (operandText_reads second).value.val
  | .divide receiver divisor => prim_divide (operandText_reads receiver).expr
    (operandText_reads divisor).value
  | .cast strict receiver dtype => prim_cast strict (operandText_reads receiver).expr dtype
  | .conditional branches otherwise =>
    prim_call₁ (prim_path (branchesText_reads branches) ["otherwise"])
      (operandText_reads otherwise).expr.val
  | .concat parts separator =>
    (prim_pl ["concat_str"]).call (.cons (.one (Prim.list (operandTexts_read parts)).val)
      (.cons (.keyword _ (Prim.str separator).val) .nil))
  | .sumHorizontal parts => prim_call (prim_pl ["sum_horizontal"]) (operandTexts_read parts)
  | .rowNumber window => prim_over prim_rowNumber window
  | .length window => prim_over (prim_call₀ (prim_pl ["len"])) window
  | .lengthWhere kind conditions window =>
    prim_over (prim_call₀
      (prim_path (Prim.paren (conditionsText_reads kind conditions).2) ["sum"])) window
  | .aggregate call value window =>
    prim_over (prim_aggregateCall (operandText_reads value).expr call) window
  | .aggregateWhere call value kind conditions window =>
    prim_over (prim_aggregateCall (prim_call₁ (prim_path (operandText_reads value).expr ["filter"])
      (conditionsText_reads kind conditions).2) call) window
  | .positional kind value window =>
    prim_over (prim_positional (operandText_reads value).expr kind) window

/-- A condition's text reads as its tree. -/
theorem conditionText_reads : ∀ condition : Condition, Val (conditionText condition)
    (conditionTree condition)
  | .compare column op value => Val.compare (prim_column column).fac (operandText_reads value).value
  | .text column op value =>
    (prim_textCondition op (prim_column column) (operandText_reads value).value.val).val
  | .isNull column negated => (prim_call₀ (prim_path (prim_column column) _)).val
  | .isIn column negated members => by
    have hheld := prim_call₁ (prim_path (prim_column column) ["is_in"]) (val_members members)
    cases negated with
    | false => exact hheld.val
    | true => exact (hheld.fac.unary rfl).val

/-- Joined conditions read as a chain of the operator that joins them. -/
theorem conditionsText_reads (kind : MatchKind) : ∀ conditions : Conditions,
    Lev kind.python.level (conditionsText kind conditions) (conditionsTree kind conditions) ∧
      Val (conditionsText kind conditions) (conditionsTree kind conditions)
  | .one condition => by
    have hparen : Prim (parenText (conditionText condition)) (conditionTree condition) :=
      Prim.paren (conditionText_reads condition)
    exact ⟨hparen.fac.lev (by cases kind <;> decide), hparen.val⟩
  | .snoc before condition => by
    have hparen : Prim (parenText (conditionText condition)) (conditionTree condition) :=
      Prim.paren (conditionText_reads condition)
    have hchain :=
      Lev.binary (by cases kind <;> decide) (conditionsText_reads kind before).1 hparen.fac
    exact ⟨hchain,
      (hchain.mono (by decide) (by cases kind <;> decide) (by cases kind <;> decide)).val⟩

/-- A chain of branches reads as its calls. -/
theorem branchesText_reads : ∀ branches : Branches, Prim (branchesText branches)
    (branchesTree branches)
  | .one kind conditions result =>
    prim_call₁
      (prim_path (prim_call₁ (prim_pl ["when"]) (conditionsText_reads kind conditions).2) ["then"])
      (operandText_reads result).expr.val
  | .snoc before kind conditions result =>
    prim_call₁ (prim_path (prim_call₁ (prim_path (branchesText_reads before) ["when"])
      (conditionsText_reads kind conditions).2) ["then"]) (operandText_reads result).expr.val

/-- Operands read back one by one as arguments. -/
theorem operandTexts_read : ∀ operands : Operands, List.Forall₂ Val (operandTexts operands)
    (operandTrees operands)
  | .nil => .nil
  | .cons o rest => .cons (operandText_reads o).expr.val (operandTexts_read rest)

end

/-- Reading an expression's text under Python's precedence and associativity gives its operator
tree, and nothing else. -/
theorem rendered_reads_back (e : Expr) (out : Py) (rest : List Token) :
    Reads (.level 0) (exprText e) out rest ↔ out = exprTree e ∧ rest = [] :=
  (exprText_reads e).val.reads_iff

end Haute.Steps
