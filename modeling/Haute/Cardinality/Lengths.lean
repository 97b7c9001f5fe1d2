import Haute.Cardinality.Runs

/-!
# How many values an expression gives

An expression without an unbounded row effect gives no more values than the frame has rows, or
one, as long as its leaves do (`length_le`): by induction on the expression, with the broadcasting
of one call at each step. A plain column gives as many as the frame has (`output_plain`).
-/

namespace Haute.Cardinality

variable {F O : Type} {P : Polars F O} {env : Env F O} {f : F}

/-! ### Parts of an expression -/

/-- The nodes of several expressions are those of each. -/
theorem mem_walkAll {es : List Node} {x : Node} : x ∈ walkAll es ↔ ∃ e ∈ es, x ∈ e.walk := by
  induction es with
  | nil => simp [walkAll]
  | cons e es ih => simp [walkAll, ih]

/-- The nodes of keyword arguments are those of their values. -/
theorem mem_walkKeywords {es : List (Option String × Node)} {x : Node} :
    x ∈ walkKeywords es ↔ ∃ e ∈ es, x ∈ e.2.walk := by
  induction es with
  | nil => simp [walkKeywords]
  | cons e es ih => simp [walkKeywords, ih]

/-- The leaves of several expressions are those of each. -/
theorem mem_leavesAll {es : List Node} {x : Node} : x ∈ leavesAll es ↔ ∃ e ∈ es, x ∈ e.leaves := by
  induction es with
  | nil => simp [leavesAll]
  | cons e es ih => simp [leavesAll, ih]

/-- The leaves of keyword arguments are those of their values. -/
theorem mem_leavesKeywords {es : List (Option String × Node)} {x : Node} :
    x ∈ leavesKeywords es ↔ ∃ e ∈ es, x ∈ e.2.leaves := by
  induction es with
  | nil => simp [leavesKeywords]
  | cons e es ih => simp [leavesKeywords, ih]

/-- What is among the arguments of a call. -/
theorem mem_values {args : List Node} {keywords : List (Option String × Node)} {e : Node} :
    e ∈ (Arguments.mk args keywords).values ↔ e ∈ args ∨ ∃ k ∈ keywords, k.2 = e := by
  simp [Arguments.values]

/-- Every call of an expression has a bounded row effect. -/
def RowBounded (e : Node) : Prop := ∀ x ∈ e.walk, callHasRowEffect x = false

/-- An expression is row-bounded exactly when the check finds no unbounded row effect. -/
theorem rowBounded_iff {e : Node} : RowBounded e ↔ expressionHasUnboundedRowEffect e = false := by
  rw [expressionHasUnboundedRowEffect, List.any_eq_false]
  simp [RowBounded]

/-- An expression is a node of itself. -/
theorem self_mem_walk (e : Node) : e ∈ e.walk := by
  cases e <;> simp [Node.walk]

/-- What of an expression the induction on it needs: the row effect of its parts is bounded, and
their leaves are its own. -/
structure PartOf (part e : Node) : Prop where
  walk : ∀ x ∈ part.walk, x ∈ e.walk
  leaves : ∀ x ∈ part.leaves, x ∈ e.leaves

/-- A part of a row-bounded expression is row-bounded. -/
theorem PartOf.rowBounded {part e : Node} (h : PartOf part e) (he : RowBounded e) :
    RowBounded part :=
  fun x hx => he x (h.walk x hx)

/-- An element is part of its sequence. -/
theorem partOf_sequence {e : Node} {es : List Node} (h : e ∈ es) : PartOf e (.sequence es) where
  walk _ hx := List.mem_cons_of_mem _ (mem_walkAll.mpr ⟨e, h, hx⟩)
  leaves _ hx := mem_leavesAll.mpr ⟨e, h, hx⟩

theorem partOf_operator {e : Node} {es : List Node} (h : e ∈ es) : PartOf e (.operator es) where
  walk _ hx := List.mem_cons_of_mem _ (mem_walkAll.mpr ⟨e, h, hx⟩)
  leaves _ hx := mem_leavesAll.mpr ⟨e, h, hx⟩

theorem partOf_signed (e : Node) : PartOf e (.signed e) where
  walk _ hx := List.mem_cons_of_mem _ hx
  leaves _ hx := hx

theorem partOf_add_left (l r : Node) : PartOf l (.add l r) where
  walk _ hx := List.mem_cons_of_mem _ (List.mem_append_left _ hx)
  leaves _ hx := List.mem_append_left _ hx

theorem partOf_add_right (l r : Node) : PartOf r (.add l r) where
  walk _ hx := List.mem_cons_of_mem _ (List.mem_append_right _ hx)
  leaves _ hx := List.mem_append_right _ hx

/-- What an attribute is taken of is part of it, but for a dotted name. -/
theorem partOf_attribute {e : Node} {a : String} (h : e.isDotted = false) :
    PartOf e (.attr e a) where
  walk _ hx := List.mem_cons_of_mem _ hx
  leaves x hx := by
    rw [Node.leaves, if_neg (by rw [h]; decide)]
    exact hx

/-- The arguments of a call are walked. -/
theorem walk_argument {func e : Node} {args : List Node} {keywords : List (Option String × Node)}
    (h : e ∈ (Arguments.mk args keywords).values) :
    ∀ x ∈ e.walk, x ∈ (Node.call func args keywords).walk := by
  intro x hx
  refine List.mem_cons_of_mem _ (List.mem_append_right _ (List.mem_append.mpr ?_))
  rcases mem_values.mp h with he | ⟨k, hk, rfl⟩
  · exact .inl (mem_walkAll.mpr ⟨e, he, hx⟩)
  · exact .inr (mem_walkKeywords.mpr ⟨k, hk, hx⟩)

/-- The leaves of an argument are leaves of the call. -/
theorem leaves_argument {e : Node} {args : List Node} {keywords : List (Option String × Node)}
    (h : e ∈ (Arguments.mk args keywords).values) :
    ∀ x ∈ e.leaves, x ∈ leavesAll args ++ leavesKeywords keywords := by
  intro x hx
  rcases mem_values.mp h with he | ⟨k, hk, rfl⟩
  · exact List.mem_append_left _ (mem_leavesAll.mpr ⟨e, he, hx⟩)
  · exact List.mem_append_right _ (mem_leavesKeywords.mpr ⟨k, hk, hx⟩)

/-- An argument is smaller than its call. -/
theorem sizeOf_argument {func e : Node} {args : List Node} {keywords : List (Option String × Node)}
    (h : e ∈ (Arguments.mk args keywords).values) :
    sizeOf e < sizeOf (Node.call func args keywords) := by
  rcases mem_values.mp h with he | ⟨k, hk, rfl⟩
  · have := List.sizeOf_lt_of_mem he
    simp only [Node.call.sizeOf_spec]
    omega
  · have := List.sizeOf_lt_of_mem hk
    have hvalue : sizeOf k.2 < sizeOf k := by
      cases k
      simp only [Prod.mk.sizeOf_spec]
      omega
    simp only [Node.call.sizeOf_spec]
    omega

/-! ### Ranges -/

/-- The terms of a bound are its value. -/
theorem boundValue_of_terms {e : Node} {terms : ℕ × ℕ} (rows : ℕ)
    (h : rangeBoundTerms e = some terms) :
    boundValue rows e = some (terms.1 * rows + terms.2) := by
  induction e using rangeBoundTerms.induct generalizing terms with
  | case1 i hi => simp [rangeBoundTerms, hi] at h
  | case2 i hi =>
    simp only [rangeBoundTerms, hi, if_false, Option.some.injEq] at h
    subst h
    simp [boundValue, hi]
  | case3 func hfunc =>
    simp only [rangeBoundTerms, hfunc, if_true, Option.some.injEq] at h
    subst h
    simp [boundValue, hfunc]
  | case4 func hfunc => simp [rangeBoundTerms, hfunc] at h
  | case5 left right ihl ihr =>
    rw [rangeBoundTerms] at h
    obtain ⟨l, hl, h⟩ := Option.bind_eq_some_iff.mp h
    obtain ⟨r, hr, h⟩ := Option.bind_eq_some_iff.mp h
    split_ifs at h
    cases h
    rw [boundValue, ihl hl, ihr hr]
    simp only [Option.bind_eq_bind, Option.bind_some, Option.pure_def, Option.some.injEq]
    ring
  | case6 e h1 h2 h3 => simp [rangeBoundTerms] at h

/-- **A range that is admitted** has as many values as the frame has rows at most. -/
theorem exists_rangeLength {args : List Node} {keywords : List (Option String × Node)}
    (h : isFrameLengthRange args keywords = true) (rows : ℕ) :
    keywords = [] ∧ ∃ m ≤ rows, rangeLength rows args = some m := by
  unfold isFrameLengthRange at h
  cases hbounds : rangeBounds args keywords with
  | none => simp [hbounds] at h
  | some bounds =>
    obtain ⟨s, e⟩ := bounds
    simp only [hbounds, Bool.and_eq_true, decide_eq_true_eq] at h
    obtain ⟨hmultiple, hconstant⟩ := h
    unfold rangeBounds at hbounds
    split at hbounds
    · next stop =>
      obtain ⟨terms, hterms, heq⟩ := Option.map_eq_some_iff.mp hbounds
      cases heq
      refine ⟨rfl, _, ?_, boundValue_of_terms rows hterms⟩
      simp only at hmultiple hconstant
      rw [hmultiple]
      omega
    · next start stop =>
      obtain ⟨s', hs, hrest⟩ := Option.bind_eq_some_iff.mp hbounds
      obtain ⟨e', he, heq⟩ := Option.bind_eq_some_iff.mp hrest
      cases heq
      refine ⟨rfl, (e.1 * rows + e.2) - (s.1 * rows + s.2), ?_, ?_⟩
      · rw [hmultiple, Nat.add_mul, Nat.one_mul]
        omega
      · rw [rangeLength, boundValue_of_terms rows hs, boundValue_of_terms rows he]
        rfl
    · cases hbounds

/-! ### The values of an expression -/

/-- No more values than the frame has rows, or one. -/
def Bounded (P : Polars F O) (env : Env F O) (f : F) (e : Node) : Prop :=
  ∀ n, P.length env f e n → n ≤ max (P.height f) 1

/-- A Polars call is of an attribute of the module. -/
theorem eq_of_polarsCallName {func : Node} {direct : String}
    (h : polarsCallName func = some direct) :
    func = .attr (.name "pl") direct := by
  unfold polarsCallName at h
  split at h
  · split_ifs at h with hid
    rw [hid, Option.some.inj h]
  · cases h

/-- A constructor of Polars. -/
theorem bounded_polarsCall (hP : P.Broadcasts) {func : Node} {direct : String} {args : List Node}
    {keywords : List (Option String × Node)} (hdirect : polarsCallName func = some direct)
    (hrow : callHasRowEffect (.call func args keywords) = false)
    (hleaves : ∀ leaf ∈ (Node.call func args keywords).leaves, Bounded P env f leaf)
    (hargs : (∀ x ∈ leavesAll args ++ leavesKeywords keywords,
      x ∈ (Node.call func args keywords).leaves) →
      ∀ e ∈ (Arguments.mk args keywords).values, Bounded P env f e) :
    Bounded P env f (.call func args keywords) := by
  intro n hn
  have hfunc := eq_of_polarsCallName hdirect
  by_cases hlit : direct = "lit"
  · cases hliteral : isLiteralLit args keywords with
    | true =>
      rw [hP.lit env f func args keywords n (hlit ▸ hdirect) hliteral hn]
      exact le_max_right _ _
    | false =>
      -- a literal that is not written out is a leaf
      refine hleaves _ ?_ n hn
      subst hfunc
      rw [Node.leaves]
      simp only [hlit, hliteral]
      exact List.mem_singleton_self _
  · have hparts : ∀ e ∈ (Arguments.mk args keywords).values, Bounded P env f e := by
      refine hargs fun x hx => ?_
      subst hfunc
      rw [Node.leaves]
      simpa only [hdirect, hlit, if_false] using hx
    simp only [callHasRowEffect, hdirect, Bool.and_eq_false_iff, Bool.not_eq_false',
      Bool.and_eq_true,
      decide_eq_true_eq, List.contains_eq_mem] at hrow
    rcases hrow with ⟨hrange, hlength⟩ | hsafe
    · obtain ⟨rfl, m, hm, hvalues⟩ := exists_rangeLength hlength (P.height f)
      rw [hP.intRange env f func args n m (hrange ▸ hdirect) hvalues hn]
      exact hm.trans (le_max_left _ _)
    · rcases hP.constructor env f func args keywords direct n hdirect hsafe hlit hn
        with hle | ⟨e, he, hn'⟩
      · exact hle
      · exact hparts e he n hn'

/-- A method of an expression. -/
theorem bounded_methodCall (hP : P.Broadcasts) {receiver : Node} {method : String}
    {args : List Node}
    {keywords : List (Option String × Node)}
    (hdirect : polarsCallName (.attr receiver method) = none)
    (hdotted : receiver.isDotted = false)
    (hrow : callHasRowEffect (.call (.attr receiver method) args keywords) = false)
    (hreceiver : Bounded P env f receiver)
    (hargs : ∀ e ∈ (Arguments.mk args keywords).values, Bounded P env f e) :
    Bounded P env f (.call (.attr receiver method) args keywords) := by
  intro n hn
  simp only [callHasRowEffect, hdirect, Bool.or_eq_false_iff, List.contains_eq_mem,
    decide_eq_false_iff_not,
    Bool.and_eq_false_iff] at hrow
  have hcallback : method = "map_elements" ∨ method = "rolling_map" →
      args.any isCallback = false := by
    intro hmethod
    refine hrow.2.resolve_right fun hnot => ?_
    rcases hmethod with hmethod | hmethod
    · exact hnot.1 hmethod
    · exact hnot.2 hmethod
  rcases hP.method env f receiver method args keywords n hdotted hrow.1 hcallback hn
    with hle | hn' | ⟨e, he, hn'⟩
  · exact hle
  · exact hreceiver n hn'
  · exact hargs e he n hn'

/-- **An expression without an unbounded row effect** gives no more values than the frame has rows,
or one, where its leaves do. -/
theorem bounded_of_leaves (hP : P.Broadcasts) (e : Node) (he : RowBounded e)
    (hleaves : ∀ leaf ∈ e.leaves, Bounded P env f leaf) : Bounded P env f e := by
  -- the parts of an expression are bounded by induction
  have hpart : ∀ part, PartOf part e → sizeOf part < sizeOf e → Bounded P env f part :=
    fun part h _ =>
    bounded_of_leaves hP part (h.rowBounded he) fun leaf hleaf => hleaves leaf (h.leaves leaf hleaf)
  intro n hn
  cases e with
  | constant c => exact hP.constant env f c n hn
  | name id => exact hleaves _ (List.mem_singleton_self _) n hn
  | attr value name =>
    cases hdotted : value.isDotted with
    | true =>
      refine hleaves _ ?_ n hn
      rw [Node.leaves, if_pos hdotted]
      exact List.mem_singleton_self _
    | false =>
      refine hpart value (partOf_attribute hdotted) ?_ n (hP.accessor env f value name n hdotted hn)
      simp only [Node.attr.sizeOf_spec]
      omega
  | call func args keywords =>
    have hrow := he _ (self_mem_walk _)
    have hargs : (∀ x ∈ leavesAll args ++ leavesKeywords keywords,
        x ∈ (Node.call func args keywords).leaves) →
          ∀ e ∈ (Arguments.mk args keywords).values, Bounded P env f e := fun hsub e' he' =>
      hpart e' ⟨walk_argument he', fun x hx => hsub x (leaves_argument he' x hx)⟩
        (sizeOf_argument he')
    cases hdirect : polarsCallName func with
    | some direct => exact bounded_polarsCall hP hdirect hrow hleaves hargs n hn
    | none =>
      cases func with
      | attr receiver method =>
        cases hdotted : receiver.isDotted with
        | true =>
          refine hleaves _ ?_ n hn
          rw [Node.leaves]
          simp only [hdirect, hdotted, if_true]
          exact List.mem_singleton_self _
        | false =>
          have hsplit : (Node.call (.attr receiver method) args keywords).leaves
              = receiver.leaves ++ (leavesAll args ++ leavesKeywords keywords) := by
            rw [Node.leaves]
            simp only [hdirect, hdotted, if_false, Bool.false_eq_true]
          refine bounded_methodCall hP hdirect hdotted hrow
            (hpart receiver ⟨fun x hx => ?_, fun x hx => ?_⟩ ?_)
            (hargs fun x hx => ?_) n hn
          · exact List.mem_cons_of_mem _ (List.mem_append_left _ (List.mem_cons_of_mem _ hx))
          · rw [hsplit]
            exact List.mem_append_left _ hx
          · simp only [Node.call.sizeOf_spec, Node.attr.sizeOf_spec]
            omega
          · rw [hsplit]
            exact List.mem_append_right _ hx
      | _ => exact hleaves _ (List.mem_singleton_self _) n hn
  | sequence elts =>
    rcases hP.sequence env f elts n hn with hle | ⟨e, he', hn'⟩
    · exact hle
    · refine hpart e (partOf_sequence he') ?_ n hn'
      have := List.sizeOf_lt_of_mem he'
      simp only [Node.sequence.sizeOf_spec]
      omega
  | add left right =>
    rcases hP.add env f left right n hn with hn' | hn'
    · refine hpart left (partOf_add_left left right) ?_ n hn'
      simp only [Node.add.sizeOf_spec]
      omega
    · refine hpart right (partOf_add_right left right) ?_ n hn'
      simp only [Node.add.sizeOf_spec]
      omega
  | signed operand =>
    refine hpart operand (partOf_signed operand) ?_ n (hP.signed env f operand n hn)
    simp only [Node.signed.sizeOf_spec]
    omega
  | operator operands =>
    obtain ⟨e, he', hn'⟩ := hP.operator env f operands n hn
    refine hpart e (partOf_operator he') ?_ n hn'
    have := List.sizeOf_lt_of_mem he'
    simp only [Node.operator.sizeOf_spec]
    omega
  | lambda children => exact hleaves _ (List.mem_singleton_self _) n hn
  | other children => exact hleaves _ (List.mem_singleton_self _) n hn
termination_by sizeOf e

/-! ### Outputs -/

/-- **What an argument outputs** is bounded where its values are. -/
theorem output_le (hP : P.Broadcasts) (e : Node) (he : RowBounded e)
    (hleaves : ∀ leaf ∈ e.leaves, Bounded P env f leaf) {n : ℕ} (hn : P.output env f e n) :
    n ≤ max (P.height f) 1 := by
  cases htext : e.isText with
  | false => exact bounded_of_leaves hP e he hleaves n (hP.expression env f e n htext hn)
  | true =>
    cases e with
    | constant c =>
      cases c with
      | str s =>
        rw [hP.text env f s n hn]
        exact le_max_left _ _
      | _ => cases htext
    | sequence elts =>
      obtain ⟨e, hmem, hn'⟩ := hP.listed env f elts n hn
      have hpart := partOf_sequence hmem
      exact output_le hP e (hpart.rowBounded he)
        (fun leaf hleaf => hleaves leaf (hpart.leaves leaf hleaf)) hn'
    | _ => cases htext
termination_by sizeOf e

/-- A list passes as plain columns when each of its elements is one. -/
theorem allPlainColumns_iff {es : List Node} :
    isPlainColumnExpression.allPlainColumns es = true ↔ ∀ e ∈ es, isPlainColumnExpression e =
      true := by
  induction es with
  | nil => simp [isPlainColumnExpression.allPlainColumns]
  | cons e es ih => simp [isPlainColumnExpression.allPlainColumns, ih]

/-- A call that names a column is one of col. -/
theorem polarsCallName_of_plColName {func : Node} {args : List Node}
    {keywords : List (Option String × Node)} (h : (plColName func args keywords).isSome = true) :
    polarsCallName func = some "col" := by
  unfold plColName at h
  split at h
  · assumption
  · cases h

/-- A column, however often it is renamed. -/
theorem length_plain (hP : P.Broadcasts) (e : Node) (he : isPlainColumnExpression e = true)
    (htext : e.isText = false) {n : ℕ} (hn : P.length env f e n) : n = P.height f := by
  unfold isPlainColumnExpression at he
  split at he
  · cases htext
  · cases htext
  · next receiver attr args keywords =>
    split_ifs at he with halias
    · subst halias
      obtain ⟨hreceiver, hn'⟩ := hP.renamed env f receiver args keywords n hn
      rw [Bool.and_eq_true] at he
      exact length_plain hP receiver he.2 hreceiver hn'
    · exact hP.col env f _ _ _ n (polarsCallName_of_plColName he) hn
  · cases he
termination_by sizeOf e

/-- **A plain column** has as many values as the frame has rows. -/
theorem output_plain (hP : P.Broadcasts) (e : Node) (he : isPlainColumnExpression e = true) {n : ℕ}
    (hn : P.output env f e n) : n = P.height f := by
  cases htext : e.isText with
  | false => exact length_plain hP e he htext (hP.expression env f e n htext hn)
  | true =>
    cases e with
    | constant c =>
      cases c with
      | str s => exact hP.text env f s n hn
      | _ => cases htext
    | sequence elts =>
      obtain ⟨e, hmem, hn'⟩ := hP.listed env f elts n hn
      exact output_plain hP e (allPlainColumns_iff.mp he e hmem) hn'
    | _ => cases htext
termination_by sizeOf e

end Haute.Cardinality
