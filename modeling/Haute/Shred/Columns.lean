import Haute.Shred.Compiled

/-!
# The compiled reader, column by column

The compiled row reader against its specification: what each cell is, and which error comes
first. A cell is its column's leaf coerced to the column's type, but the reader coerces less
than `_coerce_scalar` does: in a column that is no array's element itself, an integer of a float
column and a list or a dict of a string column stay as they are, for the frame to convert or to
refuse (`Kept`).
-/

namespace Haute

/-- `leaf.split(".")`. -/
def leafParts (leaf : String) : List String := (leaf.toList.splitOn '.').map String.ofList

theorem leafParts_ne_nil (leaf : String) : leafParts leaf ≠ [] := by
  simp [leafParts, List.splitOn_ne_nil]

/-- A column as the specs list it: its name, its dotted leaf, its type, and the array depth its
value lives at. -/
structure ColumnSpec where
  name : String
  leaf : String
  type : ColumnType
  depth : ℕ
  deriving DecidableEq

/-- The column with its leaf split once. -/
def ColumnSpec.walkSpec (column : ColumnSpec) : WalkSpec :=
  ⟨column.name, leafParts column.leaf, column.type, column.depth⟩

/-- What one column's leaf resolves to, at the element its value lives in. -/
def ColumnSpec.resolve (column : ColumnSpec) (ownDepth : ℕ) (value : Value)
    (ancestors : List Value) :
    Except PyError Value :=
  resolveLeaf (sourceAt ownDepth value ancestors column.depth) (leafParts column.leaf)

/-- The reader leaves the cell as it was resolved, where `_coerce_scalar` would not. -/
def ColumnSpec.Kept (column : ColumnSpec) (cell : Value) : Prop :=
  column.leaf ≠ reservedLeaf ∧ ((column.type = .float ∧ ∃ n, cell = .int n) ∨
    (column.type = .str ∧ (cell.isList = true ∨ cell.isDict = true)))

/-! ### The coercions -/

theorem leafParts_eq_reservedLeaf {leaf : String} :
    leafParts leaf = [reservedLeaf] ↔ leaf = reservedLeaf := by
  constructor
  · intro h
    have hjoin :=
      congrArg (fun parts : List String => ['.'].intercalate (parts.map String.toList)) h
    simp only [leafParts, List.map_map] at hjoin
    have hid : (String.toList ∘ String.ofList) = id := funext fun cs => String.toList_ofList
    rw [hid, List.map_id, List.intercalate_splitOn] at hjoin
    rw [← String.toList_inj, hjoin]
    rfl
  · rintro rfl
    decide

/-- A cell is coerced as `_coerce_scalar` coerces it, unless it is kept. -/
theorem coerceCell_walkSpec (column : ColumnSpec) (cell : Value) :
    (column.Kept cell → coerceCell column.walkSpec cell = .ok cell) ∧
      (¬ column.Kept cell → coerceCell column.walkSpec cell = coerceScalar cell column.type) := by
  have hvalue : column.walkSpec.isValueLeaf = decide (column.leaf = reservedLeaf) := by
    simp only [WalkSpec.isValueLeaf, ColumnSpec.walkSpec, leafParts_eq_reservedLeaf]
  have htype : column.walkSpec.type = column.type := rfl
  rw [coerceCell, hvalue, htype]
  simp only [ColumnSpec.Kept]
  by_cases hleaf : column.leaf = reservedLeaf
  · simp [hleaf]
  · cases column.type <;> cases cell <;>
      simp [hleaf, coerceString, coerceScalar, Value.isList, Value.isDict]

/-! ### Which error comes first -/

/-- The first error of a list is that of its first element that raises. -/
theorem mapM_eq_error_iff {α β : Type} {f : α → Except PyError β} {xs : List α} {e : PyError} :
    xs.mapM f = .error e ↔ ∃ before x after, xs = before ++ x :: after ∧
      (∀ b ∈ before, ∃ v, f b = .ok v) ∧ f x = .error e := by
  induction xs with
  | nil => simp [pure, Except.pure]
  | cons x xs ih =>
    rw [List.mapM_cons]
    cases hx : f x with
    | error e' =>
      have hstop : (do let b ← Except.error e'; let bs ← xs.mapM f; pure (b :: bs))
          = (.error e' : Except PyError (List β)) := rfl
      rw [hstop, Except.error.injEq]
      constructor
      · rintro rfl
        exact ⟨[], x, xs, rfl, by simp, hx⟩
      · rintro ⟨before, y, after, hsplit, hbefore, hy⟩
        cases before with
        | nil =>
          obtain ⟨rfl, rfl⟩ := List.cons.inj hsplit
          exact Except.error.inj (hx.symm.trans hy)
        | cons b before =>
          obtain ⟨rfl, -⟩ := List.cons.inj hsplit
          obtain ⟨v, hv⟩ := hbefore _ List.mem_cons_self
          cases hx.symm.trans hv
    | ok v =>
      have hrest : (do let b ← Except.ok v; let bs ← xs.mapM f; pure (b :: bs)) = .error e
          ↔ xs.mapM f = .error e := by
        cases xs.mapM f <;> simp [bind, Except.bind, pure, Except.pure]
      rw [hrest, ih]
      constructor
      · rintro ⟨before, y, after, rfl, hbefore, hy⟩
        exact ⟨x :: before, y, after, rfl, List.forall_mem_cons.mpr ⟨⟨v, hx⟩, hbefore⟩, hy⟩
      · rintro ⟨before, y, after, hsplit, hbefore, hy⟩
        cases before with
        | nil =>
          obtain ⟨rfl, -⟩ := List.cons.inj hsplit
          cases hx.symm.trans hy
        | cons b before =>
          obtain ⟨-, rfl⟩ := List.cons.inj hsplit
          exact ⟨before, y, after, rfl, (List.forall_mem_cons.mp hbefore).2, hy⟩

theorem scalarToStr_ne_crossing (v : Value) (leaf : List String) (part : String) :
    scalarToStr v ≠ .error (leafCrossesArray leaf part) := by
  cases v with
  | int n =>
    rw [scalarToStr, strOfInt]
    split_ifs <;> simp [leafCrossesArray]
  | _ => simp [scalarToStr, leafCrossesArray]

theorem coerceScalar_ne_crossing (v : Value) (type : ColumnType) (leaf : List String)
    (part : String) :
    coerceScalar v type ≠ .error (leafCrossesArray leaf part) := by
  have hstr : (Value.str <$> scalarToStr v) ≠ .error (leafCrossesArray leaf part) := by
    have := scalarToStr_ne_crossing v leaf part
    cases h : scalarToStr v <;> simp_all [Functor.map, Except.map]
  cases type with
  | str => cases v <;> first | exact hstr | simp [coerceScalar]
  | float =>
    cases v with
    | int n =>
      rw [coerceScalar, floatOfInt]
      cases nearestDouble |(n : ℚ)| <;> simp [Functor.map, Except.map, leafCrossesArray]
    | _ => simp [coerceScalar]
  | _ => cases v <;> simp [coerceScalar]

private theorem bind_ne_error {α β : Type} {x : Except PyError α} {f : α → Except PyError β}
    {e : PyError}
    (hx : x ≠ .error e) (hf : ∀ a, f a ≠ .error e) : (x >>= f) ≠ .error e := by
  cases x with
  | error e' => exact fun h => hx (congrArg Except.error (Except.error.inj h))
  | ok a => exact hf a

/-- No coercion raises about an array. -/
theorem coerceWith_ne_crossing {pass : WalkSpec → Value → Except PyError Value} {leaf : List String}
    {part : String} (hpass : ∀ spec cell, pass spec cell ≠ .error (leafCrossesArray leaf part))
    (columns : List WalkSpec) (row : List Value) :
    coerceWith pass columns row ≠ .error (leafCrossesArray leaf part) := by
  induction columns generalizing row with
  | nil => simp [coerceWith]
  | cons spec columns ih =>
    cases row with
    | nil => simp [coerceWith]
    | cons cell row =>
      rw [coerceWith]
      refine bind_ne_error (hpass spec cell) fun cell' => bind_ne_error (ih row) fun row' => ?_
      simp [pure, Except.pure]

theorem stringPass_ne_crossing (spec : WalkSpec) (cell : Value) (leaf : List String)
    (part : String) :
    stringPass spec cell ≠ .error (leafCrossesArray leaf part) := by
  have hstr := coerceScalar_ne_crossing cell .str leaf part
  rw [stringPass]
  split_ifs
  · cases cell <;> first | exact hstr | simp [coerceString]
  · simp

theorem scalarPass_ne_crossing (spec : WalkSpec) (cell : Value) (leaf : List String)
    (part : String) :
    scalarPass spec cell ≠ .error (leafCrossesArray leaf part) := by
  rw [scalarPass]
  split_ifs
  · exact coerceScalar_ne_crossing cell spec.type leaf part
  · simp

private theorem coercions_ne_crossing (columns : List WalkSpec) (row : List Value)
    (leaf : List String)
    (part : String) : (coerceStrings columns row >>= fun row => coerceScalars columns row)
      ≠ .error (leafCrossesArray leaf part) :=
  bind_ne_error
    (coerceWith_ne_crossing (fun spec cell => stringPass_ne_crossing spec cell leaf part)
    columns row)
    fun row => coerceWith_ne_crossing (fun spec cell => scalarPass_ne_crossing spec cell leaf part)
      columns row

/-- The only error of a leaf is that it crosses an array. -/
theorem eq_leafCrossesArray_of_resolveLeaf {v : Value} {leaf : List String} {e : PyError}
    (h : resolveLeaf v leaf = .error e) : ∃ part, e = leafCrossesArray leaf part := by
  rw [resolveLeaf] at h
  split_ifs at h
  cases hcrosses : crosses v leaf with
  | false =>
    rw [resolveHops_of_not_crosses leaf hcrosses] at h
    cases h
  | true =>
    obtain ⟨part, hpart⟩ := resolveHops_of_crosses leaf hcrosses
    exact ⟨part, Except.error.inj (h.symm.trans hpart)⟩

/-! ### The reader -/

/-- **The compiled reader, column by column.** A row is read when every column resolves and is
coerced, and its cells are the columns' in order: the leaf, as it is where it is kept and coerced to
the column's type elsewhere. The reader raises that a column crosses an array exactly when some
column's own resolution raises, and the error is that of the first such column declared. -/
theorem compiled_reader (columns : List ColumnSpec) (ownDepth : ℕ) (value : Value)
    (ancestors : List Value) :
    (∀ cells, readRow (columns.map ColumnSpec.walkSpec) ownDepth value ancestors = .ok cells ↔
      List.Forall₂ (fun column cell => ∃ v, column.resolve ownDepth value ancestors = .ok v ∧
        (column.Kept v → cell = v) ∧ (¬ column.Kept v → coerceScalar v column.type = .ok cell))
        columns cells) ∧
    (∀ leaf part, readRow (columns.map ColumnSpec.walkSpec) ownDepth value ancestors
        = .error (leafCrossesArray leaf part) ↔
      ∃ before column after, columns = before ++ column :: after ∧
        (∀ c ∈ before, ∃ v, c.resolve ownDepth value ancestors = .ok v) ∧
        column.resolve ownDepth value ancestors = .error (leafCrossesArray leaf part)) ∧
    ((∃ leaf part, readRow (columns.map ColumnSpec.walkSpec) ownDepth value ancestors
        = .error (leafCrossesArray leaf part)) ↔
      ∃ column ∈ columns, ∃ e, column.resolve ownDepth value ancestors = .error e) := by
  have hleaf : ∀ spec ∈ columns.map ColumnSpec.walkSpec, spec.leaf ≠ [] := by
    intro spec hspec
    obtain ⟨column, -, rfl⟩ := List.mem_map.mp hspec
    exact leafParts_ne_nil column.leaf
  have hresolve : (columns.map ColumnSpec.walkSpec).mapM (fun spec =>
      resolveLeaf (sourceAt ownDepth value ancestors spec.depth) spec.leaf)
        = columns.mapM fun column => column.resolve ownDepth value ancestors := by
    rw [List.mapM_map]
    rfl
  -- no coercion fails as a crossing does, so a crossing comes from resolving
  have hfirst : ∀ leaf part, readRow (columns.map ColumnSpec.walkSpec) ownDepth value ancestors
      = .error (leafCrossesArray leaf part) ↔ (columns.mapM fun column =>
        column.resolve ownDepth value ancestors) = .error (leafCrossesArray leaf part) := by
    intro leaf part
    rw [readRow_eq hleaf, hresolve]
    cases columns.mapM fun column => column.resolve ownDepth value ancestors with
    | error e => exact Iff.rfl
    | ok row => exact iff_of_false (coercions_ne_crossing _ row leaf part) (by simp)
  refine ⟨fun cells => ?_, fun leaf part => (hfirst leaf part).trans mapM_eq_error_iff, ?_⟩
  · have hcell : ∀ (column : ColumnSpec) v cell, coerceCell column.walkSpec v = .ok cell ↔
        (column.Kept v → cell = v) ∧ (¬ column.Kept v → coerceScalar v column.type = .ok cell) := by
      intro column v cell
      obtain ⟨hkept, hcoerced⟩ := coerceCell_walkSpec column v
      by_cases h : column.Kept v
      · simp [hkept h, h, eq_comm]
      · simp [hcoerced h, h]
    rw [readRow_eq_ok_iff hleaf, List.forall₂_map_left_iff]
    simp only [hcell]
    exact Iff.rfl
  · constructor
    · rintro ⟨leaf, part, h⟩
      obtain ⟨before, column, after, rfl, -, hcolumn⟩ :=
        mapM_eq_error_iff.mp ((hfirst leaf part).mp h)
      exact ⟨column, by simp, _, hcolumn⟩
    · rintro ⟨column, hcolumn, e, he⟩
      cases hmap : columns.mapM fun column => column.resolve ownDepth value ancestors with
      | ok row =>
        obtain ⟨v, hv⟩ := (mapM_eq_ok_iff.mp hmap).exists_of_mem_left hcolumn
        cases he.symm.trans hv.2
      | error e' =>
        obtain ⟨before, first, after, -, -, hfirst'⟩ := mapM_eq_error_iff.mp hmap
        obtain ⟨part, rfl⟩ := eq_leafCrossesArray_of_resolveLeaf hfirst'
        exact ⟨_, part, (hfirst _ part).mpr hmap⟩

/-- A policy number that no double holds, in a column of decimals. -/
def policyColumn : ColumnSpec := ⟨"policy", "id", .float, 0⟩

/-- The reader keeps an integer of a float column, which `_coerce_scalar` makes a float: of the
number here, a different one. -/
theorem compiled_reader_keeps_int : ¬ ∀ (columns : List ColumnSpec) (ownDepth : ℕ) (value : Value)
    (ancestors cells : List Value),
    readRow (columns.map ColumnSpec.walkSpec) ownDepth value ancestors = .ok cells →
      List.Forall₂ (fun column cell => ∃ v, column.resolve ownDepth value ancestors = .ok v ∧
        coerceScalar v column.type = .ok cell) columns cells := by
  intro h
  have hread : readRow ([policyColumn].map ColumnSpec.walkSpec) 0
      (.dict [("id", .int 9007199254740993)]) []
      = .ok [.int 9007199254740993] := by decide
  obtain ⟨⟨v, hv, hcell⟩, -⟩ := List.forall₂_cons.mp (h _ _ _ _ _ hread)
  have hint : policyColumn.resolve 0 (.dict [("id", .int 9007199254740993)]) []
      = .ok (.int 9007199254740993) := by decide
  cases hv.symm.trans hint
  rw [policyColumn, coerceScalar] at hcell
  cases hfloat : floatOfInt 9007199254740993 <;> rw [hfloat] at hcell <;> cases hcell

end Haute
