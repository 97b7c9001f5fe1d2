import Haute.Workbench.AlikeConditions

/-!
# The server and the view hold a condition alike

The rows an index of values gives, the rows passing a list's tests and their total, and so
whether a condition holds: for columns shown as pairs of names on the server and as keys in the
view, `Keyed` says that the two sets tell the schema's columns alike.
-/

namespace Haute.Workbench

open Haute.Data

/-! ### A table's rows -/

section Rows

variable {tables : List SchemaTable} {table : SchemaTable} {column : SchemaColumn} {row : Row}
  {rows found : List Row} {places : List Typed}

theorem findIdx?_of_forall₂ {α β : Type} {R : α → β → Prop} {p : α → Bool}
    {q : β → Bool} {xs : List α}
    {ys : List β} (h : List.Forall₂ R xs ys) (hpq : ∀ x y, x ∈ xs → R x y → p x = q y) :
    xs.findIdx? p = ys.findIdx? q := by
  induction h with
  | nil => rfl
  | @cons x y xs ys hxy _ ih =>
    rw [List.findIdx?_cons, List.findIdx?_cons, hpq x y List.mem_cons_self hxy,
      ih fun x' y' hx' => hpq x' y' (List.mem_cons_of_mem x hx')]

/-- The places a values index gives, as the server types them. -/
structure PlacedBy (column : SchemaColumn) (places : List Typed) : Prop where
  type : column.type = .int ∨ column.type = .str
  stripped : ∀ value ∈ column.options, pyStrip value = value
  typed : List.Forall₂ (fun value place => typedAs column.type value = .ok place)
    column.options places

/-- A place that the server finds is the one the view finds. -/
theorem rowPlace_of_ok (hplaces : PlacedBy column places) {place : Option (Option ℕ)}
    (h : rowPlace column places row = .ok place) :
    place = if filled (Assoc.get? row column.name) then some (View.placeOf column row)
      else none := by
  unfold rowPlace at h
  by_cases hfilled : filled (Assoc.get? row column.name) = true
  · simp only [hfilled, Bool.not_true, Bool.false_eq_true, if_false] at h
    rw [if_pos hfilled, View.placeOf]
    cases hraw : Assoc.get? row column.name with
    | none => simp [hraw, filled] at hfilled
    | some cell =>
      cases cell with
      | tick t =>
        simp only [hraw, pure, Except.pure, Except.ok.injEq] at h
        exact h.symm
      | text text =>
        simp only [hraw, bind, Except.bind] at h
        cases hvalue : typedAs column.type (pyStrip text) with
        | error e => simp [hvalue] at h
        | ok value =>
          simp only [hvalue, pure, Except.pure, Except.ok.injEq] at h
          rw [← h]
          refine congrArg some
            (findIdx?_of_forall₂ hplaces.typed fun option place hmem hoption => ?_).symm
          rw [same_of_typedAs hoption hvalue, hplaces.stripped option hmem,
            indexIdentity_of_typedAs hplaces.type hoption,
              indexIdentity_of_typedAs hplaces.type hvalue]
  · simp only [hfilled, Bool.not_false, if_true, pure, Except.pure, Except.ok.injEq] at h
    rw [if_neg hfilled, ← h]

/-- Where the server places rows the view places them alike. -/
theorem placeRows_of_ok (hplaces : PlacedBy column places)
    {start stop : List (Option Row) × List Row}
    (h : placeRows column places rows start = .ok stop) :
    View.placeRows column rows start = stop := by
  induction rows generalizing start with
  | nil =>
    cases h
    rfl
  | cons row rows ih =>
    obtain ⟨placed, loose⟩ := start
    simp only [placeRows, bind, Except.bind] at h
    cases hplace : rowPlace column places row with
    | error e => simp [hplace] at h
    | ok place =>
      simp only [hplace] at h
      have hspec := rowPlace_of_ok hplaces hplace
      rw [View.placeRows]
      by_cases hfilled : filled (Assoc.get? row column.name) = true
      · rw [if_pos hfilled] at hspec
        subst hspec
        simp only [hfilled, Bool.not_true, Bool.false_eq_true, if_false]
        cases hat : View.placeOf column row with
        | none =>
          simp only [hat] at h
          exact ih h
        | some i =>
          simp only [hat] at h
          exact ih h
      · rw [if_neg hfilled] at hspec
        subst hspec
        simp only [hfilled, Bool.not_false, if_true]
        exact ih h

/-- A table's rows as its index of values gives them. -/
theorem presetRows_of_ok (held : HeldSchema tables) (hmem : table ∈ tables)
    (h : presetRows table rows = .ok found) : View.presetRows table rows = found := by
  unfold presetRows at h
  unfold View.presetRows
  cases hindex : valuesIndex table with
  | none =>
    simp only [hindex, Except.ok.injEq] at h
    exact h
  | some column =>
    simp only [hindex, bind, Except.bind] at h
    have hcolumn : column ∈ table.columns ∧ column.index.isSome := by
      obtain ⟨hfind, -⟩ := Option.filter_eq_some_iff.mp hindex
      exact ⟨List.mem_of_find?_eq_some hfind, by simpa using List.find?_some hfind⟩
    cases hplaces : column.options.mapM (typedAs column.type) with
    | error e => simp [hplaces] at h
    | ok places =>
      have hby : PlacedBy column places :=
        ⟨held.indexes table hmem column hcolumn.1 hcolumn.2,
          held.stripped table hmem column hcolumn.1,
          forall₂_of_mapM hplaces⟩
      simp only [hplaces] at h
      cases hplace : placeRows column places rows (column.options.map fun _ => none, []) with
      | error e =>
        simp only [hplace] at h
        cases h
      | ok stop =>
        simp only [hplace, pure, Except.pure, Except.ok.injEq] at h
        dsimp only
        rw [placeRows_of_ok hby hplace]
        exact h

/-- Where the server finds the typed rows the view finds the same. -/
theorem typedRows_of_ok (held : HeldSchema tables) (hmem : table ∈ tables)
    (h : typedRows table rows = .ok found) : View.typedRows table rows = found := by
  unfold typedRows at h
  simp only [bind, Except.bind] at h
  cases hpreset : presetRows table rows with
  | error e => simp [hpreset] at h
  | ok preset =>
    simp only [hpreset, pure, Except.pure, Except.ok.injEq] at h
    rw [View.typedRows, presetRows_of_ok held hmem hpreset, h]

/-- Where the server finds the numbers of a total the view finds the same. -/
theorem totalNumbers_of_ok {type : ColumnType} {name : String} {numbers : List ℚ}
    (h : totalNumbers type name rows = .ok numbers) :
    View.totalNumbers type name rows = numbers := by
  induction rows generalizing numbers with
  | nil =>
    cases h
    rfl
  | cons row rows ih =>
    simp only [totalNumbers, bind, Except.bind] at h
    rw [View.totalNumbers, List.filterMap_cons]
    cases hcell : Assoc.get? row name with
    | none =>
      simp only [hcell] at h
      exact ih h
    | some cell =>
      cases cell with
      | tick t =>
        simp only [hcell] at h
        exact ih h
      | text text =>
        simp only [hcell] at h
        cases hof : ofType type text with
        | error e => simp [hof] at h
        | ok holds =>
          have hholds := holdsValue_of_ofType hof
          simp only [View.holdsValue] at hholds
          simp only [hof] at h
          -- a blank cell is no number for either
          have hblank : pyStrip text = "" → View.parseTypedNumber (pyStrip text) = none := by
            intro hblank
            rw [hblank]
            rfl
          cases holds with
          | false =>
            simp only [Bool.false_eq_true, if_false] at h
            have hnone : (if View.ofType type (pyStrip text) = true then View.parseTypedNumber
                (pyStrip text) else none) = none := by
              by_cases hempty : pyStrip text = ""
              · rw [hblank hempty, ite_self]
              · simp only [ne_eq, hempty, not_false_eq_true, decide_true, Bool.true_and] at hholds
                rw [hholds]
                rfl
            simp only [hnone]
            exact ih h
          | true =>
            simp only [if_true] at h
            simp only [Bool.and_eq_true] at hholds
            simp only [hholds.2, if_true]
            cases hread : typedAs .float (pyStrip text) with
            | error e => simp [hread] at h
            | ok value =>
              have hvalue := parseTypedNumber_of_typedAs hread
              simp only [hread] at h
              cases hnumber : View.parseTypedNumber (pyStrip text) with
              | none =>
                simp only [hnumber, Option.elim_none] at hvalue
                subst hvalue
                exact ih h
              | some q =>
                simp only [hnumber, Option.elim_some] at hvalue
                subst hvalue
                dsimp only at h
                split at h
                · cases h
                · rename_i rest hrest
                  simp only [pure, Except.pure, Except.ok.injEq] at h
                  rw [← h]
                  exact congrArg (q :: ·) (ih hrest)

/-- Where the server finds a total the view finds the same. -/
theorem totalOf_of_ok {asked : RowTotal} {found : Option PyFloat}
    (h : total table asked rows = .ok found) :
    View.totalOf table asked rows = found := by
  unfold total at h
  rw [View.totalOf, View.columnOf]
  cases hcolumn : table.columns.find? fun column => column.name = asked.column with
  | none => simp [hcolumn] at h
  | some column =>
    simp only [hcolumn, bind, Except.bind] at h
    cases hnumbers : totalNumbers column.type asked.column rows with
    | error e => simp [hnumbers] at h
    | ok numbers =>
      simp only [hnumbers, pure, Except.pure, Except.ok.injEq] at h
      rw [Option.bind_some, totalNumbers_of_ok hnumbers, h]

end Rows

/-! ### What a fitting condition has -/

section Fitting

variable {tables : List SchemaTable} {table : SchemaTable} {type : ColumnType} {test : ValueTest}
  {against : Bool} {other : Option SchemaColumn}

/-- A test that fits is one offered for its type, with legible values or another column. -/
theorem fits_true (h : fits type test against other = .ok true) :
    test.op ∈ testsOf type ∧
      (against = false → ∀ value ∈ test.values, ofType type value = .ok true) ∧
      (against = true → other.isSome) := by
  unfold fits at h
  by_cases hop : test.op ∈ testsOf type
  · rw [if_neg (not_not.mpr hop)] at h
    refine ⟨hop, ?_, ?_⟩
    · rintro rfl
      simp only [Bool.false_eq_true, if_false] at h
      split at h
      · cases h
      · obtain ⟨-, hall⟩ | ⟨-, hfalse⟩ := ite_eq_iff.mp h
        · exact allM_eq_true_iff.mp hall
        · cases hfalse
    · rintro rfl
      cases other with
      | none => simp at h
      | some other => rfl
  · rw [if_pos hop] at h
    cases h

/-- A fitting test of a row is of a column there is. -/
theorem rowTestFits_true {test : RowTest} (h : rowTestFits table test = .ok true) :
    ∃ column, rowColumn table test.column = some column ∧ test.op ∈ testsOf column.type ∧
      (test.field.isSome = false → ∀ value ∈ test.values, ofType column.type value = .ok true) ∧
      ∀ field, test.field = some field → (rowColumn table field).isSome := by
  unfold rowTestFits at h
  split at h
  · cases h
  cases hcolumn : rowColumn table test.column with
  | none => simp [hcolumn] at h
  | some column =>
    simp only [hcolumn] at h
    obtain ⟨hop, hvalues, hother⟩ := fits_true h
    refine ⟨column, rfl, hop, hvalues, fun field hfield => ?_⟩
    simpa [hfield] using hother

/-- What a fitting condition on a list's rows has. -/
theorem listFits_true {condition : ListCondition} (h : listFits table condition = .ok true) :
    (∀ test ∈ condition.tests, rowTestFits table test = .ok true) ∧
      ∀ total, condition.asked = .total total →
        (rowColumn table total.column).isSome ∧ ofType .float total.value = .ok true := by
  unfold listFits at h
  split at h
  · cases h
  simp only [bind, Except.bind] at h
  split at h
  · cases h
  rename_i fit hfit
  cases fit with
  | false => cases h
  | true =>
    simp only [Bool.not_true, Bool.false_eq_true, if_false] at h
    refine ⟨allM_eq_true_iff.mp hfit, fun total htotal => ?_⟩
    simp only [htotal] at h
    split at h
    · cases h
    rename_i column hcolumn
    split at h
    · exact ⟨by rw [hcolumn]; rfl, h⟩
    · cases h

/-- A column named by a fitting condition on a list's rows is the table's. -/
theorem exists_column_of_mem_listColumns {condition : ListCondition}
    (h : listFits table condition = .ok true)
    {name : String} (hname : name ∈ listColumns condition) :
    ∃ column ∈ table.columns, column.name = name := by
  have hrow : ∀ name, (rowColumn table name).isSome → ∃ column ∈ table.columns,
      column.name = name := by
    intro name hsome
    obtain ⟨column, hcolumn⟩ := Option.isSome_iff_exists.mp hsome
    exact ⟨column, List.mem_of_find?_eq_some hcolumn, by have := List.find?_some hcolumn; simp_all⟩
  obtain ⟨htests, htotal⟩ := listFits_true h
  simp only [listColumns, List.mem_append, List.mem_flatMap, List.mem_cons,
    Option.mem_toList] at hname
  obtain ⟨test, htest, rfl | hfield⟩ | hname := hname
  · obtain ⟨column, hcolumn, -⟩ := rowTestFits_true (htests test htest)
    exact hrow _ (by rw [hcolumn]; rfl)
  · obtain ⟨_, -, -, -, hother⟩ := rowTestFits_true (htests test htest)
    exact hrow _ (hother name hfield)
  · cases hasked : condition.asked with
    | total total =>
      rw [hasked, List.mem_singleton] at hname
      rw [hname]
      exact hrow _ (htotal total hasked).1
    | _ => simp [hasked] at hname

/-- Where the server finds the rows that pass the view finds the same. -/
theorem passingRows_of_ok (held : HeldSchema tables) (hmem : table ∈ tables) {tests : List RowTest}
    {rows found : List Row} (htests : ∀ test ∈ tests, rowTestFits table test = .ok true)
    (h : passingRows table tests rows = .ok found) : View.passingRows table tests rows = found := by
  refine filter_of_selectM (fun row _ c hc => ?_) h
  refine all_of_allM (fun test htest c hc => ?_) hc
  obtain ⟨column, hcolumn, hop, hvalues, -⟩ := rowTestFits_true (htests test htest)
  have hfound : (table.columns.reverse.find? fun column => column.name = test.column) =
      some column := by
    rw [find?_reverse_key (held.columnNames table hmem)]
    rw [held.rowColumn_eq hmem] at hcolumn
    exact (Option.filter_eq_some_iff.mp hcolumn).1
  simp only [hfound] at hc ⊢
  exact passes_of_ok hop hvalues hc

end Fitting

/-! ### Keys -/

/-- Names joined by a colon are told apart by it while the ones to the right hold none. -/
theorem append_colon_inj {a b c d : List Char} (hb : ':' ∉ b) (hd : ':' ∉ d)
    (h : a ++ ':' :: b = c ++ ':' :: d) : a = c ∧ b = d := by
  have hreverse := congrArg List.reverse h
  simp only [List.reverse_append, List.reverse_cons, List.append_assoc, List.singleton_append]
    at hreverse
  have htake : ∀ (xs ys : List Char), ':' ∉ xs → (xs ++ ':' :: ys).takeWhile (· ≠ ':') = xs ∧
      (xs ++ ':' :: ys).dropWhile (· ≠ ':') = ':' :: ys := by
    intro xs ys hxs
    have hall : ∀ x ∈ xs, decide (x ≠ ':') = true := fun x hx => by
      simpa using fun hcolon : x = ':' => hxs (hcolon ▸ hx)
    exact ⟨by rw [List.takeWhile_append_of_pos hall]; simp,
      by rw [List.dropWhile_append_of_pos hall]; simp⟩
  obtain ⟨htb, hdb⟩ := htake b.reverse a.reverse (by simpa using hb)
  obtain ⟨htd, hdd⟩ := htake d.reverse c.reverse (by simpa using hd)
  rw [hreverse] at htb hdb
  refine ⟨?_, ?_⟩
  · have := hdb.symm.trans hdd
    simpa using this
  · have := htb.symm.trans htd
    simpa using this

/-- The view's key of a column determines it where no column has a colon. -/
theorem columnKey_inj {t c t' c' : String} (hc : ':' ∉ c.toList) (hc' : ':' ∉ c'.toList)
    (h : View.columnKey t c = View.columnKey t' c') : t = t' ∧ c = c' := by
  have hlist := congrArg String.toList h
  simp only [View.columnKey, String.toList_append] at hlist
  obtain ⟨ht, hc⟩ := append_colon_inj hc hc' (by simpa using hlist)
  exact ⟨String.toList_inj.mp ht, String.toList_inj.mp hc⟩

/-- The keys tell which columns of the schema are shown. -/
def Keyed (shown : Finset (String × String)) (keys : Finset String) : Prop :=
  ∀ table column, ':' ∉ column.toList →
    (View.columnKey table column ∈ keys ↔ (table, column) ∈ shown)

/-! ### Whether a condition holds -/

section Holds

variable {tables : List SchemaTable} {table : SchemaTable} {rows : Rows} {found : List Row}
  {shown : Finset (String × String)}
  {keys : Finset String} {b c : Bool}

/-- View and server agree on whether the columns of a list are shown. -/
theorem listShown_eq (held : HeldSchema tables) (hmem : table ∈ tables) (keyed : Keyed shown keys)
    {condition : ListCondition} (hfits : listFits table condition = .ok true) :
    View.listShown table condition keys = listShown table condition shown := by
  unfold View.listShown listShown
  split
  · rw [Bool.eq_iff_iff, List.all_eq_true, List.all_eq_true]
    refine forall₂_congr fun name hname => ?_
    obtain ⟨column, hcolumn, rfl⟩ := exists_column_of_mem_listColumns hfits hname
    rw [decide_eq_true_iff, decide_eq_true_iff,
      keyed _ _ (held.plainColumns table hmem column hcolumn)]
  · rw [Bool.eq_iff_iff, List.any_eq_true, List.any_eq_true]
    refine exists_congr fun column => and_congr_right fun hcolumn => ?_
    have hplain := held.plainColumns table hmem column (List.mem_append_left _ hcolumn)
    simp only [Bool.and_eq_true, decide_eq_true_iff, keyed _ _ hplain]

/-- What a list's rows are asked, as the view asks it. -/
theorem listAsks_of_ok (held : HeldSchema tables) (hmem : table ∈ tables)
    {condition : ListCondition}
    (hfits : listFits table condition = .ok true) (h : listAsks table condition found = .ok b) :
    View.listAsks table condition found = b := by
  obtain ⟨htests, htotal⟩ := listFits_true hfits
  unfold View.listAsks
  simp only [listAsks, bind, Except.bind] at h
  -- the rows as typed, then those that pass
  split at h
  · cases h
  rename_i typed htyped
  split at h
  · cases h
  rename_i passing hpassing
  rw [typedRows_of_ok held hmem htyped]
  dsimp only
  rw [passingRows_of_ok held hmem htests hpassing]
  cases hasked : condition.asked with
  | rows quantifier =>
    simp only [hasked] at h
    cases quantifier with
    | any => exact Except.ok.inj h
    | every => exact Except.ok.inj h
  | count op count =>
    simp only [hasked] at h
    exact Except.ok.inj h
  | total asked =>
    simp only [hasked] at h
    dsimp only
    split at h
    · cases h
    rename_i found hfound
    -- a total that is not a number holds nothing
    rw [totalOf_of_ok hfound]
    cases found with
    | none => exact Except.ok.inj h
    | some found =>
      dsimp only at h
      split at h
      · cases h
      rename_i wanted hwanted
      have hread := parseTypedNumber_of_typedAs hwanted
      cases hnumber : View.parseTypedNumber (pyStrip asked.value) with
      | none =>
        simp only [hnumber, Option.elim_none] at hread
        subst hread
        simp at h
      | some q =>
        simp only [hnumber, Option.elim_some] at hread
        subst hread
        exact Except.ok.inj h

/-- The rows the view reads under a name are those held. -/
theorem of_rowsOf {name : String} (h : View.rowsOf rows name = .ok found) :
    rows.of name = found := by
  unfold View.rowsOf at h
  unfold Rows.of
  split at h
  · rename_i typed htyped
    rw [htyped, Except.ok.inj h]
    rfl
  · rename_i hnone
    rw [hnone]
    split at h
    · cases h
    · exact Except.ok.inj h

/-- A condition on a list's rows that fits, as the view holds it where it finds the rows. -/
theorem listHolds_of_listAsks (held : HeldSchema tables) (hmem : table ∈ tables)
    (keyed : Keyed shown keys)
    {condition : ListCondition} (hfits : listFits table condition = .ok true)
    (h : (if !listShown table condition shown then (pure false : Except TestError Bool)
      else listAsks table condition (rows.of table.name)) = .ok b)
    (hview : View.listHolds table condition rows keys = .ok c) : c = b := by
  unfold View.listHolds at hview
  rw [listShown_eq held hmem keyed hfits] at hview
  cases hshown : listShown table condition shown with
  | false =>
    simp only [hshown, Bool.not_false, if_true, pure, Except.pure, Except.ok.injEq] at h hview
    rw [← h, hview]
  | true =>
    simp only [hshown, Bool.not_true, Bool.false_eq_true, if_false, bind, Except.bind] at h hview
    split at hview
    · cases hview
    rename_i found hrows
    rw [of_rowsOf hrows] at h
    rw [← Except.ok.inj hview, listAsks_of_ok held hmem hfits h]

/-- A condition on a value depends on the price when its column is an output. -/
theorem onPrice_one (condition : Condition) :
    onPrice tables (.one condition) =
      (View.tableOf tables condition.table).any fun table => table.isOutput condition.column := by
  have hlookup : (tables.find? fun held => held.name = (SingleCondition.one condition).table) =
      View.tableOf tables condition.table := rfl
  unfold onPrice
  rw [hlookup]
  cases View.tableOf tables condition.table <;> rfl

/-- A condition on a list depends on the price when a column of it is an output or its table has no
inputs. -/
theorem onPrice_list (condition : ListCondition) :
    onPrice tables (.list condition) = (View.tableOf tables condition.table).any fun table =>
      (listColumns condition).any table.isOutput || !table.hasInputs := by
  have hlookup : (tables.find? fun held => held.name = (SingleCondition.list condition).table) =
      View.tableOf tables condition.table := rfl
  unfold onPrice
  rw [hlookup]
  cases View.tableOf tables condition.table <;> rfl

/-- The view's condition on a list depends on the price in the same case. -/
theorem view_onPrice_list (condition : ListCondition) :
    View.onPrice tables (.list condition) = (View.tableOf tables condition.table).any fun table =>
      (View.namedColumns condition).any table.isOutput || !table.hasInputs := by
  have hlookup : View.tableOf tables (SingleCondition.list condition).table =
      View.tableOf tables condition.table := rfl
  unfold View.onPrice
  rw [hlookup]
  cases View.tableOf tables condition.table <;> rfl

/-- A one-row table's condition not on the price, through whether it fits. -/
theorem holds_one_eq (held : HeldSchema tables) {condition : Condition}
    (hprice : onPrice tables (.one condition) = false) :
    holds tables rows shown (.one condition) = (do
      if !(← conditionFits tables (.one condition)) then return false
      match testedColumn tables condition.table condition.column with
      | none => return false
      | some column => do
        if !conditionShown condition shown then return false
        passes column.type condition.toValueTest condition.field.isSome
          (firstCell rows condition.table condition.column)
          (condition.field.bind fun field => firstCell rows field.table field.column)) := by
  unfold holds
  rw [hprice, if_neg (by decide)]
  simp only [conditionFits, held.oneRowColumn_eq, held.testedColumn_eq]
  cases htable : View.tableOf tables condition.table with
  | none => rfl
  | some table =>
    obtain ⟨hmem, hname⟩ := HeldSchema.mem_of_tableOf htable
    have hout : table.isOutput condition.column = false := by
      rw [onPrice_one, htable] at hprice
      exact hprice
    rw [Option.filter_some]
    cases hrows : table.rows with
    | many => rfl
    | one =>
      simp only [decide_true, if_true, Option.bind_some, held.find?_inputs hmem]
      cases hcolumn : View.columnOf table condition.column with
      | none => rfl
      | some column =>
        have hcolumn' : column.name = condition.column := (HeldSchema.mem_of_columnOf hcolumn).2
        simp only [Option.map_some, Option.filter_some, hcolumn', hout, Bool.not_false, if_true,
          Bool.false_eq_true, false_and, if_false]

/-- A condition on a value that fits tests a column of a one-row table. -/
theorem conditionFits_one_true (held : HeldSchema tables) {condition : Condition}
    (h : conditionFits tables (.one condition) = .ok true) :
    ∃ table column, View.tableOf tables condition.table = some table ∧ table.rows = .one ∧
      View.columnOf table condition.column = some column ∧
      fits column.type condition.toValueTest condition.field.isSome (otherColumn tables condition) =
        .ok true := by
  simp only [conditionFits, held.oneRowColumn_eq] at h
  cases htable : View.tableOf tables condition.table with
  | none => simp [htable] at h
  | some table =>
    cases hrows : table.rows with
    | many => simp [htable, Option.filter_some, hrows] at h
    | one =>
      cases hcolumn : View.columnOf table condition.column with
      | none => simp [htable, Option.filter_some, hrows, hcolumn] at h
      | some column =>
        simp only [htable, Option.filter_some, hrows, decide_true, if_true,
          Option.bind_some, hcolumn,
          Option.map_some] at h
        split at h
        · cases h
        · exact ⟨table, column, rfl, hrows, hcolumn, h⟩

/-- The name of a tested column has no colon. -/
theorem HeldSchema.plain_of_testedColumn (held : HeldSchema tables) {name column : String}
    (h : (testedColumn tables name column).isSome) : ':' ∉ column.toList := by
  obtain ⟨found, hfound⟩ := Option.isSome_iff_exists.mp h
  rw [held.testedColumn_eq] at hfound
  obtain ⟨table, htable, hinput⟩ := Option.bind_eq_some_iff.mp hfound
  have hmem := (HeldSchema.mem_of_tableOf (Option.filter_eq_some_iff.mp htable).1).1
  have hname : found.name = column := by simpa using List.find?_some hinput
  rw [← hname]
  exact held.plainColumns table hmem found
    (List.mem_append_left _ (List.mem_of_find?_eq_some hinput))

/-- View and server agree on whether the columns of a condition that fits are shown: the view
keeps the text of a shown column where the server keeps the column. -/
theorem conditionShown_eq (held : HeldSchema tables) (keyed : Keyed shown keys)
    {condition : Condition} (hfit : conditionFits tables (.one condition) = .ok true) :
    conditionShown condition shown =
      (decide (View.columnKey condition.table condition.column ∈ keys) &&
        condition.field.all fun field => View.columnKey field.table field.column ∈ keys) := by
  obtain ⟨table, column, htable, -, hcolumn, hfits⟩ := conditionFits_one_true held hfit
  obtain ⟨hmem, -⟩ := HeldSchema.mem_of_tableOf htable
  obtain ⟨hin, hname⟩ := HeldSchema.mem_of_columnOf hcolumn
  obtain ⟨-, -, hother⟩ := fits_true hfits
  have hkey : View.columnKey condition.table condition.column ∈ keys ↔
      (condition.table, condition.column) ∈ shown :=
    keyed _ _ (hname ▸ held.plainColumns table hmem column hin)
  unfold conditionShown
  cases hfield : condition.field with
  | none => simp only [hkey, Option.all_none]
  | some field =>
    have hsome := hother (by rw [hfield]; rfl)
    rw [otherColumn, hfield, Option.bind_some] at hsome
    simp only [hkey, Option.all_some, keyed _ _ (held.plain_of_testedColumn hsome)]

/-- A condition on a one-row table's column, not on the price. -/
theorem testerHolds_one_of_ok (held : HeldSchema tables) (keyed : Keyed shown keys)
    {condition : Condition}
    (hprice : onPrice tables (.one condition) = false)
    (h : holds tables rows shown (.one condition) = .ok b) :
    View.testerHolds tables rows keys (.one condition) = .ok b := by
  rw [holds_one_eq held hprice] at h
  simp only [bind, Except.bind] at h
  unfold View.testerHolds
  cases hfit : conditionFits tables (.one condition) with
  | error e => simp [hfit] at h
  | ok fit =>
    have hfault := conditionFault_of_conditionFits held hfit
    simp only [hfit] at h
    cases fit with
    | false =>
      simp only [Bool.not_false, if_true, pure, Except.pure, Except.ok.injEq] at h
      rw [if_pos (by rw [← Option.not_isNone, hfault]; rfl), h]
    | true =>
      simp only [Bool.not_true, Bool.false_eq_true, if_false] at h
      rw [if_neg (by rw [← Option.not_isNone, hfault]; decide)]
      obtain ⟨table, column, htable, hrows, hcolumn, hfits⟩ := conditionFits_one_true held hfit
      obtain ⟨hmem, -⟩ := HeldSchema.mem_of_tableOf htable
      obtain ⟨-, hname⟩ := HeldSchema.mem_of_columnOf hcolumn
      obtain ⟨hop, hvalues, -⟩ := fits_true hfits
      have hout : table.isOutput condition.column = false := by
        rw [onPrice_one, htable] at hprice
        exact hprice
      have htested : testedColumn tables condition.table condition.column = some column := by
        rw [held.testedColumn_eq, htable]
        simp [Option.filter_some, hrows, held.find?_inputs hmem, hcolumn, hname, hout]
      have htester : (SingleCondition.one condition).table = condition.table := rfl
      have hfields : (condition.field.any fun field =>
          View.columnKey field.table field.column ∉ keys) =
          !condition.field.all fun field => View.columnKey field.table field.column ∈ keys := by
        cases condition.field <;> simp
      rw [htester, htable]
      simp only [htested, conditionShown_eq held keyed hfit] at h
      simp only [hfields, hcolumn]
      -- both test the condition when its column is shown, and its field if it has one
      by_cases hkey : View.columnKey condition.table condition.column ∈ keys
      · cases hall : condition.field.all fun field => View.columnKey field.table field.column ∈ keys
        with
        | false => simpa [hkey, hall, pure, Except.pure] using h
        | true =>
          simp only [hkey, hall, decide_true, Bool.and_self, Bool.not_true, Bool.false_eq_true,
            if_false] at h
          simp only [hkey, not_true_eq_false, Bool.not_true, Bool.false_eq_true, if_false]
          exact congrArg Except.ok (passes_of_ok hop hvalues h)
      · simpa [hkey, pure, Except.pure] using h

/-- A condition on a list's rows, not on the price. -/
theorem testerHolds_list_of_ok (held : HeldSchema tables) (keyed : Keyed shown keys)
    {condition : ListCondition}
    (h : listHolds tables condition rows shown = .ok b)
    (hview : View.testerHolds tables rows keys (.list condition) = .ok c) : c = b := by
  have hlist : conditionFits tables (.list condition) =
      (listTable tables condition).elim (.ok false) fun table => listFits table condition := by
    simp only [conditionFits]
    cases listTable tables condition <;> rfl
  unfold listHolds at h
  unfold View.testerHolds at hview
  cases hlookup : listTable tables condition with
  | none =>
    simp only [hlookup, Except.ok.injEq] at h
    rw [hlookup] at hlist
    have hfault := conditionFault_of_conditionFits held hlist
    rw [if_pos (by rw [← Option.not_isNone, hfault]; rfl)] at hview
    rw [← h, Except.ok.inj hview]
  | some table =>
    simp only [hlookup, bind, Except.bind] at h
    rw [hlookup] at hlist
    cases hfit : listFits table condition with
    | error e => simp [hfit] at h
    | ok fit =>
      have hfault := conditionFault_of_conditionFits held (hlist.trans hfit)
      simp only [hfit] at h
      cases fit with
      | false =>
        simp only [Bool.not_false, if_true, pure, Except.pure, Except.ok.injEq] at h
        rw [if_pos (by rw [← Option.not_isNone, hfault]; rfl)] at hview
        rw [← h, Except.ok.inj hview]
      | true =>
        simp only [Bool.not_true, Bool.false_eq_true, if_false] at h
        rw [if_neg (by rw [← Option.not_isNone, hfault]; decide)] at hview
        rw [held.listTable_eq] at hlookup
        obtain ⟨htable, -⟩ := Option.filter_eq_some_iff.mp hlookup
        have htester : (SingleCondition.list condition).table = condition.table := rfl
        rw [htester, htable] at hview
        exact listHolds_of_listAsks held (HeldSchema.mem_of_tableOf htable).1 keyed hfit h hview

/-- A condition the server takes as on the price, and the view does not, holds for neither. -/
theorem testerHolds_of_onPrice (held : HeldSchema tables) {condition : SingleCondition}
    (hserver : onPrice tables condition = true) (hview : View.onPrice tables condition = false)
    (h : conditionFits tables condition = .ok b) :
    View.testerHolds tables rows keys condition = .ok b := by
  have hfault := conditionFault_of_conditionFits held h
  unfold View.testerHolds
  cases hnone : View.conditionFault tables condition with
  | some fault =>
    rw [hnone] at hfault
    exact congrArg Except.ok hfault
  | none =>
    -- nothing stops it, so the columns its tests are against are inputs, as the tests' own are
    exfalso
    cases condition with
    | one condition =>
      have hsame : View.onPrice tables (.one condition) = onPrice tables (.one condition) := rfl
      rw [hsame, hserver] at hview
      cases hview
    | list condition =>
      rw [onPrice_list] at hserver
      rw [view_onPrice_list] at hview
      cases htable : View.tableOf tables condition.table with
      | none => simp [htable] at hserver
      | some table =>
        simp only [htable, Option.any_some, Bool.or_eq_false_iff] at hview hserver
        rw [hview.2, Bool.or_false] at hserver
        have htests : ∀ test ∈ condition.tests, View.rowTestFault table test = none := by
          simp only [View.conditionFault, View.listFault, htable] at hnone
          split_ifs at hnone
          split at hnone
          · cases hnone
          · rename_i hfirst _
            exact List.findSome?_eq_none_iff.mp hfirst
          · rename_i hfirst _
            exact List.findSome?_eq_none_iff.mp hfirst
        have hmem :=
          (mem_map_listColumns_iff htests true).mp (by simpa [List.any_eq_true] using hserver)
        have hany : (View.namedColumns condition).any table.isOutput = true := by
          simpa [List.any_eq_true] using hmem
        rw [hany] at hview
        exact absurd hview.1 (by decide)

/-- What the view takes as on the price, the server does. -/
theorem onPrice_of_view {condition : SingleCondition} (h : View.onPrice tables condition = true) :
    onPrice tables condition = true := by
  cases condition with
  | one condition => exact h
  | list condition =>
    rw [view_onPrice_list] at h
    rw [onPrice_list]
    cases htable : View.tableOf tables condition.table with
    | none => simp [htable] at h
    | some table =>
      simp only [htable, Option.any_some, Bool.or_eq_true] at h ⊢
      refine h.imp_left fun hany => ?_
      rw [List.any_eq_true] at hany ⊢
      obtain ⟨name, hname, hout⟩ := hany
      refine ⟨name, ?_, hout⟩
      simp only [View.namedColumns, listColumns, List.mem_append, List.mem_map, List.mem_flatMap]
        at hname ⊢
      refine hname.imp_left ?_
      rintro ⟨test, htest, hcolumn⟩
      exact ⟨test, htest, by simp [hcolumn]⟩

/-- A condition holds on the server exactly when it holds in the view, wherever both answer. -/
theorem holds_of_ok (held : HeldSchema tables) (keyed : Keyed shown keys)
    {condition : SingleCondition}
    (h : holds tables rows shown condition = .ok b)
    (hview : View.holds tables rows keys condition = .ok c) : c = b := by
  unfold View.holds at hview
  cases hserver : onPrice tables condition with
  | true =>
    have hfits : conditionFits tables condition = .ok b := by
      unfold holds at h
      rw [hserver] at h
      exact h
    split at hview
    · rw [← Except.ok.inj hview]
      exact conditionFault_of_conditionFits held hfits
    · rename_i hprice
      rw [testerHolds_of_onPrice held hserver (Bool.eq_false_iff.mpr hprice) hfits] at hview
      exact (Except.ok.inj hview).symm
  | false =>
    rw [if_neg fun hprice => by rw [onPrice_of_view hprice] at hserver; cases hserver] at hview
    cases condition with
    | one condition =>
      rw [testerHolds_one_of_ok held keyed hserver h] at hview
      exact (Except.ok.inj hview).symm
    | list condition =>
      unfold holds at h
      rw [hserver] at h
      exact testerHolds_list_of_ok held keyed h hview

/-- A `show_when` passes on the server exactly when it passes in the view, wherever both answer. -/
theorem showWhenPasses_of_ok (held : HeldSchema tables) (keyed : Keyed shown keys)
    {showWhen : ShowWhen}
    (h : shows tables rows shown showWhen = .ok b)
    (hview : View.showWhenPasses showWhen (View.holds tables rows keys) = .ok c) : c = b := by
  unfold shows ShowWhen.asked at h
  unfold View.showWhenPasses ShowWhen.asked at hview
  split at h
  · rename_i hnone
    rw [if_pos hnone] at hview
    rw [← Except.ok.inj h, Except.ok.inj hview]
  · rename_i hsome
    rw [if_neg hsome] at hview
    refine matchesM_agree (fun entry _ b c hb hc => ?_) h hview
    cases entry with
    | one condition => exact holds_of_ok held keyed hb hc
    | group holding conditions =>
      exact matchesM_agree (fun condition _ b c hb hc => holds_of_ok held keyed hb hc) hb hc

/-! ### What the view can ask -/

/-- The view finds the columns of a list's condition shown where more columns show. -/
theorem view_listShown_mono {fewer more : Finset String} (hsub : fewer ⊆ more)
    {condition : ListCondition}
    (h : View.listShown table condition fewer = true) :
    View.listShown table condition more = true := by
  unfold View.listShown at h ⊢
  split
  · rename_i hsome
    rw [if_pos hsome, List.all_eq_true] at h
    rw [List.all_eq_true]
    exact fun column hcolumn => decide_eq_true (hsub (of_decide_eq_true (h column hcolumn)))
  · rename_i hnone
    rw [if_neg hnone, List.any_eq_true] at h
    rw [List.any_eq_true]
    obtain ⟨column, hcolumn, hshown⟩ := h
    simp only [Bool.and_eq_true, decide_eq_true_eq] at hshown
    exact ⟨column, hcolumn, by simp [hshown.1, hsub hshown.2]⟩

/-- What the view can ask while more columns show it can ask while fewer do. -/
theorem exists_view_holds_of_subset {fewer more : Finset String} (hsub : fewer ⊆ more)
    {condition : SingleCondition} (h : ∃ b, View.holds tables rows more condition = .ok b) :
    ∃ b, View.holds tables rows fewer condition = .ok b := by
  unfold View.holds View.testerHolds at h ⊢
  split
  · exact ⟨_, rfl⟩
  · rename_i hprice
    rw [if_neg hprice] at h
    split
    · exact ⟨_, rfl⟩
    · rename_i hfits
      rw [if_neg hfits] at h
      split
      · exact ⟨_, rfl⟩
      · rename_i table condition htable
        rw [htable] at h
        dsimp only at h
        unfold View.listHolds at h ⊢
        cases hshown : View.listShown table condition fewer with
        | false => exact ⟨false, rfl⟩
        | true =>
          rw [view_listShown_mono hsub hshown] at h
          obtain ⟨b, hb⟩ := h
          exact ⟨b, hb⟩
      · -- a one-row table's condition is always answered
        split
        · exact ⟨_, rfl⟩
        · split
          · exact ⟨_, rfl⟩
          · split <;> exact ⟨_, rfl⟩

end Holds

end Haute.Workbench
