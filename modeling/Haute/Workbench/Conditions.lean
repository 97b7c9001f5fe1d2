import Haute.Workbench.Typed

/-!
# When a condition holds

`_workbench_visibility` up to `_shows`: whether a test fits its column, whether a cell passes
it, and whether a condition holds for the values typed while some columns show.

A test reads the values typed and never what shows; what shows only decides whether a
condition's columns count. So `holds` on fewer shown columns either answers no or answers as
it did: it can lose its answer yes, and an error, but never turns a no into a yes.
`shows_anti` is that fact for a whole `show_when`, in any order of its conditions.
-/

namespace Haute.Workbench

open Haute.Data

/-! ### Whether a test fits -/

section Tests

open ConditionTest

/-- `_TESTS`: the tests each column type takes. -/
def testsOf : ColumnType → List ConditionTest
  | .bool => [ticked, notTicked]
  | .str => [.filled, empty, equals, notEquals, contains, notContains, startsWith, endsWith,
    oneOf, notOneOf]
  | .int | .float =>
    [.filled, empty, equals, notEquals, oneOf, notOneOf, above, atLeast, below, atMost]
  | .date => [.filled, empty, equals, notEquals, above, atLeast, below, atMost]

/-- `_NO_VALUES`. -/
def noValues : List ConditionTest := [ticked, notTicked, .filled, empty]

/-- `_CHOICES`. -/
def choices : List ConditionTest := [oneOf, notOneOf]

/-- `_TEXT`. -/
def textTests : List ConditionTest := [contains, notContains, startsWith, endsWith]

/-- `_ONE_VALUE`. -/
def oneValue : List ConditionTest :=
  [above, atLeast, below, atMost] ++ textTests ++ [equals, notEquals]

/-- `_NEGATED`. -/
def negated : List ConditionTest := [notEquals, notContains]

/-- `_COMPARISONS`, a missing one raising. -/
def comparison : ConditionTest → Except TestError (Ordering → Bool)
  | above => .ok fun o => o = .gt
  | atLeast => .ok fun o => o ≠ .lt
  | below => .ok fun o => o = .lt
  | atMost => .ok fun o => o ≠ .gt
  | _ => .error (.key "op")

end Tests

/-- `_fits`: whether a test of a column of the type can hold as written; `against` says that
it tests against another field, `other` being that field's column. -/
def fits (type : ColumnType) (test : ValueTest) (against : Bool) (other : Option SchemaColumn) :
    Except TestError Bool :=
  if test.op ∉ testsOf type then .ok false
  else if against then
    .ok (decide (test.op ∈ oneValue) && test.values.isEmpty &&
      other.any (fun column => column.type = type) && (test.days = 0 || type = .date))
  else if test.days ≠ 0 then .ok false
  else
    let counted :=
      if test.op ∈ noValues then test.values.length = 0
      else if test.op ∈ choices then 1 ≤ test.values.length
      else test.values.length = 1
    if counted then test.values.allM (ofType type) else .ok false

/-! ### Whether a cell passes -/

/-- `_equals_any`. -/
def equalsAny (type : ColumnType) (cell : Option Cell) (values : List String) :
    Except TestError Bool :=
  match cell with
  | some (.text text) =>
    if filled cell then do
      let typed ← typedAs type (pyStrip text)
      values.anyM fun value => return typed.same (← typedAs type (pyStrip value))
    else .ok false
  | _ => .ok false

/-- `_text_passes`. -/
def textPasses (op : ConditionTest) (cell : Option Cell) (value : String) : Bool :=
  match cell with
  | some (.text text) =>
    if filled cell then
      let text := (pyStrip text).toList
      let part := (pyStrip value).toList
      match op with
      | .contains => decide (part <:+: text)
      | .notContains => decide ¬ (part <:+: text)
      | .startsWith => decide (part <+: text)
      | _ => decide (part <:+ text)
    else op = .notContains
  | _ => op = .notContains

/-- `_day_passes`. -/
def dayPasses (op : ConditionTest) (cell : Option Cell) (day : String) (days : ℤ) :
    Except TestError Bool :=
  match cell with
  | some (.text text) =>
    if isDay (pyStrip text) then
      let found := dayNumber (pyStrip text)
      let wanted := dayNumber (pyStrip day) + days
      match op with
      | .equals => .ok (found = wanted)
      | .notEquals => .ok (found ≠ wanted)
      | op => return (← comparison op) (compare found wanted)
    else .ok (op = .notEquals)
  | _ => .ok (op = .notEquals)

/-- A test of one value, that value found. -/
def valuePasses (type : ColumnType) (op : ConditionTest) (cell : Option Cell) (value : String) :
    Except TestError Bool :=
  match op with
  | .equals => equalsAny type cell [value]
  | .notEquals => return !(← equalsAny type cell [value])
  | op =>
    if op ∈ textTests then .ok (textPasses op cell value)
    else
      match cell with
      | some (.text text) => do
        if !(← ofType type text) then return false
        let compares ← comparison op
        let found ← typedAs type (pyStrip text)
        let wanted ← typedAs type (pyStrip value)
        return compares (← found.compareTo wanted)
      | _ => .ok false

/-- `_passes`: whether a fitting test passes a cell, against the values typed or, for a test
against another field, the value typed into that field. -/
def passes (type : ColumnType) (test : ValueTest) (against : Bool) (cell other : Option Cell) :
    Except TestError Bool :=
  match test.op with
  | .ticked => .ok (cell = some (.tick true))
  | .notTicked => .ok (cell ≠ some (.tick true))
  | .filled => .ok (filled cell)
  | .empty => .ok (!filled cell)
  | .oneOf => equalsAny type cell test.values
  | .notOneOf => return !(← equalsAny type cell test.values)
  | op =>
    if against then
      match other with
      | some (.text value) => do
        if ← ofType type value then
          if type = .date then dayPasses op cell value test.days
          else valuePasses type op cell value
        else return decide (op ∈ negated)
      | _ => .ok (decide (op ∈ negated))
    else
      match test.values with
      | value :: _ => valuePasses type op cell value
      | [] => .error .index

/-! ### Columns a condition names -/

/-- `_tested_column`: a one-row table's input. -/
def testedColumn (tables : List SchemaTable) (table column : String) : Option SchemaColumn :=
  ((tables.filter fun held => held.name = table ∧ held.rows = .one).flatMap
    SchemaTable.inputs).find?
    fun held => held.name = column

/-- `_one_row_column`: a one-row table's column with its table. -/
def oneRowColumn (tables : List SchemaTable) (table column : String) :
    Option (SchemaTable × SchemaColumn) :=
  ((tables.filter fun held => held.name = table ∧ held.rows = .one).flatMap fun held =>
    held.columns.map fun column => (held, column)).find? fun found => found.2.name = column

/-- `_other_column`. -/
def otherColumn (tables : List SchemaTable) (condition : Condition) : Option SchemaColumn :=
  condition.field.bind fun field => testedColumn tables field.table field.column

/-- `_list_table`. -/
def listTable (tables : List SchemaTable) (condition : ListCondition) : Option SchemaTable :=
  tables.find? fun table => table.name = condition.table ∧ table.rows = .many

/-- `_list_columns`. -/
def listColumns (condition : ListCondition) : List String :=
  condition.tests.flatMap (fun test => test.column :: test.field.toList) ++
    match condition.asked with
    | .total total => [total.column]
    | _ => []

/-- `_row_column`. -/
def rowColumn (table : SchemaTable) (name : String) : Option SchemaColumn :=
  table.columns.find? fun column => column.name = name ∧ column.index ≠ some .numbered

/-- Whether one test of a row fits. -/
def rowTestFits (table : SchemaTable) (test : RowTest) : Except TestError Bool :=
  if test.field.any fun field => table.isOutput test.column || table.isOutput field then .ok false
  else
    match rowColumn table test.column with
    | none => .ok false
    | some column => fits column.type test.toValueTest test.field.isSome
      (test.field.bind (rowColumn table))

/-- `_list_fits`. -/
def listFits (table : SchemaTable) (condition : ListCondition) : Except TestError Bool := do
  if ((listColumns condition).map table.isOutput).dedup.length > 1 then return false
  if !(← condition.tests.allM (rowTestFits table)) then return false
  match condition.asked with
  | .total total =>
    match rowColumn table total.column with
    | none => return false
    | some column =>
      if column.type = .int ∨ column.type = .float then ofType .float total.value else return false
  | _ => return true

/-- `condition_fits`. -/
def conditionFits (tables : List SchemaTable) (condition : SingleCondition) :
    Except TestError Bool :=
  match condition with
  | .one condition =>
    match oneRowColumn tables condition.table condition.column with
    | none => .ok false
    | some (own, column) =>
      if own.isOutput column.name ∧ condition.field.isSome then .ok false
      else fits column.type condition.toValueTest condition.field.isSome
        (otherColumn tables condition)
  | .list condition =>
    match listTable tables condition with
    | none => .ok false
    | some table => listFits table condition

/-- The table a condition names. -/
def SingleCondition.table : SingleCondition → String
  | one condition => condition.table
  | list condition => condition.table

/-- `_on_price`. -/
def onPrice (tables : List SchemaTable) (condition : SingleCondition) : Bool :=
  match tables.find? fun held => held.name = condition.table with
  | none => false
  | some table =>
    match condition with
    | .one condition => table.isOutput condition.column
    | .list condition => (listColumns condition).any table.isOutput || !table.hasInputs

/-! ### Whether a condition holds -/

/-- `_first_cell`. -/
def firstCell (rows : Rows) (table column : String) : Option Cell :=
  (rows.of table).head?.bind fun row => Assoc.get? row column

/-- `_passing_rows`. -/
def passingRows (table : SchemaTable) (tests : List RowTest) (rows : List Row) :
    Except TestError (List Row) :=
  selectM (fun row => tests.allM fun test => do
    -- a dict of the columns' types by name: the last column of a name gives its type
    match table.columns.reverse.find? fun column => column.name = test.column with
    | none => .error (.key test.column)
    | some column =>
      passes column.type test.toValueTest test.field.isSome (Assoc.get? row test.column)
        (test.field.bind (Assoc.get? row))) rows

/-- The numbers a total's column holds in the rows. -/
def totalNumbers (type : ColumnType) (column : String) : List Row → Except TestError (List ℚ)
  | [] => .ok []
  | row :: rows => do
    match Assoc.get? row column with
    | some (.text cell) =>
      if ← ofType type cell then
        match ← typedAs .float (pyStrip cell) with
        | .decimal q => return q :: (← totalNumbers type column rows)
        | _ => totalNumbers type column rows
      else totalNumbers type column rows
    | _ => totalNumbers type column rows

/-- `_total`. -/
def total (table : SchemaTable) (asked : RowTotal) (rows : List Row) :
    Except TestError (Option PyFloat) :=
  match table.columns.find? fun column => column.name = asked.column with
  | none => .error .stop
  | some column => return totalOf asked.total (← totalNumbers column.type asked.column rows)

/-- `_typed_rows`: the rows with anything but a numbered index in them. -/
def typedRows (table : SchemaTable) (rows : List Row) : Except TestError (List Row) := do
  return (← presetRows table rows).filter fun row =>
    table.inputs.any fun column =>
      column.index ≠ some .numbered && filled (Assoc.get? row column.name)

/-- What a condition on a list's rows asks, of the table's typed rows. -/
def listAsks (table : SchemaTable) (condition : ListCondition) (rows : List Row) :
    Except TestError Bool := do
  let typed ← typedRows table rows
  let passing ← passingRows table condition.tests typed
  match condition.asked with
  | .rows .any => return !passing.isEmpty
  | .rows .every => return !typed.isEmpty && passing.length = typed.length
  | .count op count => return countPasses op (some (compare passing.length count))
  | .total asked =>
    match ← total table asked passing with
    | none => return false
    | some found =>
      match ← typedAs .float (pyStrip asked.value) with
      | .decimal wanted => return countPasses asked.op (compareFloat found wanted)
      | _ => .error .type

/-- Whether the columns a list's condition needs shown do show. -/
def listShown (table : SchemaTable) (condition : ListCondition)
    (shown : Finset (String × String)) : Bool :=
  if listColumns condition ≠ [] then (listColumns condition).all fun column =>
    (table.name, column) ∈ shown
  else table.inputs.any fun column => column.index ≠ some .numbered &&
    (table.name, column.name) ∈ shown

/-- `_list_holds`. -/
def listHolds (tables : List SchemaTable) (condition : ListCondition) (rows : Rows)
    (shown : Finset (String × String)) : Except TestError Bool :=
  match listTable tables condition with
  | none => .ok false
  | some table => do
    if !(← listFits table condition) then return false
    if !listShown table condition shown then return false
    listAsks table condition (rows.of table.name)

/-- Whether the columns a one-row table's condition needs shown do show. -/
def conditionShown (condition : Condition) (shown : Finset (String × String)) : Bool :=
  (condition.table, condition.column) ∈ shown &&
    condition.field.all fun field => (field.table, field.column) ∈ shown

/-- `_holds`. -/
def holds (tables : List SchemaTable) (rows : Rows) (shown : Finset (String × String))
    (condition : SingleCondition) : Except TestError Bool :=
  if onPrice tables condition then conditionFits tables condition
  else
    match condition with
    | .list condition => listHolds tables condition rows shown
    | .one condition =>
      match testedColumn tables condition.table condition.column with
      | none => .ok false
      | some column => do
        if !(← fits column.type condition.toValueTest condition.field.isSome
          (otherColumn tables condition)) then
          return false
        if !conditionShown condition shown then return false
        passes column.type condition.toValueTest condition.field.isSome
          (firstCell rows condition.table condition.column)
          (condition.field.bind fun field => firstCell rows field.table field.column)

/-- Whether an entry of a `show_when` passes, its conditions asked so: `_holds` or
`_group_holds`. -/
def ShowWhenEntry.asked {ε : Type} (ask : SingleCondition → Except ε Bool) : ShowWhenEntry →
    Except ε Bool
  | .one condition => ask condition
  | .group holding conditions => matchesM ask holding conditions

/-- Whether a `show_when` passes, its conditions asked so: without conditions it does. -/
def ShowWhen.asked {ε : Type} (ask : SingleCondition → Except ε Bool) (showWhen : ShowWhen) :
    Except ε Bool :=
  if showWhen.conditions = [] then .ok true
  else matchesM (ShowWhenEntry.asked ask) showWhen.holding showWhen.conditions

/-- `_shows`. -/
def shows (tables : List SchemaTable) (rows : Rows) (shown : Finset (String × String))
    (showWhen : ShowWhen) : Except TestError Bool :=
  showWhen.asked (holds tables rows shown)

section Asked

variable {ε : Type} {ask : SingleCondition → Except ε Bool} {showWhen : ShowWhen}
  {condition : SingleCondition}

/-- Conditions that can each be asked can be asked together. -/
theorem ShowWhen.exists_asked (h : ∀ condition ∈ showWhen.singles, ∃ b, ask condition = .ok b) :
    ∃ b, showWhen.asked ask = .ok b := by
  unfold ShowWhen.asked
  split
  · exact ⟨true, rfl⟩
  · refine matchesM_ok _ fun entry hentry => ?_
    have hsingles : ∀ condition ∈ entry.singles, ∃ b, ask condition = .ok b :=
      fun condition hc => h condition (List.mem_flatMap.mpr ⟨entry, hentry, hc⟩)
    cases entry with
    | one condition => exact hsingles condition List.mem_cons_self
    | group holding conditions => exact matchesM_ok holding hsingles

/-- The entry asks the condition before any other. -/
def ShowWhenEntry.AsksFirst (condition : SingleCondition) : ShowWhenEntry → Prop
  | .one first => first = condition
  | .group _ conditions => conditions.head? = some condition

/-- The condition is asked before any other. -/
def ShowWhen.AsksFirst (condition : SingleCondition) (showWhen : ShowWhen) : Prop :=
  ∃ entry entries, showWhen.conditions = entry :: entries ∧ entry.AsksFirst condition

/-- What asks a condition first cannot be asked where that condition cannot. -/
theorem ShowWhen.AsksFirst.asked_error {e : ε} (hfirst : showWhen.AsksFirst condition)
    (he : ask condition = .error e) : showWhen.asked ask = .error e := by
  obtain ⟨entry, entries, hconditions, hasks⟩ := hfirst
  rw [ShowWhen.asked, if_neg (by simp [hconditions]), hconditions]
  refine matchesM_error_of_head showWhen.holding ?_
  cases entry with
  | one first =>
    obtain rfl := hasks
    exact he
  | group m conditions =>
    obtain ⟨rest, rfl⟩ := List.head?_eq_some_iff.mp hasks
    exact matchesM_error_of_head m he

/-- An order of the conditions that asks a given one first. -/
theorem ShowWhen.exists_first (h : condition ∈ showWhen.singles) :
    ∃ first : ShowWhen, showWhen.Reordered first ∧ first.AsksFirst condition := by
  obtain ⟨entry, hentry, hc⟩ := List.mem_flatMap.mp h
  -- the entry asked first, with the condition first in it
  obtain ⟨entry', hreordered, hfirst⟩ : ∃ entry' : ShowWhenEntry, entry.Reordered entry' ∧
      entry'.AsksFirst condition := by
    cases entry with
    | one c =>
      rcases List.mem_singleton.mp hc with rfl
      exact ⟨.one condition, rfl, rfl⟩
    | group m cs =>
      obtain ⟨before, after, rfl⟩ := List.append_of_mem (show condition ∈ cs from hc)
      exact ⟨.group m (condition :: (before ++ after)), ⟨rfl, List.perm_middle⟩, rfl⟩
  obtain ⟨before, after, hconditions⟩ := List.append_of_mem hentry
  refine ⟨⟨showWhen.holding, entry' :: (before ++ after)⟩, ⟨rfl, ?_⟩, _, _, rfl, hfirst⟩
  rw [hconditions]
  refine ⟨before ++ entry' :: after, ?_, List.perm_middle⟩
  exact List.rel_append (List.forall₂_same.mpr fun x _ => .refl x)
    (.cons hreordered (List.forall₂_same.mpr fun x _ => .refl x))

end Asked

/-! ### Hiding never makes a condition hold -/

section Anti

variable {tables : List SchemaTable} {rows : Rows} {fewer more : Finset (String × String)}

theorem conditionShown_mono (h : fewer ⊆ more) {condition : Condition}
    (hshown : conditionShown condition fewer = true) : conditionShown condition more = true := by
  simp only [conditionShown, Bool.and_eq_true, decide_eq_true_eq] at hshown ⊢
  refine ⟨h hshown.1, ?_⟩
  cases hfield : condition.field with
  | none => rfl
  | some field =>
    simp only [hfield, Option.all_some, decide_eq_true_eq] at hshown ⊢
    exact h hshown.2

theorem listShown_mono (h : fewer ⊆ more) {table : SchemaTable} {condition : ListCondition}
    (hshown : listShown table condition fewer = true) : listShown table condition more = true := by
  unfold listShown at hshown ⊢
  split
  · rename_i hcolumns
    rw [if_pos hcolumns] at hshown
    simp only [List.all_eq_true, decide_eq_true_eq] at hshown ⊢
    exact fun column hmem => h (hshown column hmem)
  · rename_i hcolumns
    rw [if_neg hcolumns] at hshown
    simp only [List.any_eq_true, Bool.and_eq_true, decide_eq_true_eq] at hshown ⊢
    obtain ⟨column, hmem, hindex, hin⟩ := hshown
    exact ⟨column, hmem, hindex, h hin⟩

theorem listHolds_eq_or (h : fewer ⊆ more) (condition : ListCondition) :
    listHolds tables condition rows fewer = .ok false ∨
      listHolds tables condition rows fewer = listHolds tables condition rows more := by
  unfold listHolds
  cases listTable tables condition with
  | none => exact .inl rfl
  | some table =>
    dsimp only
    cases hfits : listFits table condition with
    | error e => exact .inr rfl
    | ok fit =>
      cases fit with
      | false => exact .inl rfl
      | true =>
        cases hshown : listShown table condition fewer with
        | false => exact .inl rfl
        | true =>
          rw [listShown_mono h hshown]
          exact .inr rfl

/-- On fewer shown columns a condition does not hold, or it is as it was. -/
theorem holds_eq_or (h : fewer ⊆ more) (condition : SingleCondition) :
    holds tables rows fewer condition = .ok false ∨
      holds tables rows fewer condition = holds tables rows more condition := by
  unfold holds
  by_cases hprice : onPrice tables condition = true
  · rw [if_pos hprice, if_pos hprice]
    exact .inr rfl
  · rw [if_neg hprice, if_neg hprice]
    cases condition with
    | list condition => exact listHolds_eq_or h condition
    | one condition =>
      dsimp only
      cases testedColumn tables condition.table condition.column with
      | none => exact .inl rfl
      | some column =>
        dsimp only
        cases fits column.type condition.toValueTest condition.field.isSome
          (otherColumn tables condition) with
        | error e => exact .inr rfl
        | ok fit =>
          cases fit with
          | false => exact .inl rfl
          | true =>
            cases hshown : conditionShown condition fewer with
            | false => exact .inl rfl
            | true =>
              rw [conditionShown_mono h hshown]
              exact .inr rfl

theorem holds_anti (h : fewer ⊆ more) {condition : SingleCondition}
    (hmore : holds tables rows more condition = .ok false) :
    holds tables rows fewer condition ≠ .ok true := by
  intro hfewer
  rcases holds_eq_or h condition with hfalse | hsame
  · rw [hfalse] at hfewer
    cases hfewer
  · rw [← hsame, hfewer] at hmore
    cases hmore

/-- What can be asked while more shows can be asked while less does. -/
theorem holds_ok_of_subset (h : fewer ⊆ more) {condition : SingleCondition}
    (hmore : ∃ b, holds tables rows more condition = .ok b) :
    ∃ b, holds tables rows fewer condition = .ok b := by
  rcases holds_eq_or h condition with hfalse | hsame
  · exact ⟨false, hfalse⟩
  · exact hsame ▸ hmore

theorem asked_anti (h : fewer ⊆ more) {x y : ShowWhenEntry} (hxy : x.Reordered y)
    (hmore : x.asked (holds tables rows more) = .ok false) :
    y.asked (holds tables rows fewer) ≠ .ok true := by
  cases x with
  | one c =>
    cases y with
    | one d =>
      cases hxy
      exact holds_anti h hmore
    | group n ds => exact hxy.elim
  | group m cs =>
    cases y with
    | one d => exact hxy.elim
    | group n ds =>
      obtain ⟨rfl, hperm⟩ := hxy
      refine matchesM_anti (R := Eq) m (.of_perm (fun _ => rfl) hperm) ?_ hmore
      rintro c _ - - rfl
      exact holds_anti h

/-- What does not show while more shows does not show while less does, in any order of its
conditions. -/
theorem shows_anti (h : fewer ⊆ more) {x y : ShowWhen} (hxy : x.Reordered y)
    (hmore : shows tables rows more x = .ok false) : shows tables rows fewer y ≠ .ok true := by
  unfold shows ShowWhen.asked at hmore ⊢
  by_cases hx : x.conditions = []
  · simp [hx] at hmore
  · have hy : y.conditions ≠ [] := by
      intro hy
      obtain ⟨entry, hentry⟩ := List.exists_mem_of_ne_nil _ hx
      obtain ⟨_, hmem, _⟩ := hxy.2.exists_right hentry
      simp [hy] at hmem
    rw [if_neg hx] at hmore
    rw [if_neg hy, ← hxy.1]
    exact matchesM_anti x.holding hxy.2 (fun _ _ hR => asked_anti h hR) hmore

/-- The same conditions, in whatever order. -/
theorem ShowWhen.Reordered.mem_singles {x y : ShowWhen} (h : x.Reordered y)
    {condition : SingleCondition}
    (hc : condition ∈ y.singles) : condition ∈ x.singles := by
  obtain ⟨entry, hentry, hmem⟩ := List.mem_flatMap.mp hc
  obtain ⟨entry', hentry', hR⟩ := h.2.exists_left hentry
  refine List.mem_flatMap.mpr ⟨entry', hentry', ?_⟩
  cases entry' with
  | one c =>
    cases entry with
    | one d =>
      cases hR
      exact hmem
    | group n ds => exact hR.elim
  | group m cs =>
    cases entry with
    | one d => exact hR.elim
    | group n ds => exact hR.2.symm.subset hmem

end Anti

end Haute.Workbench
