import Haute.Workbench.Visibility

/-!
# What the view shows

`sheetVisibility.ts`, the browser's own decision of what shows: `conditionFault`, what stops a
condition holding as written, and `decide`, the sheets, sections, components and fields that
show before any price is known. Columns and fields are told apart by their keys, names joined
by a colon, and a round says what stays rather than what goes. The rows typed are an object by
table name, in which every object's own members are found too.

The regular expressions of `sheetValues.ts` are those the server reads text with, so the text
readers below share `cleaned`, `number?` and `wholeDigits?` with it; a `Number` is the double
it holds, a `bigint` a whole number without a limit.
-/

namespace Haute.Workbench.View

open Haute.Data

/-! ### Typed text -/

/-- `parseTypedNumber`. -/
def parseTypedNumber (text : String) : Option ℚ :=
  (number? (cleaned text)).bind fun q =>
    match floatOf q with
    | .finite r => some r
    | _ => none

/-- `parseTypedWhole`. -/
def parseTypedWhole (text : String) : Option ℤ :=
  match wholeDigits? (cleaned text) with
  | some (negative, ds) => some (if negative then -(digitsValue ds : ℤ) else digitsValue ds)
  | none =>
    (parseTypedNumber (String.ofList (cleaned text))).bind fun r => if r.den = 1 then some r.num
      else none

/-- `isDay`. -/
def isDay (text : String) : Bool :=
  match dayParts? text with
  | none => false
  | some (year, month, day) =>
    if year < 1 ∨ month < 1 ∨ 12 < month ∨ day < 1 then false
    else
      let leap := year % 4 = 0 ∧ (year % 100 ≠ 0 ∨ year % 400 = 0)
      day ≤ [31, if leap then 29 else 28, 31, 30, 31, 30, 31, 31, 30, 31, 30, 31].getD (month - 1) 0

/-- `dayNumber`: days from civil, counted from 1970-01-01. -/
def dayNumber (text : String) : ℤ :=
  match dayParts? text with
  | none => 0
  | some (year, month, date) =>
    let shifted : ℤ := if month ≤ 2 then year - 1 else year
    let era := shifted / 400
    let yearOfEra := shifted - era * 400
    let dayOfYear : ℤ :=
      (153 * (if 2 < month then (month : ℤ) - 3 else month + 9) + 2) / 5 + date - 1
    let dayOfEra := yearOfEra * 365 + yearOfEra / 4 - yearOfEra / 100 + dayOfYear
    era * 146097 + dayOfEra - 719468

/-- `ofType`, of stripped text. -/
def ofType (type : ColumnType) (text : String) : Bool :=
  match type with
  | .int => (parseTypedWhole text).isSome
  | .float => (parseTypedNumber text).isSome
  | .date => isDay text
  | _ => true

/-- `valueFits`. -/
def valueFits (type : ColumnType) (value : String) : Bool :=
  if type = .bool ∨ pyStrip value = "" then false else ofType type (pyStrip value)

/-- `typed`: an Integer's whole numbers exactly, a number column's other numbers as numbers. -/
def typed (type : ColumnType) (text : String) : Typed :=
  let stripped := pyStrip text
  let asNumber := (parseTypedNumber stripped).elim (.text stripped) .decimal
  match type with
  | .int => (parseTypedWhole stripped).elim asNumber .whole
  | .float => asNumber
  | _ => .text stripped

/-- `indexIdentity` of a `typedIndexValue`, which tells apart what it tells apart: a number by
its value and text as itself. -/
def indexIdentity (type : ColumnType) (text : String) : Typed :=
  if type = .int then (parseTypedWhole text).elim
    ((parseTypedNumber text).elim (.text text) .decimal) .whole
  else .text text

/-- The place of the value a row holds in the index. -/
def placeOf (column : SchemaColumn) (row : Row) : Option ℕ :=
  match Assoc.get? row column.name with
  | some (.text text) =>
    column.options.findIdx? fun value =>
      indexIdentity column.type (pyStrip value) = indexIdentity column.type (pyStrip text)
  | _ => none

/-- The rows placed by their value, the first of each, and the loose ones. -/
def placeRows (column : SchemaColumn) :
    List Row → List (Option Row) × List Row → List (Option Row) × List Row
  | [], found => found
  | row :: rows, (placed, loose) =>
    if !filled (Assoc.get? row column.name) then placeRows column rows (placed, loose ++ [row])
    else
      match placeOf column row with
      | none => placeRows column rows (placed, loose)
      | some i => placeRows column rows (if placed[i]? = some none then placed.set i (some row)
        else placed, loose)

/-- `presetRows`. -/
def presetRows (table : SchemaTable) (rows : List Row) : List Row :=
  match valuesIndex table with
  | none => rows
  | some column =>
    let (placed, loose) := placeRows column rows (column.options.map fun _ => none, [])
    fillRows column.name (placed.zip column.options) loose

/-! ### What stops a condition holding as written -/

/-- What a test takes: no value, exactly one, or one or more. -/
inductive TakesValues where
  | none
  | one
  | some
  deriving DecidableEq

/-- `CONDITION_TESTS`. -/
def takesValues : ConditionTest → TakesValues
  | .ticked | .notTicked | .filled | .empty => .none
  | .oneOf | .notOneOf => .some
  | _ => .one

/-- `testsFor`, in the order the editor offers them. -/
def testsFor : ColumnType → List ConditionTest
  | .bool => [.ticked, .notTicked]
  | .str =>
    [.equals, .notEquals, .contains, .notContains, .startsWith, .endsWith, .oneOf, .notOneOf,
      .filled, .empty]
  | .int | .float =>
    [.equals, .notEquals, .above, .atLeast, .below, .atMost, .oneOf, .notOneOf, .filled, .empty]
  | .date => [.equals, .notEquals, .above, .atLeast, .below, .atMost, .filled, .empty]

/-- `LABELS`. -/
def label : ConditionTest → String
  | .ticked => "is ticked"
  | .notTicked => "is not ticked"
  | .filled => "is filled"
  | .empty => "is empty"
  | .equals => "equals"
  | .notEquals => "does not equal"
  | .contains => "contains"
  | .notContains => "does not contain"
  | .startsWith => "starts with"
  | .endsWith => "ends with"
  | .oneOf => "is one of"
  | .notOneOf => "is not one of"
  | .above => "is greater than"
  | .atLeast => "is at least"
  | .below => "is less than"
  | .atMost => "is at most"

/-- `testLabel`. -/
def testLabel (test : ConditionTest) (type : ColumnType) : String :=
  match type, test with
  | .date, .equals => "is on"
  | .date, .notEquals => "is not on"
  | .date, .above => "is after"
  | .date, .atLeast => "is on or after"
  | .date, .below => "is before"
  | .date, .atMost => "is on or before"
  | _, test => label test

/-- `TYPE_WORDS`. -/
def typeWords : ColumnType → String
  | .bool => "a True/false"
  | .str => "a Text"
  | .int => "an Integer"
  | .float => "a Decimal"
  | .date => "a Date"

/-- `NOT_A_VALUE`. -/
def notAValue : ColumnType → String
  | .bool => "a value"
  | .str => "text"
  | .int => "a whole number"
  | .float => "a number"
  | .date => "a day written YYYY-MM-DD"

/-- `tableOf`. -/
def tableOf (tables : List SchemaTable) (name : String) : Option SchemaTable :=
  tables.find? fun table => table.name = name

/-- A table's column of that name. -/
def columnOf (table : SchemaTable) (name : String) : Option SchemaColumn :=
  table.columns.find? fun column => column.name = name

/-- What stops a value typed for a test of a column. -/
def valueFault (column : SchemaColumn) (value : String) : Option String :=
  if pyStrip value = "" then some s!"has a blank value for {column.name}"
  else if valueFits column.type value then none
  else some s!"tests {column.name} against \"{value}\", which isn't {notAValue column.type}"

/-- `testFault`, `other` being the field it tests against. -/
def testFault (column : SchemaColumn) (test : ValueTest) (other : Option SchemaColumn) :
    Option String :=
  let words := testLabel test.op column.type
  let takes := takesValues test.op
  if test.op ∉ testsFor column.type then
    some s!"tests {column.name} with \"{words}\", which {typeWords column.type} column cannot take"
  else
    match other with
    | some other =>
      if takes ≠ .one then
        let counted := if takes = .none then "no value" else "values typed"
        some s!"tests {column.name} with \"{words}\" against {other.name}, where it takes {counted}"
      else if 0 < test.values.length then
        some s!"tests {column.name} against both a value typed and {other.name}"
      else if other.type ≠ column.type then
        some (s!"tests {column.name} against {other.name}, which isn't " ++
          s!"{typeWords column.type} column")
      else if test.days ≠ 0 ∧ column.type ≠ .date then
        some s!"adds days to {other.name}, which isn't a Date column"
      else none
    | none =>
      if test.days ≠ 0 then
        some s!"adds days to its test of {column.name} without another Date to add them to"
      else if takes ≠ .none ∧ test.values.length = 0 then
        some s!"needs a value for its test of {column.name}"
      else if takes = .none ∧ 0 < test.values.length then
        some s!"tests {column.name} with \"{words}\", which takes no value"
      else if takes = .one ∧ 1 < test.values.length then
        some s!"tests {column.name} with \"{words}\", which takes one value"
      else test.values.findSome? (valueFault column)

/-- `otherFault`: the field a condition tests against, or what stops it being one. -/
def otherFault (tables : List SchemaTable) (column : SchemaColumn) (field : FieldRef) :
    Except String SchemaColumn :=
  match tableOf tables field.table with
  | none => .error s!"tests {column.name} against a field that is no longer in the schema"
  | some table =>
    match columnOf table field.column with
    | none => .error s!"tests {column.name} against a field that is no longer in the schema"
    | some other =>
      if table.isOutput other.name then
        .error s!"tests {column.name} against {other.name}, which is an output"
      else if table.rows = .many then
        .error s!"tests {column.name} against {other.name}, which is in a table with many rows"
      else .ok other

/-- What stops a test of a row. -/
def rowTestFault (table : SchemaTable) (test : RowTest) : Option String :=
  match columnOf table test.column with
  | none => some "tests a column that is no longer in the schema"
  | some column =>
    if column.index = some .numbered then
      some s!"tests {column.name}, the index, which nothing is typed into"
    else
      match test.field with
      | none => testFault column test.toValueTest none
      | some field =>
        if table.isOutput column.name then
          some (s!"tests {column.name}, a part of the price, against another column: " ++
            "the price is tested against values typed alone")
        else
          match columnOf table field with
          | none => some s!"tests {column.name} against a column that is no longer in the schema"
          | some other =>
            if other.index = some .numbered then
              some (s!"tests {column.name} against {other.name}, the index, " ++
                "which nothing is typed into")
            else if table.isOutput other.name then
              some s!"tests {column.name} against {other.name}, which is an output"
            else testFault column test.toValueTest (some other)

/-- What stops a total. -/
def totalFault (table : SchemaTable) (total : RowTotal) : Option String :=
  match columnOf table total.column with
  | none => some "totals a column that is no longer in the schema"
  | some column =>
    if column.index = some .numbered then
      some s!"totals {column.name}, the index, which nothing is typed into"
    else if column.type ≠ .int ∧ column.type ≠ .float then
      some s!"totals {column.name}, which is not a number column"
    else
      let value := pyStrip total.value
      if value = "" then some s!"needs a number to compare its total of {column.name} with"
      else if ofType .float value then none
      else some s!"compares its total of {column.name} with \"{value}\", which isn't a number"

/-- `namedColumns`: the columns its tests and its total are of. -/
def namedColumns (condition : ListCondition) : List String :=
  condition.tests.map RowTest.column ++
    match condition.asked with
    | .total total => [total.column]
    | _ => []

/-- What a condition on a list's rows does with them. -/
def verb : RowsAsked → String
  | .count .. => "counts"
  | .total _ => "totals"
  | .rows _ => "tests"

/-- `listFault`. -/
def listFault (tables : List SchemaTable) (condition : ListCondition) : Option String :=
  let does := verb condition.asked
  match tableOf tables condition.table with
  | none => some s!"{does} the rows of a table that is no longer in the schema"
  | some table =>
    if table.rows = .one then some s!"{does} the rows of {table.name}, which has one row"
    else if 1 < ((namedColumns condition).map table.isOutput).dedup.length then
      some (s!"{does} both inputs and outputs of {table.name}: " ++
        "a condition on its rows tests one or the other")
    else
      match condition.tests.findSome? (rowTestFault table), condition.asked with
      | some fault, _ => some fault
      | none, .total total => totalFault table total
      | none, _ => none

/-- What stops a condition on a one-row table's column. -/
def columnFault (tables : List SchemaTable) (condition : Condition) : Option String :=
  match tableOf tables condition.table with
  | none => some "tests a column that is no longer in the schema"
  | some table =>
    match columnOf table condition.column with
    | none => some "tests a column that is no longer in the schema"
    | some column =>
      if table.rows = .many then some s!"tests {column.name}, which is in a table with many rows"
      else
        match condition.field with
        | none => testFault column condition.toValueTest none
        | some field =>
          if table.isOutput column.name then
            some (s!"tests {column.name}, a part of the price, against another field: " ++
              "the price is tested against values typed alone")
          else
            match otherFault tables column field with
            | .error fault => some fault
            | .ok other => testFault column condition.toValueTest (some other)

/-- `conditionFault`. -/
def conditionFault (tables : List SchemaTable) : SingleCondition → Option String
  | .list condition => listFault tables condition
  | .one condition => columnFault tables condition

/-- `onPrice`. -/
def onPrice (tables : List SchemaTable) (condition : SingleCondition) : Bool :=
  match tableOf tables condition.table with
  | none => false
  | some table =>
    match condition with
    | .one condition => table.isOutput condition.column
    | .list condition => (namedColumns condition).any table.isOutput || !table.hasInputs

/-! ### Whether a cell passes -/

/-- `equals`. -/
def equals (type : ColumnType) (cell : Option Cell) (value : String) : Bool :=
  match cell with
  | some (.text text) => filled cell && typed type text = typed type value
  | _ => false

/-- `order`, none for `NaN`. -/
def order (type : ColumnType) (cell : Option Cell) (value : String) : Option Ordering :=
  match cell with
  | some (.text cell) =>
    let text := pyStrip cell
    if !ofType type text then none
    else
      match type with
      | .date => some (compare text (pyStrip value))
      | .int =>
        -- neither is null: the cell is whole, and so is a fitting condition's value
        match parseTypedWhole text, parseTypedWhole value with
        | some x, some y => some (compare x y)
        | _, _ => none
      | _ =>
        match parseTypedNumber text, parseTypedNumber value with
        | some x, some y => some (compare x y)
        | _, _ => none
  | _ => none

/-- How a comparison reads an order: `NaN` passes none. -/
def ordersAs (op : ConditionTest) (found : Option Ordering) : Bool :=
  match op with
  | .above => found = some .gt
  | .atLeast => found = some .gt ∨ found = some .eq
  | .below => found = some .lt
  | .atMost => found = some .lt ∨ found = some .eq
  | _ => false

/-- `holdsValue`. -/
def holdsValue (type : ColumnType) : Option Cell → Bool
  | some (.text text) => pyStrip text ≠ "" && ofType type (pyStrip text)
  | _ => false

/-- `textPasses`. -/
def textPasses (test : ConditionTest) (cell : Option Cell) (part : String) : Bool :=
  match cell with
  | some (.text text) =>
    if filled cell then
      let text := (pyStrip text).toList
      let wanted := (pyStrip part).toList
      match test with
      | .contains => decide (wanted <:+: text)
      | .notContains => !decide (wanted <:+: text)
      | .startsWith => decide (wanted <+: text)
      | _ => decide (wanted <:+ text)
    else test = .notContains
  | _ => test = .notContains

/-- `dayPasses`. -/
def dayPasses (test : ConditionTest) (cell : Option Cell) (day : String) (days : ℤ) : Bool :=
  match cell with
  | some (.text text) =>
    if isDay (pyStrip text) then
      let found := dayNumber (pyStrip text)
      let wanted := dayNumber (pyStrip day) + days
      match test with
      | .equals => found = wanted
      | .notEquals => found ≠ wanted
      | test => ordersAs test (some (compare found wanted))
    else test = .notEquals
  | _ => test = .notEquals

/-- A test of one value, that value found. -/
def valuePasses (type : ColumnType) (op : ConditionTest) (cell : Option Cell)
    (value : String) : Bool :=
  match op with
  | .equals => equals type cell value
  | .notEquals => !equals type cell value
  | .contains | .notContains | .startsWith | .endsWith => textPasses op cell value
  | op => ordersAs op (order type cell value)

/-- `passes`. -/
def passes (type : ColumnType) (test : ValueTest) (against : Bool)
    (cell other : Option Cell) : Bool :=
  match test.op with
  | .ticked => cell = some (.tick true)
  | .notTicked => cell ≠ some (.tick true)
  | .filled => filled cell
  | .empty => !filled cell
  | .oneOf => test.values.any (equals type cell)
  | .notOneOf => !test.values.any (equals type cell)
  | op =>
    if against then
      match other with
      | some (.text value) =>
        if holdsValue type other then
          if type = .date then dayPasses op cell value test.days else valuePasses type op cell value
        else op = .notEquals ∨ op = .notContains
      | _ => op = .notEquals ∨ op = .notContains
    else
      -- a fitting condition has its one value
      match test.values with
      | value :: _ => valuePasses type op cell value
      | [] => false

/-! ### Whether a condition holds -/

/-- `columnKey`. -/
def columnKey (table column : String) : String := table ++ ":" ++ column

/-- `fieldKey`. -/
def fieldKey (widget table column : String) : String := widget ++ ":" ++ columnKey table column

/-- What deciding can throw. -/
inductive Thrown where
  /-- `TypeError`: what is found under a table's name is no list of rows. -/
  | notRows
  deriving DecidableEq

/-- `showWhenPasses`: `matches` asks its entries in order, as far as it must. -/
def showWhenPasses (showWhen : ShowWhen) (holds : SingleCondition → Except Thrown Bool) :
    Except Thrown Bool :=
  showWhen.asked holds

/-- The members of `Object.prototype`, found in every object that has no member of the name
itself. -/
def objectMembers : List String :=
  ["constructor", "__defineGetter__", "__defineSetter__", "hasOwnProperty", "__lookupGetter__",
    "__lookupSetter__", "isPrototypeOf", "propertyIsEnumerable", "toString", "valueOf", "__proto__",
    "toLocaleString"]

/-- `rows[table.name] ?? []`: under the name of a member every object has, nothing being typed, that
member is found, which cannot be read as rows. -/
def rowsOf (rows : Rows) (table : String) : Except Thrown (List Row) :=
  match Assoc.get? rows table with
  | some typed => .ok typed
  | none => if table ∈ objectMembers then .error .notRows else .ok []

/-- `typedRows`. -/
def typedRows (table : SchemaTable) (rows : List Row) : List Row :=
  (presetRows table rows).filter fun row =>
    table.inputs.any fun column => column.index ≠ some .numbered && filled
      (Assoc.get? row column.name)

/-- `passingRows`. -/
def passingRows (table : SchemaTable) (tests : List RowTest) (rows : List Row) : List Row :=
  rows.filter fun row => tests.all fun test =>
    -- a `Map` of the columns' types by name: the last column of a name gives its type
    match table.columns.reverse.find? fun column => column.name = test.column with
    | none => false
    | some column =>
      passes column.type test.toValueTest test.field.isSome (Assoc.get? row test.column)
        (test.field.bind (Assoc.get? row))

/-- The numbers a total's column holds in the rows. -/
def totalNumbers (type : ColumnType) (column : String) (rows : List Row) : List ℚ :=
  rows.filterMap fun (row : Row) =>
    match Assoc.get? row column with
    | some (.text cell) => if ofType type (pyStrip cell) then parseTypedNumber (pyStrip cell)
      else none
    | _ => none

/-- `totalOf`, its arithmetic as the server's. -/
def totalOf (table : SchemaTable) (asked : RowTotal) (rows : List Row) : Option PyFloat :=
  (columnOf table asked.column).bind fun column =>
    Workbench.totalOf asked.total (totalNumbers column.type asked.column rows)

/-- Whether the columns a list's condition needs shown do show. -/
def listShown (table : SchemaTable) (condition : ListCondition) (shown : Finset String) : Bool :=
  if listColumns condition ≠ [] then
    (listColumns condition).all fun column => columnKey table.name column ∈ shown
  else
    table.inputs.any fun column =>
      column.index ≠ some .numbered && columnKey table.name column.name ∈ shown

/-- What a condition on a list's rows asks, of the rows found. -/
def listAsks (table : SchemaTable) (condition : ListCondition) (found : List Row) : Bool :=
  let typed := typedRows table found
  let passing := passingRows table condition.tests typed
  match condition.asked with
  | .rows .any => !passing.isEmpty
  | .rows .every => !typed.isEmpty && passing.length = typed.length
  | .count op count => countPasses op (some (compare passing.length count))
  | .total asked =>
    match totalOf table asked passing, parseTypedNumber (pyStrip asked.value) with
    | some total, some wanted => countPasses asked.op (compareFloat total wanted)
    | _, _ => false

/-- `listHolds`. -/
def listHolds (table : SchemaTable) (condition : ListCondition) (rows : Rows)
    (shown : Finset String) :
    Except Thrown Bool := do
  if !listShown table condition shown then return false
  return listAsks table condition (← rowsOf rows table.name)

/-- `holds` of `conditionTester`. The first row of a table not typed in has no cells, whatever is
found under its name. -/
def testerHolds (tables : List SchemaTable) (rows : Rows) (shown : Finset String)
    (condition : SingleCondition) : Except Thrown Bool :=
  if (conditionFault tables condition).isSome then .ok false
  else
    match tableOf tables condition.table, condition with
    | none, _ => .ok false
    | some table, .list condition => listHolds table condition rows shown
    | some table, .one condition =>
      if columnKey condition.table condition.column ∉ shown then .ok false
      else if condition.field.any fun field => columnKey field.table field.column ∉
        shown then .ok false
      else
        match columnOf table condition.column with
        | none => .ok false
        | some column =>
          .ok (passes column.type condition.toValueTest condition.field.isSome
            (firstCell rows condition.table condition.column)
            (condition.field.bind fun field => firstCell rows field.table field.column))

/-- `holds` of `decide`: before any price is known, a condition on it holds while it fits. -/
def holds (tables : List SchemaTable) (rows : Rows) (shown : Finset String)
    (condition : SingleCondition) : Except Thrown Bool :=
  if onPrice tables condition then .ok (conditionFault tables condition).isNone
  else testerHolds tables rows shown condition

/-! ### What shows -/

/-- `enteredFields`: the columns a component has values typed into, each with when it shows. -/
def enteredFields (widget : Widget) : List (FieldRef × ShowWhen) :=
  if widget.kind = .other then []
  else widget.fields.map fun field =>
    (field, ((widget.columnLooks.find? fun look =>
      look.table = field.table ∧ look.column = field.column).map ColumnLook.showWhen).getD {})

/-- Each field with its component's id and when it shows. -/
def entered (spec : FormSpec) : List (String × FieldRef × ShowWhen) :=
  spec.placed.flatMap fun (_, widget) =>
    (enteredFields widget).map fun (field, showWhen) => (widget.id, field, showWhen)

/-- A field's key. -/
def keyOf (field : String × FieldRef × ShowWhen) : String :=
  fieldKey field.1 field.2.1.table field.2.1.column

/-- The sheets, sections, components and fields still shown, the fields by their keys. -/
@[ext] structure Showing where
  pages : Finset String
  sections : Finset String
  widgets : Finset String
  fields : Finset String

/-- Everything, to start with. -/
def initial (spec : FormSpec) : Showing where
  pages := (spec.pages.map Page.id).toFinset
  sections := (spec.placedSections.map fun x => x.2.id).toFinset
  widgets := (spec.placed.map fun x => x.2.id).toFinset
  fields := ((entered spec).map keyOf).toFinset

/-- `shownColumns`. -/
def shownColumns (spec : FormSpec) (fields : Finset String) : Finset String :=
  (((entered spec).filter fun x => keyOf x ∈ fields).map fun x =>
    columnKey x.2.1.table x.2.1.column).toFinset

/-- What is asked of a `show_when` while the fields of a choice show. -/
def Showing.asks (spec : FormSpec) (rows : Rows) (showing : Showing) (showWhen : ShowWhen) :
    Except Thrown Bool :=
  showWhenPasses showWhen (holds spec.tables rows (shownColumns spec showing.fields))

/-- Whether one of a level stays: still shown, on what stays, and passing, asked in that order. -/
def stays {α : Type} (live : Finset String) (id : α → String) (on : α → Bool)
    (passes : α → Except Thrown Bool) (x : α) : Except Thrown Bool :=
  if id x ∈ live ∧ on x then passes x else .ok false

/-- The ids of a level that stay. -/
def staying {α : Type} (live : Finset String) (id : α → String) (on : α → Bool)
    (passes : α → Except Thrown Bool) (xs : List α) : Except Thrown (Finset String) := do
  let kept ← selectM (stays live id on passes) xs
  return (kept.map id).toFinset

/-- One round of `decide`: what stays. -/
def nextRound (spec : FormSpec) (rows : Rows) (showing : Showing) : Except Thrown Showing := do
  let asks := showing.asks spec rows
  let pages ← staying showing.pages Page.id (fun _ => true)
      (fun page => asks page.showWhen) spec.pages
  let sections ← staying showing.sections (fun x => x.2.id) (fun x => x.1.id ∈ pages)
    (fun x => asks x.2.showWhen) spec.placedSections
  let widgets ← staying showing.widgets (fun x => x.2.id) (fun x => x.1.id ∈ sections)
    (fun x => asks x.2.showWhen) spec.placed
  let fields ← staying showing.fields keyOf (fun x => x.1 ∈ widgets)
      (fun x => asks x.2.2) (entered spec)
  return { pages, sections, widgets, fields }

section Staying

variable {α : Type} {live S : Finset String} {id : α → String} {on : α → Bool}
  {passes : α → Except Thrown Bool} {xs : List α} {x : α}

theorem exists_stays_iff :
    (∃ b, stays live id on passes x = .ok b) ↔
      (id x ∈ live → on x = true → ∃ b, passes x = .ok b) := by
  by_cases hlive : id x ∈ live <;> cases hon : on x <;> simp [stays, hlive, hon]

theorem passed_stays :
    passed (stays live id on passes x) = true ↔ id x ∈ live ∧ on x = true ∧
      passes x = .ok true := by
  by_cases hlive : id x ∈ live <;> cases hon : on x <;> simp [stays, hlive, hon, passed_eq_true_iff]

/-- A level stays as far as it can be asked: what is shown, on what stays, and passes. -/
theorem staying_eq_ok_iff :
    staying live id on passes xs = .ok S ↔
      (∀ x ∈ xs, id x ∈ live → on x = true → ∃ b, passes x = .ok b) ∧
        S = ((xs.filter fun x => passed (stays live id on passes x)).map id).toFinset := by
  have hasked : (∀ x ∈ xs, ∃ b, stays live id on passes x = .ok b) ↔
      ∀ x ∈ xs, id x ∈ live → on x = true → ∃ b, passes x = .ok b :=
    forall₂_congr fun _ _ => exists_stays_iff
  rw [← hasked, staying]
  constructor
  · intro h
    cases hselect : selectM (stays live id on passes) xs with
    | error e => simp [hselect, bind, Except.bind] at h
    | ok kept =>
      obtain ⟨hall, rfl⟩ := selectM_eq_ok_iff.mp hselect
      simp only [hselect, bind, Except.bind, pure, Except.pure, Except.ok.injEq] at h
      exact ⟨hall, h.symm⟩
  · rintro ⟨hall, rfl⟩
    rw [selectM_eq_ok_iff.mpr ⟨hall, rfl⟩]
    rfl

theorem exists_staying (h : ∀ x ∈ xs, id x ∈ live → on x = true → ∃ b, passes x = .ok b) :
    ∃ S, staying live id on passes xs = .ok S :=
  ⟨_, staying_eq_ok_iff.mpr ⟨h, rfl⟩⟩

/-- Which ids of a level stay. -/
theorem mem_staying_iff (h : staying live id on passes xs = .ok S) {i : String} :
    i ∈ S ↔ ∃ x ∈ xs, id x = i ∧ i ∈ live ∧ on x = true ∧ passes x = .ok true := by
  obtain ⟨-, rfl⟩ := staying_eq_ok_iff.mp h
  simp only [List.mem_toFinset, List.mem_map, List.mem_filter, passed_stays]
  constructor
  · rintro ⟨x, ⟨hx, hlive, hwhy⟩, rfl⟩
    exact ⟨x, hx, rfl, hlive, hwhy⟩
  · rintro ⟨x, hx, rfl, hlive, hwhy⟩
    exact ⟨x, ⟨hx, hlive, hwhy⟩, rfl⟩

theorem staying_subset (h : staying live id on passes xs = .ok S) : S ⊆ live := by
  intro i hi
  obtain ⟨-, -, -, hlive, -⟩ := (mem_staying_iff h).mp hi
  exact hlive

end Staying

/-- A round, level by level. -/
theorem nextRound_eq_ok_iff {spec : FormSpec} {rows : Rows} {showing next : Showing} :
    nextRound spec rows showing = .ok next ↔
      staying showing.pages Page.id (fun _ => true)
        (fun page => showing.asks spec rows page.showWhen)
        spec.pages = .ok next.pages ∧
      staying showing.sections (fun x => x.2.id) (fun x => x.1.id ∈ next.pages)
        (fun x => showing.asks spec rows x.2.showWhen) spec.placedSections = .ok next.sections ∧
      staying showing.widgets (fun x => x.2.id) (fun x => x.1.id ∈ next.sections)
        (fun x => showing.asks spec rows x.2.showWhen) spec.placed = .ok next.widgets ∧
      staying showing.fields keyOf (fun x => x.1 ∈ next.widgets)
        (fun x => showing.asks spec rows x.2.2)
        (entered spec) = .ok next.fields := by
  unfold nextRound
  constructor
  · intro h
    simp only [bind, Except.bind] at h
    split at h
    · cases h
    rename_i pages hpages
    split at h
    · cases h
    rename_i sections hsections
    split at h
    · cases h
    rename_i widgets hwidgets
    split at h
    · cases h
    rename_i fields hfields
    cases h
    exact ⟨hpages, hsections, hwidgets, hfields⟩
  · rintro ⟨hpages, hsections, hwidgets, hfields⟩
    simp only [hpages, hsections, hwidgets, hfields, bind, Except.bind, pure, Except.pure]

/-- How much still shows. -/
def Showing.size (showing : Showing) : ℕ :=
  showing.pages.card + showing.sections.card + showing.widgets.card + showing.fields.card

/-- The loop of `decide`: until a round keeps all there was. -/
def rounds (spec : FormSpec) (rows : Rows) (showing : Showing) : Except Thrown Showing :=
  match _ : nextRound spec rows showing with
  | .error thrown => .error thrown
  | .ok next =>
    if next.pages.card < showing.pages.card ∨ next.sections.card < showing.sections.card ∨
        next.widgets.card < showing.widgets.card ∨ next.fields.card < showing.fields.card then
      rounds spec rows next
    else .ok next
termination_by showing.size
decreasing_by
  rename_i hnext hhiding
  obtain ⟨hpages, hsections, hwidgets, hfields⟩ := nextRound_eq_ok_iff.mp hnext
  have hpages := Finset.card_le_card (staying_subset hpages)
  have hsections := Finset.card_le_card (staying_subset hsections)
  have hwidgets := Finset.card_le_card (staying_subset hwidgets)
  have hfields := Finset.card_le_card (staying_subset hfields)
  simp only [Showing.size]
  omega

/-- `SheetVisibility`: what shows, and the input columns left out of the quote, by their keys. -/
@[ext] structure SheetVisibility extends Showing where
  hidden : Finset String

/-- `decide`. -/
def decided (spec : FormSpec) (rows : Rows) : Except Thrown SheetVisibility := do
  let showing ← rounds spec rows (initial spec)
  let shown := shownColumns spec showing.fields
  let onWidgets := ((entered spec).map fun x => columnKey x.2.1.table x.2.1.column).toFinset
  return { showing with
    hidden := (((spec.tables.filter SchemaTable.hasInputs).flatMap fun table =>
      (table.inputs.filter fun column => column.index.isNone).map fun column =>
        columnKey table.name column.name).filter fun key => key ∈ onWidgets ∧
          key ∉ shown).toFinset }

end Haute.Workbench.View
