import Haute.Data.GreatestChoice
import Haute.Schema.Labels
import Haute.Schema.Validate

/-!
# The workbench's form

The part of the form that decides what shows: the schema's tables and columns, the sheets
with their sections and components, and the conditions under which each of these shows. The
looks, sizes and texts that only the editor reads are left out; a column keeps every field,
since the quote's identity is told from a project's own column by all of them.

`Parts` of a form, at the end, are its sheets, sections, components and fields in one list,
each with the part that holds it.
-/

namespace Haute.Workbench

open Haute.Data (Match Rearranged)

/-! ### The schema -/

/-- How a many-row table's index gets its values. -/
inductive IndexKind where
  | numbered
  | typed
  | values
  deriving DecidableEq

/-- A sample cell as typed: text, or a tick. -/
inductive Cell where
  | text (s : String)
  | tick (b : Bool)
  deriving DecidableEq

/-- The column of a params file whose values a column's options were read from. -/
structure OptionsSource where
  file : String
  column : String
  deriving DecidableEq

/-- A column of the schema. -/
structure SchemaColumn where
  name : String
  type : ColumnType := .str
  label : String := ""
  group : String := ""
  required : Bool := false
  min : Option PyFloat := none
  max : Option PyFloat := none
  options : List String := []
  optionsSource : Option OptionsSource := none
  index : Option IndexKind := none
  help : String := ""
  placeholder : String := ""
  defaultValue : Cell := .text ""
  numberFormat : String := "general"
  decimalPlaces : Option ℕ := none
  useGrouping : Bool := true
  deriving DecidableEq

/-- One row per quote, or many. -/
inductive RowsKind where
  | one
  | many
  deriving DecidableEq

/-- A table of the schema: its inputs, which an underwriter types, and its outputs, which
pricing fills. -/
structure SchemaTable where
  name : String
  rows : RowsKind := .one
  inputs : List SchemaColumn := []
  outputs : List SchemaColumn := []

/-- Haute's own table of a quote's details. -/
def quoteDetailsName : String := "quote_details"

/-- The quote's identity columns as Haute makes them. -/
def identitySchemaColumns : List SchemaColumn :=
  [{ name := "quote_reference", type := .str }, { name := "quote_option", type := .int }]

/-- `_without_identity`. -/
def withoutIdentity (table : String) (block : List SchemaColumn) : List SchemaColumn :=
  if table ≠ quoteDetailsName ∧ block.take identitySchemaColumns.length = identitySchemaColumns then
    block.drop identitySchemaColumns.length
  else block

namespace SchemaTable

variable (table : SchemaTable)

/-- Its inputs, then its outputs. -/
def columns : List SchemaColumn := table.inputs ++ table.outputs

def ownInputs : List SchemaColumn := withoutIdentity table.name table.inputs

def typedInputs : List SchemaColumn := table.ownInputs.filter fun column => column.index.isNone

def hasInputs : Bool := !table.typedInputs.isEmpty

/-- The column keying its rows within a quote. -/
def index : Option SchemaColumn := table.columns.find? fun column => column.index.isSome

def isOutput (column : String) : Bool := table.outputs.any fun held => held.name = column

end SchemaTable

/-! ### Conditions -/

/-- A schema column a component shows, by its table's name and its own. -/
structure FieldRef where
  table : String
  column : String
  deriving DecidableEq

/-- What a condition tests its column's value for. -/
inductive ConditionTest where
  | ticked
  | notTicked
  | filled
  | empty
  | equals
  | notEquals
  | contains
  | notContains
  | startsWith
  | endsWith
  | oneOf
  | notOneOf
  | above
  | atLeast
  | below
  | atMost
  deriving DecidableEq

/-- What a `Condition` and a `RowTest` have in common: the test, the values typed for it, and
the days added to the field it may test against instead. -/
structure ValueTest where
  op : ConditionTest
  values : List String := []
  days : ℤ := 0
  deriving DecidableEq

/-- A test of the value in a one-row table's column. -/
structure Condition extends ValueTest where
  table : String
  column : String
  field : Option FieldRef := none
  deriving DecidableEq

/-- A test a row of a many-row table must pass. -/
structure RowTest extends ValueTest where
  column : String
  field : Option String := none
  deriving DecidableEq

/-- Any row, or every one. -/
inductive RowsQuantifier where
  | any
  | every
  deriving DecidableEq

/-- What a count or a total tests its number for. -/
inductive CountTest where
  | equals
  | notEquals
  | above
  | atLeast
  | below
  | atMost
  deriving DecidableEq

/-- Which total of a number column's values a total takes. -/
inductive TotalKind where
  | sum
  | min
  | max
  | average
  deriving DecidableEq

/-- A total of a number column's values in the rows passing the tests. -/
structure RowTotal where
  total : TotalKind
  column : String
  op : CountTest
  value : String
  deriving DecidableEq

/-- What a condition on a list's rows asks of the rows passing its tests: `RowsCondition`,
`RowCount` or `RowTotal`. -/
inductive RowsAsked where
  | rows (rows : RowsQuantifier)
  | count (op : CountTest) (count : ℕ)
  | total (total : RowTotal)
  deriving DecidableEq

/-- A condition on a many-row table's rows, with the tests of a row (`where`). -/
structure ListCondition where
  table : String
  tests : List RowTest
  asked : RowsAsked
  deriving DecidableEq

/-- One condition: of a one-row table's column, or of a many-row table's rows. -/
inductive SingleCondition where
  | one (condition : Condition)
  | list (condition : ListCondition)
  deriving DecidableEq

/-- An entry of a `show_when`: one condition, or a group of them that counts as one. -/
inductive ShowWhenEntry where
  | one (condition : SingleCondition)
  | group (holding : Match) (conditions : List SingleCondition)
  deriving DecidableEq

/-- When a sheet, a section, a component or a field shows. -/
structure ShowWhen where
  holding : Match := .all
  conditions : List ShowWhenEntry := []
  deriving DecidableEq

/-- The conditions of an entry, those of a group included. -/
def ShowWhenEntry.singles : ShowWhenEntry → List SingleCondition
  | one condition => [condition]
  | group _ conditions => conditions

/-- The conditions, those of its groups included. -/
def ShowWhen.singles (showWhen : ShowWhen) : List SingleCondition :=
  showWhen.conditions.flatMap ShowWhenEntry.singles

/-! ### Sheets -/

/-- A look's field and when it shows. -/
structure ColumnLook where
  table : String
  column : String
  showWhen : ShowWhen := {}

/-- A component's kind, as far as what it has typed into it goes. -/
inductive WidgetKind where
  | tableInput
  | collection
  | other
  deriving DecidableEq

/-- A component. -/
structure Widget where
  id : String
  kind : WidgetKind
  fields : List FieldRef := []
  showWhen : ShowWhen := {}
  columnLooks : List ColumnLook := []

/-- A section of a sheet. -/
structure Section where
  id : String
  showWhen : ShowWhen := {}
  widgets : List Widget := []

/-- A sheet. -/
structure Page where
  id : String
  showWhen : ShowWhen := {}
  sections : List Section

/-- The form: its schema's tables and its sheets. -/
structure FormSpec where
  tables : List SchemaTable
  pages : List Page

/-- `_entered`: the columns a component has values typed into, each with when it shows. A
look's place is a dict's key, so the last look for a column is its look. -/
def entered (widget : Widget) : List (FieldRef × ShowWhen) :=
  if widget.kind = .other then []
  else widget.fields.map fun field =>
    (field, ((widget.columnLooks.reverse.find? fun look =>
      look.table = field.table ∧ look.column = field.column).map ColumnLook.showWhen).getD {})

/-! ### Its parts -/

/-- What may show. -/
inductive Item where
  | page (id : String)
  | sect (id : String)
  | widget (id : String)
  | field (widget table column : String)
  deriving DecidableEq

/-- How deep it lies: whatever holds it lies less deep. -/
def Item.depth : Item → ℕ
  | page _ => 0
  | sect _ => 1
  | widget _ => 2
  | field .. => 3

/-- A part of a form: what may show, what holds it, and when it shows. -/
structure Part where
  item : Item
  container : Option Item
  showWhen : ShowWhen

namespace FormSpec

variable (spec : FormSpec)

/-- Each section with its sheet. -/
def placedSections : List (Page × Section) :=
  spec.pages.flatMap fun page => page.sections.map fun sect => (page, sect)

/-- Each component with its section. -/
def placed : List (Section × Widget) :=
  spec.placedSections.flatMap fun (_, sect) => sect.widgets.map fun widget => (sect, widget)

/-- Each field with its component's id and when it shows. -/
def entered : List (String × FieldRef × ShowWhen) :=
  spec.placed.flatMap fun (_, widget) =>
    (Workbench.entered widget).map fun (field, showWhen) => (widget.id, field, showWhen)

/-- Its sheets, sections, components and fields. -/
def parts : List Part :=
  spec.pages.map (fun page => ⟨.page page.id, none, page.showWhen⟩) ++
  spec.placedSections.map
    (fun (page, sect) => ⟨.sect sect.id, some (.page page.id), sect.showWhen⟩) ++
  spec.placed.map
    (fun (sect, widget) => ⟨.widget widget.id, some (.sect sect.id), widget.showWhen⟩) ++
  spec.entered.map fun (widget, field, showWhen) =>
    ⟨.field widget field.table field.column, some (.widget widget), showWhen⟩

/-- Every part there is. -/
def everything : Finset Item := (spec.parts.map Part.item).toFinset

@[simp] theorem mem_everything {x : Item} :
    x ∈ spec.everything ↔ ∃ part ∈ spec.parts, part.item = x := by
  simp [everything]

/-- A part lies deeper than what holds it. -/
theorem depth_lt_of_mem_parts {part : Part} (h : part ∈ spec.parts) {c : Item}
    (hc : part.container = some c) : c.depth < part.item.depth := by
  simp only [parts, List.mem_append, List.mem_map] at h
  obtain ((⟨page, _, rfl⟩ | ⟨⟨page, sect⟩, _, rfl⟩) | ⟨⟨sect, widget⟩, _, rfl⟩) | ⟨⟨widget, field,
      showWhen⟩, _, rfl⟩ := h
  · cases hc
  all_goals
    cases hc
    simp [Item.depth]

/-- What holds a part is a part. -/
theorem container_mem_everything {part : Part} (h : part ∈ spec.parts) {c : Item}
    (hc : part.container = some c) : c ∈ spec.everything := by
  rw [mem_everything]
  simp only [parts, List.mem_append, List.mem_map] at h ⊢
  obtain ((⟨page, _, rfl⟩ | ⟨⟨page, sect⟩, hs, rfl⟩) | ⟨⟨sect, widget⟩, hw, rfl⟩) | ⟨⟨widget, field,
      showWhen⟩, hf, rfl⟩ := h
  · cases hc
  · cases hc
    simp only [placedSections, List.mem_flatMap, List.mem_map] at hs
    obtain ⟨page', hpage, sect', _, hpair⟩ := hs
    cases hpair
    exact ⟨_, .inl (.inl (.inl ⟨_, hpage, rfl⟩)), rfl⟩
  · cases hc
    simp only [placed, List.mem_flatMap, List.mem_map] at hw
    obtain ⟨⟨page', sect'⟩, hsect, widget', _, hpair⟩ := hw
    cases hpair
    exact ⟨_, .inl (.inl (.inr ⟨_, hsect, rfl⟩)), rfl⟩
  · cases hc
    simp only [entered, List.mem_flatMap, List.mem_map] at hf
    obtain ⟨⟨sect', widget'⟩, hwidget, ⟨field', showWhen'⟩, _, hpair⟩ := hf
    cases hpair
    exact ⟨_, .inl (.inr ⟨_, hwidget, rfl⟩), rfl⟩

end FormSpec

/-! ### The same form in another order -/

/-- An entry with a group's conditions in another order. -/
def ShowWhenEntry.Reordered : ShowWhenEntry → ShowWhenEntry → Prop
  | one c, one d => c = d
  | group m cs, group n ds => m = n ∧ cs.Perm ds
  | _, _ => False

theorem ShowWhenEntry.Reordered.refl : ∀ entry : ShowWhenEntry, entry.Reordered entry
  | one _ => rfl
  | group _ cs => ⟨rfl, .refl cs⟩

theorem ShowWhenEntry.Reordered.symm {x y : ShowWhenEntry} (h : x.Reordered y) : y.Reordered x := by
  cases x <;> cases y <;> simp only [ShowWhenEntry.Reordered] at h ⊢
  · exact h.symm
  · exact ⟨h.1.symm, h.2.symm⟩

/-- The same conditions in another order. -/
def ShowWhen.Reordered (x y : ShowWhen) : Prop :=
  x.holding = y.holding ∧ Rearranged ShowWhenEntry.Reordered x.conditions y.conditions

theorem ShowWhen.Reordered.refl (x : ShowWhen) : x.Reordered x :=
  ⟨rfl, .refl ShowWhenEntry.Reordered.refl⟩

theorem ShowWhen.Reordered.symm {x y : ShowWhen} (h : x.Reordered y) : y.Reordered x :=
  ⟨h.1.symm, h.2.symm ShowWhenEntry.Reordered.symm⟩

/-- A look whose conditions are in another order. -/
def ColumnLook.Reordered (x y : ColumnLook) : Prop :=
  x.table = y.table ∧ x.column = y.column ∧ x.showWhen.Reordered y.showWhen

/-- A component whose fields, or conditions, are in another order. -/
def Widget.Reordered (x y : Widget) : Prop :=
  x.id = y.id ∧ x.kind = y.kind ∧ x.fields.Perm y.fields ∧ x.showWhen.Reordered y.showWhen ∧
    List.Forall₂ ColumnLook.Reordered x.columnLooks y.columnLooks

/-- A section whose components, or conditions, are in another order. -/
def Section.Reordered (x y : Section) : Prop :=
  x.id = y.id ∧ x.showWhen.Reordered y.showWhen ∧ Rearranged Widget.Reordered x.widgets y.widgets

/-- A sheet whose sections, or conditions, are in another order. -/
def Page.Reordered (x y : Page) : Prop :=
  x.id = y.id ∧ x.showWhen.Reordered y.showWhen ∧ Rearranged Section.Reordered x.sections y.sections

/-- The same form with its pages, sections, components, fields and conditions in another
order. -/
def FormSpec.Reordered (x y : FormSpec) : Prop :=
  x.tables = y.tables ∧ Rearranged Page.Reordered x.pages y.pages

end Haute.Workbench
