import Haute.Shred.Reader
import Haute.Schema.Validated
import Haute.Path.Steps

/-!
# Emitting tables

A table *emits* when it is switched on and has a selected column. `emittingTableSpecs`
validates a config and parses each emitting table once, into the form the walk, the frames
and the caches share.

`ValidSpecs` is what the parsed tables keep of validation: distinct labels, and in each
table a level to sit at, distinct column names, and columns that read from the table's own
element or an enclosing one.
-/

namespace Haute

/-- `bool(value)`. -/
def Value.truthy : Value → Bool
  | none => false
  | bool b => b
  | int n => decide (n ≠ 0)
  | float (.finite q) => decide (q ≠ 0)
  | float .negZero => false
  | float _ => true
  | str s => !s.isEmpty
  | date _ => true
  | list xs => !xs.isEmpty
  | dict fields => !fields.isEmpty

/-- A column that is a dict and is selected. -/
def selectedColumn? : Value → Option (List (String × Value))
  | .dict column => if (Value.getKey column "selected").truthy then some column else none
  | _ => none

/-- A table's selected columns; what is no list of columns has none. -/
def selectedColumns (table : List (String × Value)) : List (List (String × Value)) :=
  match Value.getKey table "columns" with
  | .list columns => columns.filterMap selectedColumn?
  | _ => []

/-- The table contributes a data frame: it emits, and at least one column is selected. -/
def tableIsEmitting : Value → Bool
  | .dict table => (Value.getKey table "emit").truthy && !(selectedColumns table).isEmpty
  | _ => false

/-- One validated emitting table, parsed once for every consumer. -/
structure EmittingTableSpec where
  label : String
  segments : Level
  columns : List WalkSpec
  /-- A date column's name and strftime pattern, where it sets one. -/
  dateFormats : List (String × String)
  deriving DecidableEq

namespace EmittingTableSpec

/-- The array depth of the table's elements. -/
def depth (spec : EmittingTableSpec) : ℕ := arrayDepth spec.segments

/-- The steps from the root to the table's array. -/
def steps (spec : EmittingTableSpec) : List Step := stepsOf spec.segments

/-- A scalar child table: a column is the element itself. -/
def isScalarTable (spec : EmittingTableSpec) : Bool :=
  spec.columns.any fun column => column.isValueLeaf && decide (column.depth = spec.depth)

end EmittingTableSpec

/-- Raise if a table mixes the reserved leaf with a sibling at the table's own depth. -/
def rejectReservedLeafCollision (label : String) (ownDepth : ℕ) (columns : List WalkSpec) :
    Except PyError Unit :=
  let own := columns.filter fun column => column.depth = ownDepth
  require (!(own.any WalkSpec.isValueLeaf && decide (1 < own.length)))
    (.apiInputSchema ("table " ++ pyRepr label ++ " mixes the reserved '" ++ reservedLeaf ++
      "' scalar-array leaf with a real sibling column at the same depth; a " ++
      "'$value' column must be the table's only own-depth column " ++
      "(own-depth columns: [" ++ ", ".intercalate (own.map fun c => pyRepr c.name) ++ "])")
      [("table", .str label)])

/-- The walk-time form of one selected column. Validation has checked every key read here. -/
def walkSpec (column : List (String × Value)) : Except PyError WalkSpec := do
  let path ← expect (nonEmptyStr? (Assoc.get? column "path")) (.key "path")
  let (locating, leaf) ← parseColumnPathFull path
  let name ← expect (nonEmptyStr? (Assoc.get? column "name")) (.key "name")
  let type ← expect (columnType? column) (.key "type")
  pure ⟨name, leaf, type, arrayDepth locating⟩

/-- A column's date format, under its name. -/
def dateFormat? (column : List (String × Value)) : Option (String × String) :=
  match Assoc.get? column "name", Assoc.get? column "format" with
  | some (.str name), some (.str format) => some (name, format)
  | _, _ => none

/-- Parse one emitting table. -/
def tableSpec (table : List (String × Value)) : Except PyError EmittingTableSpec := do
  let path ← expect (nonEmptyStr? (Assoc.get? table "path")) (.key "path")
  let segments ← parseTablePath path
  let columns ← (selectedColumns table).mapM walkSpec
  let label ← expect (nonEmptyStr? (Assoc.get? table "label")) (.key "label")
  rejectReservedLeafCollision label (arrayDepth segments) columns
  pure { label, segments, columns, dateFormats := (selectedColumns table).filterMap dateFormat? }

/-- A table that is a dict and emits. -/
def emittingTable? (table : Value) : Option (List (String × Value)) :=
  match table with
  | .dict fields => if tableIsEmitting table then some fields else none
  | _ => none

/-- The tables of a config. -/
def configTables (config : List (String × Value)) : List Value :=
  match Assoc.get? config "tables" with
  | some (.list tables) => tables
  | _ => []

/-- Validate a config and parse every emitting table. -/
def emittingTableSpecs (config : List (String × Value)) :
    Except PyError (List EmittingTableSpec) := do
  validateV2Schema config
  ((configTables config).filterMap emittingTable?).mapM tableSpec

/-! ### What the specs keep of validation -/

/-- What validation promises of one emitting table. -/
structure ValidSpec (spec : EmittingTableSpec) : Prop where
  isLevel : IsLevel spec.segments
  nodupNames : (spec.columns.map WalkSpec.name).Nodup
  leaf_ne_nil : ∀ column ∈ spec.columns, column.leaf ≠ []
  depth_le : ∀ column ∈ spec.columns, column.depth ≤ spec.depth
  columns_ne_nil : spec.columns ≠ []

/-- What validation promises of the emitting tables. -/
structure ValidSpecs (specs : List EmittingTableSpec) : Prop where
  nodupLabels : (specs.map EmittingTableSpec.label).Nodup
  spec : ∀ spec ∈ specs, ValidSpec spec

theorem isLevel_of_parseTablePath {path : String} {segments : List Seg}
    (h : parseTablePath path = .ok segments) : IsLevel segments := by
  simp only [parseTablePath, bind_eq_ok_iff, require_eq_ok_iff, exists_const,
    decide_eq_true_eq] at h
  obtain ⟨parsed, -, hlast, hpure⟩ := h
  cases hpure
  intro seg hseg
  rw [Option.mem_def.mp hseg, Option.map_some, ne_eq, Option.some.injEq, Bool.not_eq_false] at hlast
  exact hlast

theorem parseColumnPathFull_eq_ok {path : String} {locating : Level} {leaf : List String}
    (h : parseColumnPathFull path = .ok (locating, leaf)) : IsLevel locating ∧ leaf ≠ [] := by
  simp only [parseColumnPathFull, bind_eq_ok_iff, require_eq_ok_iff, exists_const] at h
  obtain ⟨parsed, -, hleaf, hpure⟩ := h
  cases hpure
  exact ⟨isLevel_arrayPrefix _, by simpa using hleaf⟩

/-- A column accepted under a table is located at the table or above it. -/
theorem parseColumnPath_eq_ok_iff {path tablePath : String} {leaf : List String} :
    parseColumnPath path tablePath = .ok leaf ↔ ∃ locating segments,
      parseColumnPathFull path = .ok (locating, leaf) ∧ parseTablePath tablePath = .ok segments ∧
      locating <+: segments := by
  simp only [parseColumnPath, bind_eq_ok_iff, require_eq_ok_iff, exists_const, decide_eq_true_eq,
    List.prefix_iff_eq_take, Prod.exists]
  constructor
  · rintro ⟨locating, leaf', hfull, segments, hsegments, hpre, hpure⟩
    cases hpure
    exact ⟨locating, segments, hfull, hsegments, hpre⟩
  · rintro ⟨locating, segments, hfull, hsegments, hpre⟩
    exact ⟨locating, leaf, hfull, segments, hsegments, hpre, rfl⟩

theorem walkSpec_eq_ok_iff {column : List (String × Value)} {spec : WalkSpec} :
    walkSpec column = .ok spec ↔ ∃ path locating,
      nonEmptyStr? (Assoc.get? column "path") = some path ∧
      parseColumnPathFull path = .ok (locating, spec.leaf) ∧
      nonEmptyStr? (Assoc.get? column "name") = some spec.name ∧
      columnType? column = some spec.type ∧ spec.depth = arrayDepth locating := by
  simp only [walkSpec, bind_eq_ok_iff, expect_eq_ok_iff, Prod.exists]
  constructor
  · rintro ⟨path, hpath, locating, leaf, hfull, name, hname, type, htype, hpure⟩
    cases hpure
    exact ⟨path, locating, hpath, hfull, hname, htype, rfl⟩
  · rintro ⟨path, locating, hpath, hfull, hname, htype, hdepth⟩
    exact ⟨path, hpath, locating, spec.leaf, hfull, spec.name, hname, spec.type, htype, by
      rw [← hdepth]; rfl⟩

theorem tableSpec_eq_ok_iff {table : List (String × Value)} {spec : EmittingTableSpec} :
    tableSpec table = .ok spec ↔ ∃ path,
      nonEmptyStr? (Assoc.get? table "path") = some path ∧
      parseTablePath path = .ok spec.segments ∧
      List.Forall₂ (fun column c => walkSpec column = .ok c) (selectedColumns table) spec.columns ∧
      nonEmptyStr? (Assoc.get? table "label") = some spec.label ∧
      rejectReservedLeafCollision spec.label spec.depth spec.columns = .ok () ∧
      spec.dateFormats = (selectedColumns table).filterMap dateFormat? := by
  simp only [tableSpec, bind_eq_ok_iff, expect_eq_ok_iff, mapM_eq_ok_iff]
  constructor
  · rintro ⟨path, hpath, segments, hsegments, columns, hcolumns, label, hlabel, ⟨⟩, hreject, hpure⟩
    cases hpure
    exact ⟨path, hpath, hsegments, hcolumns, hlabel, hreject, rfl⟩
  · rintro ⟨path, hpath, hsegments, hcolumns, hlabel, hreject, hformats⟩
    exact ⟨path, hpath, spec.segments, hsegments, spec.columns, hcolumns, spec.label, hlabel, (),
      hreject, by rw [← hformats]; rfl⟩

/-- A valid table's columns are valid, and those selected keep their names in order. -/
theorem exists_names_selectedColumns {path : String} {columns : List Value} {names : List String}
    (h : List.Forall₂ (IsValidColumn path) columns names) :
    ∃ selected, selected.Sublist names ∧
      List.Forall₂ (fun column name => ValidColumn path column name)
        (columns.filterMap selectedColumn?) selected := by
  induction h with
  | nil => exact ⟨[], List.Sublist.refl _, .nil⟩
  | @cons column name columns names hcolumn _ ih =>
    obtain ⟨selected, hsub, hall⟩ := ih
    obtain ⟨fields, rfl, hvalid⟩ := hcolumn
    rw [List.filterMap_cons, selectedColumn?]
    split_ifs
    · exact ⟨name :: selected, hsub.cons_cons _, .cons hvalid hall⟩
    · exact ⟨selected, hsub.cons _, hall⟩

theorem ValidTable.selectedColumns {table : List (String × Value)} {label : String}
    (h : ValidTable table label) : ∃ path segments names,
      nonEmptyStr? (Assoc.get? table "path") = some path ∧ parseTablePath path = .ok segments ∧
      names.Nodup ∧ List.Forall₂ (fun column name => ValidColumn path column name)
        (selectedColumns table) names := by
  obtain ⟨path, hpath, ⟨segments, hsegments⟩, columns, names, hcolumns, hall, hnodup, -⟩ := h.path
  obtain ⟨selected, hsub, hselected⟩ := exists_names_selectedColumns hall
  refine ⟨path, segments, selected, hpath, hsegments, hnodup.sublist hsub, ?_⟩
  cases hget : Assoc.get? table "columns" with
  | none =>
    rw [hget] at hcolumns
    cases hcolumns
    cases hselected
    simp [Haute.selectedColumns, Value.getKey, hget]
  | some value =>
    rw [hget] at hcolumns
    obtain rfl : value = .list columns := hcolumns
    simpa [Haute.selectedColumns, Value.getKey, hget] using hselected

theorem validSpec_of_tableSpec {table : List (String × Value)} {label : String}
    {spec : EmittingTableSpec} (h : ValidTable table label)
    (hemit : tableIsEmitting (.dict table) = true) (hspec : tableSpec table = .ok spec) :
    spec.label = label ∧ ValidSpec spec := by
  obtain ⟨path, hpath, hsegments, hcolumns, hlabel, -, -⟩ := tableSpec_eq_ok_iff.mp hspec
  obtain ⟨path', segments, names, hpath', hsegments', hnodup, hvalid⟩ := h.selectedColumns
  obtain rfl : path = path' := Option.some.inj (hpath.symm.trans hpath')
  refine ⟨Option.some.inj (hlabel.symm.trans h.labelled), isLevel_of_parseTablePath hsegments, ?_,
    fun column hcolumn => ?_, fun column hcolumn => ?_, ?_⟩
  · have hnames :
        ∀ {columns : List (List (String × Value))} {cs : List WalkSpec} {names : List String},
        List.Forall₂ (fun column c => walkSpec column = .ok c) columns cs →
        List.Forall₂ (fun column name => ValidColumn path column name) columns names →
        cs.map WalkSpec.name = names := by
      intro columns cs names hcs hnames
      induction hcs generalizing names with
      | nil =>
        cases hnames
        rfl
      | cons hc _ ih =>
        cases hnames with
        | cons hname hnames =>
          obtain ⟨_, _, -, -, hname', -⟩ := walkSpec_eq_ok_iff.mp hc
          rw [List.map_cons, ih hnames, Option.some.inj (hname'.symm.trans hname.name)]
    exact (hnames hcolumns hvalid).symm ▸ hnodup
  · obtain ⟨fields, -, hcolumn⟩ := hcolumns.exists_of_mem_right hcolumn
    obtain ⟨_, _, -, hfull, -⟩ := walkSpec_eq_ok_iff.mp hcolumn
    exact (parseColumnPathFull_eq_ok hfull).2
  · obtain ⟨fields, hfields, hcolumn⟩ := hcolumns.exists_of_mem_right hcolumn
    obtain ⟨cpath, locating, hcpath, hfull, -, -, hdepth⟩ := walkSpec_eq_ok_iff.mp hcolumn
    obtain ⟨name, -, hname⟩ := hvalid.exists_of_mem_left hfields
    obtain ⟨cpath', hcpath', leaf, hleaf⟩ := hname.path
    obtain rfl : cpath = cpath' := Option.some.inj (hcpath.symm.trans hcpath')
    obtain ⟨locating', segments', hfull', hsegments'', hpre⟩ := parseColumnPath_eq_ok_iff.mp hleaf
    cases hfull.symm.trans hfull'
    cases hsegments.symm.trans hsegments''
    rw [hdepth]
    exact hpre.sublist.countP_le
  · rintro hnil
    rw [hnil] at hcolumns
    have : selectedColumns table = [] := List.forall₂_nil_right_iff.mp hcolumns
    simp [tableIsEmitting, this] at hemit

/-- **The specs of an accepted config are valid.** -/
theorem validSpecs_of_emittingTableSpecs {config : List (String × Value)}
    {specs : List EmittingTableSpec} (h : emittingTableSpecs config = .ok specs) :
    ValidSpecs specs := by
  obtain ⟨⟨⟩, hvalid, hspecs⟩ := bind_eq_ok_iff.mp h
  obtain ⟨tables, labels, htables, hall, hnodup⟩ := validateV2Schema_eq_ok_iff.mp hvalid
  rw [configTables, htables] at hspecs
  have hspecs := mapM_eq_ok_iff.mp hspecs
  have hlabels : ∀ {tables : List Value} {labels : List String} {specs : List EmittingTableSpec},
      List.Forall₂ IsValidTable tables labels →
      List.Forall₂ (fun table spec => tableSpec table = .ok spec)
        (tables.filterMap emittingTable?) specs →
      (specs.map EmittingTableSpec.label).Sublist labels ∧ ∀ spec ∈ specs, ValidSpec spec := by
    intro tables labels specs hall hspecs
    induction hall generalizing specs with
    | nil =>
      cases hspecs
      exact ⟨List.Sublist.refl _, by simp⟩
    | @cons table label tables labels htable _ ih =>
      obtain ⟨fields, rfl, htable⟩ := htable
      rw [List.filterMap_cons, emittingTable?] at hspecs
      split_ifs at hspecs with hemit
      · cases hspecs with
        | @cons _ spec _ specs hspec hspecs =>
          obtain ⟨hsub, hvalid⟩ := ih hspecs
          obtain ⟨hlabel, hspec⟩ := validSpec_of_tableSpec htable hemit hspec
          refine ⟨?_, List.forall_mem_cons.mpr ⟨hspec, hvalid⟩⟩
          rw [List.map_cons, hlabel]
          exact hsub.cons_cons _
      · obtain ⟨hsub, hvalid⟩ := ih hspecs
        exact ⟨hsub.cons _, hvalid⟩
  obtain ⟨hsub, hvalid⟩ := hlabels hall hspecs
  exact ⟨(List.Nodup.of_map _ hnodup).sublist hsub, hvalid⟩

end Haute
