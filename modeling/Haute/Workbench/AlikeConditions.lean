import Haute.Workbench.AlikeCells

/-!
# The server and the view ask a condition alike

`HeldSchema` is what the folder and the schema's checks hold a schema to; under it the two ways
of looking a column up are one. Then a condition fits exactly when the view finds no fault with
it, and holds exactly when the view's does, wherever the server answers.
-/

namespace Haute.Workbench

open Haute.Data

/-! ### A schema as its folder holds it -/

/-- What the folder and the schema's own checks hold a schema to: its tables and a table's
columns apart by their names, no colon in a column's, which is an identifier; an index an
Integer or a Text column; the allowed values stripped, as their params file is read. -/
structure HeldSchema (tables : List SchemaTable) : Prop where
  tableNames : (tables.map SchemaTable.name).Nodup
  columnNames : ∀ table ∈ tables, (table.columns.map SchemaColumn.name).Nodup
  plainColumns : ∀ table ∈ tables, ∀ column ∈ table.columns, ':' ∉ column.name.toList
  indexes : ∀ table ∈ tables, ∀ column ∈ table.columns, column.index.isSome →
    column.type = .int ∨ column.type = .str
  stripped : ∀ table ∈ tables, ∀ column ∈ table.columns, ∀ value ∈ column.options,
    pyStrip value = value

section Named

variable {α κ : Type} [DecidableEq κ] {key : α → κ} {xs : List α} {x : α} {k : κ}

/-- Of elements with distinct keys, what is found under a key is the one that has it. -/
theorem find?_key_eq_some_iff (h : (xs.map key).Nodup) :
    (xs.find? fun x => key x = k) = some x ↔ x ∈ xs ∧ key x = k := by
  constructor
  · intro hfind
    exact ⟨List.mem_of_find?_eq_some hfind, by simpa using List.find?_some hfind⟩
  · rintro ⟨hx, hk⟩
    cases hfind : xs.find? fun x => key x = k with
    | none => exact absurd hk (by simpa using List.find?_eq_none.mp hfind x hx)
    | some y =>
      have hy : key y = k := by simpa using List.find?_some hfind
      rw [List.inj_on_of_nodup_map h hx (List.mem_of_find?_eq_some hfind) (hk.trans hy.symm)]

/-- Of elements with distinct keys, at most one has a key. -/
theorem filter_key_eq (p : α → Bool) (h : (xs.map key).Nodup) :
    xs.filter (fun x => key x = k && p x) = ((xs.find? fun x => key x = k).filter p).toList := by
  induction xs with
  | nil => rfl
  | cons x xs ih =>
    rw [List.map_cons, List.nodup_cons] at h
    by_cases hx : key x = k
    · have hrest : xs.filter (fun x => key x = k && p x) = [] := by
        rw [List.filter_eq_nil_iff]
        intro y hy hk
        simp only [Bool.and_eq_true, decide_eq_true_eq] at hk
        exact h.1 (List.mem_map.mpr ⟨y, hy, hk.1.trans hx.symm⟩)
      cases hp : p x <;> simp [hx, hrest, hp, Option.filter_some]
    · simpa [hx] using ih h.2

/-- Of elements with distinct keys, the last under a key is the first. -/
theorem find?_reverse_key (h : (xs.map key).Nodup) :
    (xs.reverse.find? fun x => key x = k) = xs.find? fun x => key x = k := by
  have hreverse : (xs.reverse.map key).Nodup := by
    rw [List.map_reverse]
    exact List.nodup_reverse.mpr h
  ext y
  rw [find?_key_eq_some_iff hreverse, find?_key_eq_some_iff h, List.mem_reverse]

end Named

namespace HeldSchema

variable {tables : List SchemaTable} {table : SchemaTable} {name column : String}
  {found : SchemaColumn}

/-- A table found by its name is one of the tables. -/
theorem mem_of_tableOf (h : View.tableOf tables name = some table) :
    table ∈ tables ∧ table.name = name :=
  ⟨List.mem_of_find?_eq_some h, by simpa using List.find?_some h⟩

/-- A column found by its name is one of the table's. -/
theorem mem_of_columnOf (h : View.columnOf table column = some found) :
    found ∈ table.columns ∧ found.name = column :=
  ⟨List.mem_of_find?_eq_some h, by simpa using List.find?_some h⟩

/-- The tables of a name and kind are the one found by that name, if it is of the kind. -/
theorem filter_table (held : HeldSchema tables) (kind : RowsKind) :
    (tables.filter fun held => held.name = name ∧ held.rows = kind) =
      ((View.tableOf tables name).filter fun table => table.rows = kind).toList := by
  rw [View.tableOf, ← filter_key_eq _ held.tableNames]
  simp only [Bool.decide_and]

/-- The server's column of a one-row table is the view's. -/
theorem oneRowColumn_eq (held : HeldSchema tables) :
    oneRowColumn tables name column =
      ((View.tableOf tables name).filter fun table => table.rows = .one).bind fun table =>
        (View.columnOf table column).map fun found => (table, found) := by
  rw [oneRowColumn, held.filter_table]
  cases (View.tableOf tables name).filter fun table => table.rows = .one with
  | none => rfl
  | some table => simp [View.columnOf, List.find?_map]

/-- The server's tested column is the view's. -/
theorem testedColumn_eq (held : HeldSchema tables) :
    testedColumn tables name column =
      ((View.tableOf tables name).filter fun table => table.rows = .one).bind fun table =>
        table.inputs.find? fun found => found.name = column := by
  rw [testedColumn, held.filter_table]
  cases (View.tableOf tables name).filter fun table => table.rows = .one with
  | none => rfl
  | some table => simp

/-- A table's inputs are its columns that are no outputs. -/
theorem find?_inputs (held : HeldSchema tables) (htable : table ∈ tables) :
    (table.inputs.find? fun found => found.name = column) =
      (View.columnOf table column).filter fun found => !table.isOutput found.name := by
  have hnodup := held.columnNames table htable
  rw [View.columnOf, SchemaTable.columns, List.find?_append]
  cases hinput : table.inputs.find? fun found => found.name = column with
  | some found =>
    have hmem := List.mem_of_find?_eq_some hinput
    have hname : found.name = column := by simpa using List.find?_some hinput
    have hout : table.isOutput found.name = false := by
      rw [SchemaTable.isOutput, List.any_eq_false]
      intro other hother hsame
      rw [SchemaTable.columns, List.map_append, List.nodup_append] at hnodup
      exact hnodup.2.2 _ (List.mem_map_of_mem hmem) _ (List.mem_map_of_mem hother)
        (by simpa using (of_decide_eq_true hsame).symm)
    simp [hout, Option.filter_some]
  | none =>
    cases houtput : table.outputs.find? fun found => found.name = column with
    | none => rfl
    | some found =>
      have hout : table.isOutput found.name = true := by
        rw [SchemaTable.isOutput, List.any_eq_true]
        exact ⟨found, List.mem_of_find?_eq_some houtput, by simp⟩
      simp [hout, Option.filter_some]

/-- The server's column of a row is the view's, unless it numbers the rows. -/
theorem rowColumn_eq (held : HeldSchema tables) (htable : table ∈ tables) :
    rowColumn table name = (View.columnOf table name).filter fun found =>
      found.index ≠ some .numbered := by
  have hfilter :=
    filter_key_eq (k := name) (fun found : SchemaColumn => decide (found.index ≠ some .numbered))
    (held.columnNames table htable)
  rw [rowColumn, View.columnOf]
  rw [← List.head?_filter]
  simp only [Bool.decide_and]
  rw [hfilter]
  cases (table.columns.find? fun x => decide (x.name = name)).filter fun found =>
    decide (found.index ≠ some .numbered) <;> rfl

/-- The server's table of a list is the view's. -/
theorem listTable_eq (held : HeldSchema tables) (condition : ListCondition) :
    listTable tables condition =
      (View.tableOf tables condition.table).filter fun table => table.rows = .many := by
  rw [listTable, ← List.head?_filter, held.filter_table]
  cases (View.tableOf tables condition.table).filter fun table => table.rows = .many <;> rfl

end HeldSchema

/-! ### What stops a condition -/

section Faults

variable {type : ColumnType} {op : ConditionTest} {tables : List SchemaTable} {table : SchemaTable}
  {column : SchemaColumn} {test : ValueTest} {other : Option SchemaColumn} {b : Bool}

theorem isNone_findSome? {α β : Type} {f : α → Option β} {xs : List α} :
    (xs.findSome? f).isNone = xs.all fun x => (f x).isNone := by
  induction xs with
  | nil => rfl
  | cons x xs ih =>
    rw [List.findSome?_cons, List.all_cons]
    cases f x with
    | none => simpa using ih
    | some y => rfl

/-- View and server offer the same tests for a type. -/
theorem mem_testsFor : op ∈ View.testsFor type ↔ op ∈ testsOf type := by
  cases type <;> cases op <;> decide

/-- View and server agree on which tests take no value. -/
theorem takesValues_eq_none_iff : View.takesValues op = .none ↔ op ∈ noValues := by
  cases op <;> decide

/-- View and server agree on which tests take several values. -/
theorem takesValues_eq_some_iff : View.takesValues op = .some ↔ op ∈ choices := by
  cases op <;> decide

/-- View and server agree on which tests take one value. -/
theorem takesValues_eq_one_iff : View.takesValues op = .one ↔ op ∈ oneValue := by
  cases op <;> decide

/-- The view finds no fault in a value exactly when the server reads it. -/
theorem valueFault_of_ofType {value : String} (htype : column.type ≠ .bool)
    (h : ofType column.type value = .ok b) : (View.valueFault column value).isNone = b := by
  rw [← holdsValue_of_ofType h, View.valueFault, View.valueFits, View.holdsValue]
  by_cases hblank : pyStrip value = ""
  · simp [hblank]
  · cases View.ofType column.type (pyStrip value) <;> simp [hblank, htype]

/-- A test fits exactly when nothing stops it. -/
theorem testFault_of_fits (h : fits column.type test other.isSome other = .ok b) :
    (View.testFault column test other).isNone = b := by
  unfold fits at h
  unfold View.testFault
  by_cases hop : test.op ∈ testsOf column.type
  · rw [if_neg (not_not.mpr hop)] at h
    rw [if_neg (not_not.mpr (mem_testsFor.mpr hop))]
    cases other with
    | some other =>
      simp only [Option.isSome_some, if_true, Except.ok.injEq, Option.any_some] at h
      subst h
      by_cases hone : test.op ∈ oneValue
      · have htakes : View.takesValues test.op = .one := takesValues_eq_one_iff.mpr hone
        cases hvalues : test.values with
        | cons value rest => simp [hone, htakes]
        | nil =>
          by_cases htype : other.type = column.type
          · by_cases hdays : test.days = 0 <;> by_cases hdate : column.type = .date <;>
              simp [hone, htakes, htype, hdays, hdate]
          · simp [hone, htakes, htype]
      · have htakes : View.takesValues test.op ≠ .one :=
          fun htakes => hone (takesValues_eq_one_iff.mp htakes)
        simp [hone, htakes]
    | none =>
      simp only [Option.isSome_none, Bool.false_eq_true, if_false] at h
      by_cases hdays : test.days = 0
      · simp only [hdays, ne_eq, not_true_eq_false, if_false] at h ⊢
        -- the values, once they are counted
        have hvalues : ∀ b, test.values.allM (ofType column.type) = .ok b →
            (test.values ≠ [] → column.type ≠ .bool) →
            (test.values.findSome? (View.valueFault column)).isNone = b := by
          intro b hall htype
          rw [isNone_findSome?]
          refine all_of_allM (fun value hvalue c hc => valueFault_of_ofType (htype ?_) hc) hall
          exact List.ne_nil_of_mem hvalue
        by_cases hno : test.op ∈ noValues
        · have htakes : View.takesValues test.op = .none := takesValues_eq_none_iff.mpr hno
          cases hlist : test.values with
          | nil =>
            simp only [hno, hlist, if_true, List.length_nil] at h
            cases h
            simp [htakes]
          | cons value rest =>
            simp only [hno, hlist, if_true, List.length_cons, Nat.add_eq_zero_iff,
              one_ne_zero, and_false,
              if_false, Except.ok.injEq] at h
            subst h
            simp [htakes]
        · have htakes : View.takesValues test.op ≠ .none :=
            fun htakes => hno (takesValues_eq_none_iff.mp htakes)
          have htype : column.type ≠ .bool := by
            intro hbool
            rw [hbool] at hop
            exact hno (by revert hop; cases test.op <;> decide)
          by_cases hchoice : test.op ∈ choices
          · have htakes' : View.takesValues test.op = .some := takesValues_eq_some_iff.mpr hchoice
            by_cases hcount : 1 ≤ test.values.length
            · simp only [hno, if_false, hchoice, if_true, hcount] at h
              have hlength : test.values.length ≠ 0 := by omega
              simp only [htakes', hlength]
              simpa using hvalues b h fun _ => htype
            · simp only [hno, if_false, hchoice, if_true, hcount,
                Except.ok.injEq] at h
              have hlength : test.values.length = 0 := by omega
              subst h
              simp [htakes', hlength]
          · have htakes' : View.takesValues test.op = .one := by
              cases hop' : View.takesValues test.op with
              | none => exact absurd hop' htakes
              | one => rfl
              | some => exact absurd (takesValues_eq_some_iff.mp hop') hchoice
            by_cases hcount : test.values.length = 1
            · simp only [hno, if_false, hchoice, hcount, if_true] at h
              simp only [htakes', hcount]
              simpa using hvalues b h fun _ => htype
            · simp only [hno, if_false, hchoice, hcount, if_false,
                Except.ok.injEq] at h
              subst h
              by_cases hlength : test.values.length = 0
              · simp [htakes', hlength]
              · have hmore : 1 < test.values.length := by omega
                simp [htakes', hlength, hmore]
      · simp only [ne_eq, hdays, not_false_eq_true, if_true, Except.ok.injEq] at h
        subst h
        simp [hdays]
  · rw [if_pos hop] at h
    cases h
    rw [if_pos (fun hmem => hop (mem_testsFor.mp hmem))]
    rfl

/-- A test against a field that is not there fits nothing. -/
theorem fits_missing : fits type test true none = .ok false := by
  unfold fits
  split <;> simp

/-- A condition on a one-row table's column fits exactly when nothing stops it. -/
theorem columnFault_of_conditionFits (held : HeldSchema tables) {condition : Condition}
    (h : conditionFits tables (.one condition) = .ok b) :
    (View.columnFault tables condition).isNone = b := by
  simp only [conditionFits, held.oneRowColumn_eq] at h
  unfold View.columnFault
  cases htable : View.tableOf tables condition.table with
  | none =>
    simp only [htable, Option.filter_none, Option.bind_none, Except.ok.injEq] at h
    exact h
  | some table =>
    simp only [htable] at h
    dsimp only
    cases hcolumn : View.columnOf table condition.column with
    | none =>
      have hnone : ((some table).filter fun table => decide (table.rows = .one)).bind
          (fun table => (View.columnOf table condition.column).map fun found => (table, found)) =
            none := by
        rw [Option.filter_some]
        split <;> simp [hcolumn]
      rw [hnone] at h
      exact Except.ok.inj h
    | some column =>
      cases hrows : table.rows with
      | many =>
        simp only [Option.filter_some, hrows, reduceCtorEq, decide_false,
          Bool.false_eq_true, if_false,
          Option.bind_none, Except.ok.injEq] at h
        exact h
      | one =>
        simp only [Option.filter_some, hrows, decide_true, if_true, Option.bind_some, hcolumn,
          Option.map_some] at h
        simp only [reduceCtorEq, if_false]
        cases hfield : condition.field with
        | none =>
          simp only [hfield, Option.isSome_none, Bool.false_eq_true, and_false,
            if_false, otherColumn,
            Option.bind_none] at h
          exact @testFault_of_fits column _ none b h
        | some field =>
          simp only [hfield, Option.isSome_some, and_true] at h
          by_cases hout : table.isOutput column.name = true
          · rw [if_pos hout] at h
            simp only [hout, if_true]
            exact Except.ok.inj h
          · rw [if_neg hout] at h
            simp only [hout, if_false, Bool.false_eq_true]
            -- the other field, looked up either way
            have hother : (∃ other, View.otherFault tables column field = .ok other ∧
                otherColumn tables condition = some other) ∨
                ((∃ fault, View.otherFault tables column field = .error fault) ∧
                  otherColumn tables condition = none) := by
              rw [otherColumn, hfield, Option.bind_some, held.testedColumn_eq, View.otherFault]
              cases hin : View.tableOf tables field.table with
              | none => exact .inr ⟨⟨_, rfl⟩, rfl⟩
              | some inside =>
                obtain ⟨hinside, -⟩ := HeldSchema.mem_of_tableOf hin
                have hinputs := @HeldSchema.find?_inputs tables inside field.column held hinside
                dsimp only
                cases hfound : View.columnOf inside field.column with
                | none =>
                  refine .inr ⟨⟨_, rfl⟩, ?_⟩
                  rw [Option.filter_some]
                  split <;> simp [hinputs, hfound]
                | some other =>
                  dsimp only
                  rw [hfound, Option.filter_some] at hinputs
                  by_cases hout' : inside.isOutput other.name = true
                  · rw [if_pos hout']
                    refine .inr ⟨⟨_, rfl⟩, ?_⟩
                    rw [Option.filter_some]
                    split <;> simp [hinputs, hout']
                  · rw [if_neg hout']
                    cases hkind : inside.rows with
                    | many => exact .inr ⟨⟨_, rfl⟩, by simp [Option.filter_some, hkind]⟩
                    | one =>
                      exact .inl ⟨other, rfl, by simp [Option.filter_some, hkind, hinputs, hout']⟩
            obtain ⟨other, hview, hserver⟩ | ⟨⟨fault, hview⟩, hserver⟩ := hother
            · rw [hserver] at h
              rw [hview]
              exact @testFault_of_fits column _ (some other) b h
            · rw [hserver, fits_missing] at h
              rw [hview]
              exact Except.ok.inj h

/-- A test of a row fits exactly when nothing stops it. -/
theorem rowTestFault_of_rowTestFits (held : HeldSchema tables) (hmem : table ∈ tables)
    {test : RowTest}
    (h : rowTestFits table test = .ok b) : (View.rowTestFault table test).isNone = b := by
  unfold rowTestFits at h
  unfold View.rowTestFault
  rw [held.rowColumn_eq hmem] at h
  -- the tested column, then the one it is compared with: known, and not numbered
  cases hcolumn : View.columnOf table test.column with
  | none =>
    simp only [hcolumn, Option.filter_none, ite_self, Except.ok.injEq] at h
    exact h
  | some column =>
    have hname := (HeldSchema.mem_of_columnOf hcolumn).2
    simp only [hcolumn, Option.filter_some] at h
    dsimp only
    by_cases hindex : column.index = some .numbered
    · simp only [hindex, ne_eq, not_true_eq_false, decide_false, Bool.false_eq_true,
        if_false, ite_self,
        Except.ok.injEq] at h
      simp only [hindex, if_true]
      exact h
    · simp only [ne_eq, hindex, not_false_eq_true, decide_true, if_true] at h
      simp only [hindex, if_false]
      cases hfield : test.field with
      | none =>
        simp only [hfield, Option.any_none, Bool.false_eq_true, if_false, Option.isSome_none,
          Option.bind_none] at h
        exact @testFault_of_fits column _ none b h
      | some field =>
        simp only [hfield, Option.any_some, Option.isSome_some, Option.bind_some,
          held.rowColumn_eq hmem] at h
        dsimp only
        rw [hname]
        by_cases hout : table.isOutput test.column = true
        · simp only [hout, Bool.true_or, if_true, Except.ok.injEq] at h ⊢
          exact h
        · simp only [hout, Bool.false_or, Bool.false_eq_true, if_false] at h ⊢
          cases hother : View.columnOf table field with
          | none =>
            simp only [hother, Option.filter_none, fits_missing, ite_self, Except.ok.injEq] at h
            exact h
          | some other =>
            have hother' := (HeldSchema.mem_of_columnOf hother).2
            simp only [hother, Option.filter_some] at h
            dsimp only
            rw [hother']
            by_cases hindex' : other.index = some .numbered
            · simp only [hindex', ne_eq, not_true_eq_false, decide_false,
                Bool.false_eq_true, if_false,
                fits_missing, ite_self, Except.ok.injEq] at h
              simp only [hindex', if_true]
              exact h
            · simp only [ne_eq, hindex', not_false_eq_true, decide_true, if_true] at h
              simp only [hindex', if_false]
              by_cases hout' : table.isOutput field = true
              · simp only [hout', if_true, Except.ok.injEq] at h ⊢
                exact h
              · simp only [hout', Bool.false_eq_true, if_false] at h ⊢
                exact @testFault_of_fits column _ (some other) b h

/-- Truth values are mixed when both occur. -/
theorem one_lt_length_dedup_iff {bs : List Bool} :
    1 < bs.dedup.length ↔ true ∈ bs ∧ false ∈ bs := by
  rw [← List.card_toFinset, Finset.one_lt_card]
  simp only [List.mem_toFinset]
  constructor
  · rintro ⟨a, ha, b, hb, hne⟩
    cases a <;> cases b <;> simp_all
  · rintro ⟨htrue, hfalse⟩
    exact ⟨true, htrue, false, hfalse, by decide⟩

/-- A test nothing stops reads inputs alone, if it is against a column. -/
theorem inputs_of_rowTestFault {test : RowTest} {field : String} (hfield : test.field = some field)
    (h : View.rowTestFault table test = none) :
    table.isOutput test.column = false ∧ table.isOutput field = false := by
  unfold View.rowTestFault at h
  split at h
  · cases h
  rename_i column hcolumn
  rw [hfield, (HeldSchema.mem_of_columnOf hcolumn).2] at h
  dsimp only at h
  split_ifs at h with hindex hout
  split at h
  · cases h
  rename_i other hother
  rw [(HeldSchema.mem_of_columnOf hother).2] at h
  split_ifs at h with hindex' hout'
  exact ⟨Bool.eq_false_iff.mpr hout, Bool.eq_false_iff.mpr hout'⟩

/-- While nothing stops the tests, the columns they name decide a condition's block. -/
theorem mem_map_listColumns_iff {condition : ListCondition}
    (h : ∀ test ∈ condition.tests, View.rowTestFault table test = none) (out : Bool) :
    out ∈ (listColumns condition).map table.isOutput ↔
      out ∈ (View.namedColumns condition).map table.isOutput := by
  simp only [listColumns, View.namedColumns, List.map_append, List.mem_append]
  refine or_congr_left ?_
  simp only [List.mem_map, List.mem_flatMap, List.mem_cons, Option.mem_toList]
  constructor
  · rintro ⟨name, ⟨test, htest, rfl | hfield⟩, rfl⟩
    · exact ⟨test.column, ⟨test, htest, rfl⟩, rfl⟩
    · obtain ⟨hcolumn, hin⟩ := inputs_of_rowTestFault hfield (h test htest)
      exact ⟨test.column, ⟨test, htest, rfl⟩, hcolumn.trans hin.symm⟩
  · rintro ⟨_, ⟨test, htest, rfl⟩, rfl⟩
    exact ⟨test.column, ⟨test, htest, .inl rfl⟩, rfl⟩

/-- A total's column and value fit exactly when nothing stops them. -/
theorem totalFault_of_ok (held : HeldSchema tables) (hmem : table ∈ tables) {total : RowTotal}
    (h : (match rowColumn table total.column with
      | none => (pure false : Except TestError Bool)
      | some column =>
        if column.type = ColumnType.int ∨ column.type =
          ColumnType.float then ofType .float total.value
        else pure false) = .ok b) :
    (View.totalFault table total).isNone = b := by
  rw [held.rowColumn_eq hmem] at h
  unfold View.totalFault
  cases hcolumn : View.columnOf table total.column with
  | none =>
    simp only [hcolumn, Option.filter_none, pure, Except.pure, Except.ok.injEq] at h
    exact h
  | some column =>
    simp only [hcolumn, Option.filter_some] at h
    dsimp only
    by_cases hindex : column.index = some .numbered
    · simp only [hindex, ne_eq, not_true_eq_false, decide_false, Bool.false_eq_true, if_false, pure,
        Except.pure, Except.ok.injEq] at h
      simp only [hindex, if_true]
      exact h
    · simp only [ne_eq, hindex, not_false_eq_true, decide_true, if_true] at h
      simp only [hindex, if_false]
      by_cases htype : column.type = .int ∨ column.type = .float
      · rw [if_pos htype] at h
        have hnot : ¬ (column.type ≠ .int ∧ column.type ≠ .float) :=
          fun hne => htype.elim hne.1 hne.2
        have hholds := holdsValue_of_ofType h
        simp only [View.holdsValue] at hholds
        rw [if_neg hnot, ← hholds]
        by_cases hblank : pyStrip total.value = ""
        · simp [hblank]
        · generalize View.ofType .float (pyStrip total.value) = reads
          cases reads <;> simp [hblank]
      · rw [if_neg htype] at h
        rw [if_pos (not_or.mp htype)]
        exact Except.ok.inj h

/-- A condition on a list's rows fits exactly when nothing stops it. -/
theorem listFault_of_conditionFits (held : HeldSchema tables) {condition : ListCondition}
    (h : conditionFits tables (.list condition) = .ok b) :
    (View.listFault tables condition).isNone = b := by
  simp only [conditionFits, held.listTable_eq] at h
  unfold View.listFault
  cases htable : View.tableOf tables condition.table with
  | none =>
    simp only [htable, Option.filter_none, Except.ok.injEq] at h
    exact h
  | some table =>
    obtain ⟨hmem, -⟩ := HeldSchema.mem_of_tableOf htable
    simp only [htable, Option.filter_some] at h
    dsimp only
    cases hrows : table.rows with
    | one =>
      simp only [hrows, reduceCtorEq, decide_false, Bool.false_eq_true, if_false,
        Except.ok.injEq] at h
      simpa using h
    | many =>
      simp only [hrows, decide_true, if_true] at h
      simp only [reduceCtorEq, if_false]
      have hfaults : ∀ test ∈ condition.tests, ∀ c, rowTestFits table test = .ok c →
          (View.rowTestFault table test).isNone = c :=
            fun test _ c hc => rowTestFault_of_rowTestFits held hmem hc
      by_cases htests : ∀ test ∈ condition.tests, View.rowTestFault table test = none
      · -- nothing stops the tests: the two read the block off the same columns
        have hblock : 1 < ((listColumns condition).map table.isOutput).dedup.length ↔
            1 < ((View.namedColumns condition).map table.isOutput).dedup.length := by
          rw [one_lt_length_dedup_iff, one_lt_length_dedup_iff, mem_map_listColumns_iff htests,
            mem_map_listColumns_iff htests]
        have hfirst : condition.tests.findSome? (View.rowTestFault table) = none :=
          List.findSome?_eq_none_iff.mpr htests
        unfold listFits at h
        -- tests of inputs and outputs at once are refused by both
        by_cases hmixed : 1 < ((listColumns condition).map table.isOutput).dedup.length
        · rw [if_pos hmixed] at h
          rw [if_pos (hblock.mp hmixed)]
          exact Except.ok.inj h
        · rw [if_neg hmixed] at h
          rw [if_neg fun hnamed => hmixed (hblock.mpr hnamed), hfirst]
          simp only [bind, Except.bind] at h
          split at h
          · cases h
          rename_i fit hfit
          have hall := all_of_allM hfaults hfit
          have htrue : condition.tests.all (fun test => (View.rowTestFault table test).isNone) =
              true := by
            rw [List.all_eq_true]
            exact fun test htest => by rw [htests test htest]; rfl
          rw [htrue] at hall
          subst hall
          simp only [Bool.not_true, Bool.false_eq_true, if_false] at h
          cases hasked : condition.asked with
          | total total =>
            rw [hasked] at h
            exact totalFault_of_ok held hmem h
          | _ =>
            rw [hasked] at h
            exact Except.ok.inj h
      · -- something stops a test, and the server's tests do not all fit
        have hb : b = false := by
          cases b with
          | false => rfl
          | true =>
            unfold listFits at h
            split at h
            · cases h
            simp only [bind, Except.bind] at h
            split at h
            · cases h
            rename_i fit hfit
            have hall := all_of_allM hfaults hfit
            cases fit with
            | false => cases h
            | true =>
              refine absurd (fun test htest => ?_) htests
              exact Option.isNone_iff_eq_none.mp (List.all_eq_true.mp hall test htest)
        have hsome : ∃ fault, condition.tests.findSome? (View.rowTestFault table) = some fault := by
          cases hfirst : condition.tests.findSome? (View.rowTestFault table) with
          | none => exact absurd (List.findSome?_eq_none_iff.mp hfirst) htests
          | some fault => exact ⟨fault, rfl⟩
        obtain ⟨fault, hfault⟩ := hsome
        rw [hb, hfault]
        split <;> rfl

/-- A condition can hold as written exactly when the view finds no fault with it. -/
theorem conditionFault_of_conditionFits (held : HeldSchema tables) {condition : SingleCondition}
    (h : conditionFits tables condition = .ok b) :
    (View.conditionFault tables condition).isNone = b := by
  cases condition with
  | one condition => exact columnFault_of_conditionFits held h
  | list condition => exact listFault_of_conditionFits held h

end Faults

end Haute.Workbench
