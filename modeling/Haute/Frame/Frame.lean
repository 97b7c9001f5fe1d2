import Haute.Schema.Validate
import Haute.Data.Nested

/-!
# Typed frames

A frame as the pipeline passes it around: named columns, each of one dtype, and rows that
are dicts over the columns in order. A `Frame` carries the proof that every cell fits its
column, so a row of a frame has exactly the frame's columns and each cell is null or a
value of its column's dtype.

The scalar dtypes are those a declared column is built with; an `int` column is Int64, so
it holds no integer outside that range.
-/

namespace Haute

/-- The integers of Int64. -/
def inInt64 (n : ℤ) : Bool := decide (-2 ^ 63 ≤ n ∧ n < 2 ^ 63)

/-- Whether a column of this type holds the value: `None`, or a value of the type. -/
def ColumnType.holds : ColumnType → Value → Bool
  | _, .none => true
  | .int, .int n => inInt64 n
  | .float, .float _ => true
  | .str, .str _ => true
  | .bool, .bool _ => true
  | .date, .date _ => true
  | _, _ => false

/-- A dtype: a declared column's, or a container's. -/
inductive DType where
  | scalar (type : ColumnType)
  | list (item : DType)
  | struct (fields : List (String × DType))

namespace DType

instance : Inhabited DType := ⟨struct []⟩

mutual

/-- Structural equality of dtypes. -/
def beq : DType → DType → Bool
  | scalar a, scalar b => decide (a = b)
  | list a, list b => beq a b
  | struct fs, struct gs => beqFields fs gs
  | _, _ => false

/-- Structural equality of struct fields. -/
def beqFields : List (String × DType) → List (String × DType) → Bool
  | [], [] => true
  | (k, a) :: fs, (l, b) :: gs => decide (k = l) && beq a b && beqFields fs gs
  | _, _ => false

end

mutual

theorem beq_iff : ∀ a b : DType, beq a b = true ↔ a = b
  | scalar t, b => by cases b <;> simp [beq]
  | list t, b => by cases b <;> simp [beq, beq_iff t]
  | struct fs, b => by cases b <;> simp [beq, beqFields_iff fs]

theorem beqFields_iff : ∀ fs gs : List (String × DType), beqFields fs gs = true ↔ fs = gs
  | [], gs => by cases gs <;> simp [beqFields]
  | (k, t) :: fs, gs => by
    cases gs <;> simp [beqFields, beq_iff t, beqFields_iff fs, Prod.ext_iff]

end

instance : DecidableEq DType := fun a b => decidable_of_iff _ (beq_iff a b)

mutual

/-- Whether a cell of this dtype holds the value. No struct repeats a field name. -/
def fits : DType → Value → Bool
  | _, .none => true
  | scalar t, v => t.holds v
  | list t, .list xs => fitsAll t xs
  | struct ts, .dict fs => decide (Assoc.keys ts).Nodup && fitsFields ts fs
  | _, _ => false

/-- Whether every element fits. -/
def fitsAll : DType → List Value → Bool
  | _, [] => true
  | t, x :: xs => fits t x && fitsAll t xs

/-- Whether a dict has exactly these fields, in order, each fitting. -/
def fitsFields : List (String × DType) → List (String × Value) → Bool
  | [], [] => true
  | (k, t) :: ts, (l, v) :: fs => decide (k = l) && fits t v && fitsFields ts fs
  | _, _ => false

end

theorem fitsAll_iff {t : DType} {xs : List Value} :
    fitsAll t xs = true ↔ ∀ x ∈ xs, fits t x = true := by
  induction xs with
  | nil => simp [fitsAll]
  | cons x xs ih => simp [fitsAll, ih]

@[simp] theorem fits_none (t : DType) : fits t .none = true := by cases t <;> rfl

theorem fits_struct_dict {ts : List (String × DType)} {fs : List (String × Value)} :
    fits (struct ts) (.dict fs) = true ↔ (Assoc.keys ts).Nodup ∧ fitsFields ts fs = true := by
  rw [fits, Bool.and_eq_true, decide_eq_true_iff]

theorem keys_of_fitsFields {ts : List (String × DType)} {fs : List (String × Value)}
    (h : fitsFields ts fs = true) : Assoc.keys fs = Assoc.keys ts := by
  induction ts generalizing fs with
  | nil => cases fs <;> simp_all [fitsFields]
  | cons t ts ih =>
    cases fs with
    | nil => simp [fitsFields] at h
    | cons e fs =>
      obtain ⟨⟨hk, -⟩, hrest⟩ : (t.1 = e.1 ∧ fits t.2 e.2 = true) ∧ fitsFields ts fs = true := by
        simpa [fitsFields] using h
      rw [Assoc.keys_cons, Assoc.keys_cons, ih hrest, hk]

/-- Every cell of a fitting row fits its column. -/
theorem fits_of_fitsFields {ts : List (String × DType)} {fs : List (String × Value)}
    (h : fitsFields ts fs = true) {k : String} {v : Value} (hv : Assoc.get? fs k = some v) :
    ∃ t, Assoc.get? ts k = some t ∧ fits t v = true := by
  induction ts generalizing fs with
  | nil => cases fs <;> simp_all [fitsFields]
  | cons t ts ih =>
    cases fs with
    | nil => simp at hv
    | cons e fs =>
      obtain ⟨⟨hk, hfit⟩, hrest⟩ :
          (t.1 = e.1 ∧ fits t.2 e.2 = true) ∧ fitsFields ts fs = true := by
        simpa [fitsFields] using h
      rw [Assoc.get?_cons] at hv
      rw [Assoc.get?_cons, hk]
      split_ifs at hv ⊢ with he
      · obtain rfl : e.2 = v := by simpa using hv
        exact ⟨t.2, rfl, hfit⟩
      · exact ih hrest hv

end DType

/-- One row: its cells by column. -/
abbrev Row := List (String × Value)

/-- `row.get(key)`. -/
def Row.get (row : Row) (key : String) : Value := (Assoc.get? row key).getD .none

/-- A frame: typed columns, and rows whose cells fit them. -/
structure Frame where
  /-- The columns, in order. -/
  schema : List (String × DType)
  /-- The rows, in order. -/
  rows : List Row
  nodupColumns : (Assoc.keys schema).Nodup
  fits : ∀ row ∈ rows, DType.fitsFields schema row = true

namespace Frame

/-- The column names. -/
def columns (frame : Frame) : List String := Assoc.keys frame.schema

/-- The rows a predicate keeps. -/
def filter (frame : Frame) (p : Row → Bool) : Frame :=
  ⟨frame.schema, frame.rows.filter p, frame.nodupColumns,
    fun row h => frame.fits row (List.mem_of_mem_filter h)⟩

/-- `head(n)`. -/
def head (frame : Frame) (n : ℕ) : Frame :=
  ⟨frame.schema, frame.rows.take n, frame.nodupColumns,
    fun row h => frame.fits row (List.mem_of_mem_take h)⟩

end Frame

/-! ### Selecting columns -/

/-- One renamed column: the source column, and the name it is given. -/
structure Alias where
  column : String
  name : String

/-- A selected schema's columns; `none` when one of them is absent. -/
def selectSchema (schema : List (String × DType)) :
    List Alias → Option (List (String × DType))
  | [] => some []
  | a :: as => do
    let t ← Assoc.get? schema a.column
    let ts ← selectSchema schema as
    pure ((a.name, t) :: ts)

/-- A selected row. -/
def selectRow (as : List Alias) (row : Row) : Row := as.map fun a => (a.name, Row.get row a.column)

theorem keys_selectSchema {schema ts : List (String × DType)} {as : List Alias}
    (h : selectSchema schema as = some ts) : Assoc.keys ts = as.map Alias.name := by
  induction as generalizing ts with
  | nil =>
    obtain rfl : [] = ts := by simpa [selectSchema] using h
    rfl
  | cons a as ih =>
    obtain ⟨t, -, rest, hrest, rfl⟩ : ∃ t, Assoc.get? schema a.column = some t ∧
        ∃ rest, selectSchema schema as = some rest ∧ (a.name, t) :: rest = ts := by
      simpa [selectSchema, Option.bind_eq_some_iff] using h
    rw [Assoc.keys_cons, ih hrest, List.map_cons]

/-- A selected row fits the selected schema. -/
theorem fitsFields_selectRow {schema ts : List (String × DType)} {as : List Alias}
    (h : selectSchema schema as = some ts) {row : Row}
    (hrow : DType.fitsFields schema row = true) :
    DType.fitsFields ts (selectRow as row) = true := by
  induction as generalizing ts with
  | nil =>
    obtain rfl : [] = ts := by simpa [selectSchema] using h
    rfl
  | cons a as ih =>
    obtain ⟨t, ht, rest, hrest, rfl⟩ : ∃ t, Assoc.get? schema a.column = some t ∧
        ∃ rest, selectSchema schema as = some rest ∧ (a.name, t) :: rest = ts := by
      simpa [selectSchema, Option.bind_eq_some_iff] using h
    have hcell : t.fits (Row.get row a.column) = true := by
      rw [Row.get]
      rcases hv : Assoc.get? row a.column with _ | v
      · exact DType.fits_none t
      · obtain ⟨t', ht', hfit⟩ := DType.fits_of_fitsFields hrow hv
        rw [ht] at ht'
        exact (Option.some.inj ht') ▸ hfit
    have hrest' := ih hrest
    simp only [selectRow] at hrest' ⊢
    simp [DType.fitsFields, hcell, hrest']

/-- `frame.select([pl.col(c).alias(n), ...])`: an absent column and a repeated name raise. -/
def Frame.select (frame : Frame) (as : List Alias) : Except PyError Frame :=
  match h : selectSchema frame.schema as with
  | none => .error (.frame "unable to find column")
  | some ts =>
    if hn : (as.map Alias.name).Nodup then
      .ok ⟨ts, frame.rows.map (selectRow as), by rwa [keys_selectSchema h], fun row hrow => by
        obtain ⟨source, hsource, rfl⟩ := List.mem_map.mp hrow
        exact fitsFields_selectRow h (frame.fits source hsource)⟩
    else .error (.frame "the name is duplicate")

/-- What a successful selection is. -/
theorem Frame.select_eq_ok {frame out : Frame} {as : List Alias} (h : frame.select as = .ok out) :
    selectSchema frame.schema as = some out.schema ∧ (as.map Alias.name).Nodup ∧
      out.rows = frame.rows.map (selectRow as) := by
  unfold Frame.select at h
  split at h
  · simp at h
  · rename_i ts hts
    split_ifs at h with hn
    obtain rfl := Except.ok.inj h
    exact ⟨hts, hn, rfl⟩

end Haute
