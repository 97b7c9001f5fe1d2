import Haute.Json.Float
import Haute.Workbench.Form

/-!
# Typed text

The values typed into the sheets, read as their columns hold them: `typedAs` for one cell,
`presetRows` for a table's rows, `totalOf` for a total over them. Reading text as a whole
number is the one reading that can fail, since Python's `int` takes no more digits than its
limit.

Floats are the doubles they hold; a negative zero is zero here, since nothing below tells
them apart.
-/

namespace Haute.Workbench

/-- What testing a value can raise. -/
inductive TestError where
  /-- `ValueError`: a whole number of more digits than `int` reads. -/
  | tooManyDigits
  /-- `KeyError`. -/
  | key (name : String)
  /-- `IndexError`. -/
  | index
  /-- `TypeError`: two values that do not compare. -/
  | type
  /-- `StopIteration`. -/
  | stop
  deriving DecidableEq

/-- A table's row, by column name. -/
abbrev Row : Type := List (String × Cell)

/-- The values typed into the sheets: rows by table name. -/
abbrev Rows : Type := List (String × List Row)

/-- `rows.get(name, ())`. -/
def Rows.of (rows : Rows) (name : String) : List Row := (Assoc.get? rows name).getD []

/-! ### Text read as its type -/

/-- Typed text as its column's type holds it. -/
inductive Typed where
  | text (s : String)
  | whole (n : ℤ)
  | decimal (q : ℚ)
  deriving DecidableEq

namespace Typed

/-- The number held, exactly. -/
def number? : Typed → Option ℚ
  | text _ => none
  | whole n => some n
  | decimal q => some q

/-- Python's `==`: numbers by what they hold, text as text. -/
def same (x y : Typed) : Bool :=
  match x, y with
  | text s, text t => s = t
  | text _, _ => false
  | _, text _ => false
  | x, y => x.number? = y.number?

/-- How two values compare. -/
def compareTo (x y : Typed) : Except TestError Ordering :=
  match x, y with
  | text s, text t => .ok (compare s t)
  | x, y =>
    match x.number?, y.number? with
    | some p, some q => .ok (compare p q)
    | _, _ => .error .type

def isWhole : Typed → Bool
  | whole _ => true
  | _ => false

def isDecimal : Typed → Bool
  | decimal _ => true
  | _ => false

end Typed

/-- `_filled`. -/
def filled : Option Cell → Bool
  | some (.tick b) => b
  | some (.text s) => pyStrip s ≠ ""
  | none => false

/-- The digits' number. -/
def digitsValue (ds : List Char) : ℕ := ds.foldl (fun n d => 10 * n + (d.toNat - 48)) 0

/-- An optional sign, and what follows it. -/
def takeSign : List Char → Bool × List Char
  | '-' :: cs => (true, cs)
  | '+' :: cs => (false, cs)
  | cs => (false, cs)

/-- `(?:[eE][+-]?[0-9]+)?` to the end. -/
def exponent? : List Char → Option ℤ
  | [] => some 0
  | e :: cs =>
    let (negative, ds) := takeSign cs
    if (e = 'e' ∨ e = 'E') ∧ ds ≠ [] ∧ ds.all Char.isDigit then
      some (if negative then -(digitsValue ds : ℤ) else digitsValue ds)
    else none

/-- The number `_NUMBER` matches the whole of the text as. -/
def number? (cs : List Char) : Option ℚ :=
  let (negative, cs) := takeSign cs
  let whole := cs.takeWhile Char.isDigit
  let (fraction, rest) := match cs.dropWhile Char.isDigit with
    | '.' :: cs => (cs.takeWhile Char.isDigit, cs.dropWhile Char.isDigit)
    | cs => ([], cs)
  if whole = [] ∧ fraction = [] then none
  else (exponent? rest).map fun e =>
    (if negative then -1 else 1) * digitsValue (whole ++ fraction) * (10 : ℚ) ^
      (e - (fraction.length : ℤ))

/-- The digits `_WHOLE` matches the whole of the text as, with their sign. -/
def wholeDigits? (cs : List Char) : Option (Bool × List Char) :=
  let (negative, ds) := takeSign cs
  if ds ≠ [] ∧ ds.all Char.isDigit then some (negative, ds) else none

/-- `int` of a string of digits, which has a limit on them. -/
def intOfDigits (negative : Bool) (ds : List Char) : Except TestError ℤ :=
  if ds.length ≤ 4300 then .ok (if negative then -(digitsValue ds : ℤ) else digitsValue ds)
  else .error .tooManyDigits

/-- `re.sub(r"[$£€,\s]", "", text)`. -/
def cleaned (text : String) : List Char :=
  text.toList.filter fun c => !(['$', '£', '€', ','].contains c || isPySpace c)

/-- `float` of a number, an infinity where it is too large. -/
def floatOf (q : ℚ) : PyFloat :=
  match nearestDouble |q| with
  | some r => .finite (if q < 0 then -r else r)
  | none => .inf (q < 0)

/-- A number read through a float: a whole one in an Integer column, as typed when it is too
large for a float. -/
def decimalAs (type : ColumnType) (text : String) (q : ℚ) : Typed :=
  match floatOf q with
  | .finite r => if type = .int ∧ r.den = 1 then .whole r.num else .decimal r
  | _ => .text text

/-- `_typed`. -/
def typedAs (type : ColumnType) (text : String) : Except TestError Typed :=
  if type ≠ .int ∧ type ≠ .float then .ok (.text text)
  else
    match number? (cleaned text) with
    | none => .ok (.text text)
    | some q =>
      match type, wholeDigits? (cleaned text) with
      | .int, some (negative, ds) => return .whole (← intOfDigits negative ds)
      | _, _ => .ok (decimalAs type text q)

/-- The one thing reading text can raise, and when: a whole number of an Integer column past
the limit on its digits. -/
theorem typedAs_eq_error_iff {type : ColumnType} {text : String} {e : TestError} :
    typedAs type text = .error e ↔
      e = .tooManyDigits ∧ type = .int ∧ (∃ q, number? (cleaned text) = some q) ∧
        ∃ negative ds, wholeDigits? (cleaned text) = some (negative, ds) ∧ 4300 < ds.length := by
  unfold typedAs
  by_cases htype : type ≠ .int ∧ type ≠ .float
  · rw [if_pos htype]
    simp only [reduceCtorEq, false_iff]
    exact fun h => htype.1 h.2.1
  · rw [if_neg htype]
    cases hnumber : number? (cleaned text) with
    | none => simp
    | some q =>
      cases hwhole : wholeDigits? (cleaned text) with
      | none =>
        cases type <;> simp
      | some found =>
        obtain ⟨negative, ds⟩ := found
        cases type with
        | int =>
          by_cases hds : ds.length ≤ 4300
          · simp [intOfDigits, hds, bind, Except.bind, pure, Except.pure]
          · simp [intOfDigits, hds, bind, Except.bind, eq_comm, Nat.lt_of_not_le hds]
        | _ => simp

/-- Four digits, two and two. -/
def dayParts? (text : String) : Option (ℕ × ℕ × ℕ) :=
  match text.toList with
  | [y₁, y₂, y₃, y₄, '-', m₁, m₂, '-', d₁, d₂] =>
    if [y₁, y₂, y₃, y₄, m₁, m₂, d₁, d₂].all Char.isDigit then
      some (digitsValue [y₁, y₂, y₃, y₄], digitsValue [m₁, m₂], digitsValue [d₁, d₂])
    else none
  | _ => none

def isLeap (year : ℕ) : Bool := year % 4 = 0 ∧ (year % 100 ≠ 0 ∨ year % 400 = 0)

def daysInMonth (year month : ℕ) : ℕ :=
  if month = 2 then (if isLeap year then 29 else 28)
  else if month = 4 ∨ month = 6 ∨ month = 9 ∨ month = 11 then 30 else 31

/-- `_is_day`: the text spells a day `date` makes. -/
def isDay (text : String) : Bool :=
  match dayParts? text with
  | some (year, month, day) =>
    1 ≤ year ∧ 1 ≤ month ∧ month ≤ 12 ∧ 1 ≤ day ∧ day ≤ daysInMonth year month
  | none => false

/-- `_day_number`, as `date.toordinal` counts. -/
def dayNumber (text : String) : ℤ :=
  match dayParts? text with
  | some (year, month, day) =>
    let before := year - 1
    before * 365 + before / 4 - before / 100 + before / 400 +
      ((List.range (month - 1)).map fun m => daysInMonth year (m + 1)).sum + day
  | none => 0

/-- `_of_type`: whether typed text is a value a column of the type holds. -/
def ofType (type : ColumnType) (text : String) : Except TestError Bool :=
  let text := pyStrip text
  match type with
  | .date => .ok (isDay text)
  | .int => return (← typedAs .int text).isWhole
  | .float => return (← typedAs .float text).isDecimal
  | _ => .ok (text ≠ "")

/-! ### A table's rows -/

/-- `_values_index`: the index of values that gives an input table its rows. -/
def valuesIndex (table : SchemaTable) : Option SchemaColumn :=
  table.index.filter fun column => column.index = some .values ∧ table.hasInputs

/-- Where a row goes by what it holds in the index: none where it holds nothing there. -/
def rowPlace (column : SchemaColumn) (places : List Typed) (row : Row) :
    Except TestError (Option (Option ℕ)) :=
  let raw := Assoc.get? row column.name
  if !filled raw then return none
  else
    match raw with
    | some (.text text) => do
      let value ← typedAs column.type (pyStrip text)
      return some (places.findIdx? fun place => place.same value)
    | _ => return some none

/-- The rows placed by their value, the first of each, and the loose ones. -/
def placeRows (column : SchemaColumn) (places : List Typed) :
    List Row → List (Option Row) × List Row → Except TestError (List (Option Row) × List Row)
  | [], found => .ok found
  | row :: rows, (placed, loose) => do
    match ← rowPlace column places row with
    | none => placeRows column places rows (placed, loose ++ [row])
    | some none => placeRows column places rows (placed, loose)
    | some (some i) =>
      placeRows column places rows
        (if placed[i]? = some none then placed.set i (some row) else placed, loose)

/-- A row for each value: its own, else the next loose one, else an empty one. -/
def fillRows (name : String) : List (Option Row × String) → List Row → List Row
  | [], _ => []
  | (some row, value) :: rest, free => Assoc.set row name (.text value) :: fillRows name rest free
  | (none, value) :: rest, [] => Assoc.set [] name (.text value) :: fillRows name rest []
  | (none, value) :: rest, row :: free =>
    Assoc.set row name (.text value) :: fillRows name rest free

/-- `preset_rows`. -/
def presetRows (table : SchemaTable) (rows : List Row) : Except TestError (List Row) :=
  match valuesIndex table with
  | none => .ok rows
  | some column => do
    let places ← column.options.mapM (typedAs column.type)
    let (placed, loose) ← placeRows column places rows (column.options.map fun _ => none, [])
    return fillRows column.name (placed.zip column.options) loose

/-! ### A total of numbers -/

/-- `added += number`. -/
def addFloat (x : PyFloat) (q : ℚ) : PyFloat :=
  match x with
  | .finite p => floatOf (p + q)
  | .negZero => floatOf q
  | other => other

/-- To 15 significant digits, a tie away from zero. -/
def roundFifteen (q : ℚ) : ℚ :=
  if q = 0 then 0
  else
    let scale : ℚ := (10 : ℚ) ^ (Int.log 10 |q| + 1 - 15)
    let rounded := (⌊|q| / scale + 1 / 2⌋ : ℚ) * scale
    if q < 0 then -rounded else rounded

/-- The total of the numbers, rounded: none of no numbers, unless it is their sum. -/
def totalOf (kind : TotalKind) (numbers : List ℚ) : Option PyFloat :=
  let added := numbers.foldl addFloat (.finite 0)
  let found : Option PyFloat := match kind, numbers with
    | .sum, _ => some added
    | _, [] => none
    | .min, q :: qs => some (.finite (qs.foldl min q))
    | .max, q :: qs => some (.finite (qs.foldl max q))
    | .average, numbers => some (match added with
      | .finite p => floatOf (p / numbers.length)
      | other => other)
  found.map fun
    | .finite q => floatOf (roundFifteen q)
    | other => other

/-- How a float compares with a finite one, if it does. -/
def compareFloat (x : PyFloat) (q : ℚ) : Option Ordering :=
  match x with
  | .finite p => some (compare p q)
  | .negZero => some (compare 0 q)
  | .inf negative => some (if negative then .lt else .gt)
  | .nan _ => none

/-- `_COUNTS`. -/
def countPasses (op : CountTest) (found : Option Ordering) : Bool :=
  match op with
  | .equals => found = some .eq
  | .notEquals => found ≠ some .eq
  | .above => found = some .gt
  | .atLeast => found = some .gt ∨ found = some .eq
  | .below => found = some .lt
  | .atMost => found = some .lt ∨ found = some .eq

end Haute.Workbench
