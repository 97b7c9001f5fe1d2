import Haute.Json.Errors

/-!
# Python's conversions

`float(int)`, `repr` of a float and `str` of a scalar, as the shred applies them when it
coerces a cell to its column's type. A float is read as the double it holds: `nearestDouble`
rounds half to even on 53 bits, and `repr` is the shortest decimal that rounds back.
-/

namespace Haute

/-- The nearest integer, a tie going to the even one. -/
def roundHalfEven (q : ℚ) : ℤ :=
  let below := ⌊q⌋
  let rest := q - below
  if rest < 1 / 2 ∨ (rest = 1 / 2 ∧ below % 2 = 0) then below else below + 1

/-- The double nearest a non-negative number, unless it is too large for one. -/
def nearestDouble (q : ℚ) : Option ℚ :=
  let unit : ℚ := (2 : ℚ) ^ (max (Int.log 2 q) (-1022) - 52)
  let rounded := roundHalfEven (q / unit) * unit
  if rounded < 2 ^ 1024 then some rounded else none

/-- `float(n)`. -/
def floatOfInt (n : ℤ) : Except PyError PyFloat :=
  match nearestDouble |(n : ℚ)| with
  | some q => .ok (.finite (if n < 0 then -q else q))
  | none => .error (.overflow "int too large to convert to float")

/-- Digits that reach the next power of ten are its one digit, a place further left. -/
def carryDigits (width digits : ℕ) (point : ℤ) : ℕ × ℤ :=
  if digits = 10 ^ width then (1, point + 1) else (digits, point)

/-- A positive number's decimal of `width` digits `0.d₁d₂… × 10^point` that rounds back to it,
the nearest of the two around it. -/
def decimalOfWidth (q : ℚ) (width : ℕ) : Option (ℕ × ℤ) :=
  let point := Int.log 10 q + 1
  let scale : ℚ := (10 : ℚ) ^ (point - width)
  let digits := (⌊q / scale⌋).toNat
  let good (m : ℕ) : Bool := decide (nearestDouble (m * scale) = some q)
  match good digits, good (digits + 1) with
  | true, true =>
    if q - digits * scale ≤ (digits + 1) * scale - q then some (digits, point)
    else some (carryDigits width (digits + 1) point)
  | true, false => some (digits, point)
  | false, true => some (carryDigits width (digits + 1) point)
  | false, false => none

/-- The shortest decimal that rounds back to a positive double. -/
def shortestDecimal (q : ℚ) : ℕ × ℤ :=
  ((List.range 17).findSome? fun n => decimalOfWidth q (n + 1)).getD (0, 0)

/-- Digits and decimal point as `repr` lays them out. -/
def layoutDecimal (digits : ℕ) (point : ℤ) : String :=
  let ds := toString digits
  let zeros (n : ℕ) : String := String.ofList (List.replicate n '0')
  if point ≤ -4 ∨ 16 < point then
    let mantissa := String.ofList (match ds.toList with
      | [] => []
      | [d] => [d]
      | d :: rest => d :: '.' :: rest)
    let exponent := toString (point - 1).natAbs
    mantissa ++ "e" ++ (if point - 1 < 0 then "-" else "+") ++
      (if exponent.length < 2 then "0" else "") ++ exponent
  else if point ≤ 0 then "0." ++ zeros (-point).toNat ++ ds
  else if point < ds.length then
    String.ofList (ds.toList.take point.toNat ++ '.' :: ds.toList.drop point.toNat)
  else ds ++ zeros (point - ds.length).toNat ++ ".0"

/-- `repr` of a float. -/
def PyFloat.repr : PyFloat → String
  | finite q =>
    if q = 0 then "0.0"
    else
      let (digits, point) := shortestDecimal |q|
      (if q < 0 then "-" else "") ++ layoutDecimal digits point
  | negZero => "-0.0"
  | inf neg => if neg then "-inf" else "inf"
  | nan _ => "nan"

/-- `str` of an int, which has a limit on its digits. -/
def strOfInt (n : ℤ) : Except PyError String :=
  if n.natAbs < 10 ^ 4300 then .ok (toString n)
  else .error (.value ("Exceeds the limit (4300 digits) for integer string conversion; " ++
    "use sys.set_int_max_str_digits() to increase the limit"))

/-- `date.isoformat` of the day so many days after 1970-01-01. -/
def isoDate (ordinal : ℤ) : String :=
  let days := ordinal + 719468
  let era := days / 146097
  let doe := days % 146097
  let yoe := (doe - doe / 1460 + doe / 36524 - doe / 146096) / 365
  let doy := doe - (365 * yoe + yoe / 4 - yoe / 100)
  let mp := (5 * doy + 2) / 153
  let day := doy - (153 * mp + 2) / 5 + 1
  let month := if mp < 10 then mp + 3 else mp - 9
  let year := yoe + era * 400 + if month ≤ 2 then 1 else 0
  let pad (width : ℕ) (n : ℤ) : String :=
    let s := toString n
    String.ofList (List.replicate (width - s.length) '0') ++ s
  pad 4 year ++ "-" ++ pad 2 month ++ "-" ++ pad 2 day

end Haute
