import Haute.Layout.Printer
import Haute.Data.CodePoints
import Haute.Data.JsonText

/-!
# The literals of a generated call

What a decorator keyword can carry, and the document it prints as. Strings are written with the
quotes that need fewer escapes, and floats without the plus sign of an exponent. Which characters
beyond ASCII are printable is Python's to say, and so are the digits of a float (`Floats`).
-/

namespace Haute.Layout

open Haute.Data

/-- The digits of a float: before and after the point, and of the exponent with its sign. -/
structure FloatDigits where
  whole : List Char
  fraction : Option (List Char)
  exponent : Option (Bool × List Char)
  deriving DecidableEq

/-- One decimal digit or more. -/
def Digits (ds : List Char) : Prop := ds ≠ [] ∧ ∀ d ∈ ds, d.isDigit = true

/-- The fraction, with its point. -/
def fractionText : Option (List Char) → List Char
  | none => []
  | some ds => '.' :: ds

/-- The exponent, with what is written for a positive one's sign. -/
def exponentText (plus : List Char) : Option (Bool × List Char) → List Char
  | none => []
  | some (negative, ds) => 'e' :: ((if negative then ['-'] else plus) ++ ds)

namespace FloatDigits

/-- The text, with what is written for a positive exponent's sign. -/
def text (d : FloatDigits) (plus : List Char) : List Char :=
  d.whole ++ (fractionText d.fraction ++ exponentText plus d.exponent)

/-- The digits of a float and not of an integer. -/
structure WellFormed (d : FloatDigits) : Prop where
  whole : Digits d.whole
  fraction : ∀ ds ∈ d.fraction, Digits ds
  exponent : ∀ e ∈ d.exponent, Digits e.2
  float : d.fraction ≠ none ∨ d.exponent ≠ none

end FloatDigits

/-- Python's floats, with the digits `repr` writes and the float a literal reads. -/
structure Floats (F : Type) where
  finite : F → Bool
  negative : F → Bool
  /-- What `repr` writes for a float that is not finite. -/
  special : F → String
  digits : F → FloatDigits
  ofDigits : FloatDigits → F
  neg : F → F
  wellFormed : ∀ x, finite x = true → (digits x).WellFormed
  /-- `float(repr(x)) == x`. -/
  roundTrip : ∀ x, finite x = true →
    (if negative x then neg (ofDigits (digits x)) else ofDigits (digits x)) = x

/-- A key of a dict: a string, or anything else with its `repr`. -/
inductive ConfigKey where
  | str (s : CodeText)
  | other (repr : String)

/-- A value as a keyword may be given it: the kinds that have a literal, and the type of any
other. -/
inductive ConfigValue (F : Type) where
  | none
  | bool (b : Bool)
  | int (n : ℤ)
  | float (x : F)
  | str (s : CodeText)
  | list (items : List (ConfigValue F))
  | dict (entries : List (ConfigKey × ConfigValue F))
  | other (type : String)

/-- `HauteError(message, **context)` or `ValueError`. -/
inductive LiteralError where
  | haute (message : String) (context : List (String × String))
  | value (message : String)
  deriving DecidableEq, Repr

/-! ### Strings and floats -/

/-- The last `width` hexadecimal digits of a number. -/
def hexText : ℕ → ℕ → List Char
  | 0, _ => []
  | width + 1, n => hexText width (n / 16) ++ [Nat.digitChar (n % 16)]

/-- What `repr` writes for a character that is no quote. -/
def reprChar (printable : CodePoint → Bool) (c : CodePoint) : List Char :=
  if c.val = 92 then ['\\', '\\']
  else if c.val = 9 then ['\\', 't']
  else if c.val = 10 then ['\\', 'n']
  else if c.val = 13 then ['\\', 'r']
  else if c.val < 32 ∨ c.val = 127 then '\\' :: 'x' :: hexText 2 c.val
  else if c.val < 127 ∨ printable c ∧ ¬ c.surrogate then [Char.ofNat c.val]
  else if c.val ≤ 0xff then '\\' :: 'x' :: hexText 2 c.val
  else if c.val ≤ 0xffff then '\\' :: 'u' :: hexText 4 c.val
  else '\\' :: 'U' :: hexText 8 c.val

def singleQuote : CodePoint := CodePoint.of 39

def doubleQuote : CodePoint := CodePoint.of 34

/-- Double quotes, unless single ones need fewer escapes. -/
def quoteOf (value : CodeText) : Char :=
  if value.count singleQuote < value.count doubleQuote then '\'' else '"'

/-- A character between quotes. -/
def quoted (printable : CodePoint → Bool) (quote : Char) (c : CodePoint) : List Char :=
  if c.val = quote.toNat then ['\\', quote]
  else if c = singleQuote then ['\'']
  else if c = doubleQuote then ['"']
  else reprChar printable c

/-- `quote_string`. -/
def quoteString (printable : CodePoint → Bool) (value : CodeText) : List Char :=
  quoteOf value :: (value.flatMap (quoted printable (quoteOf value)) ++ [quoteOf value])

/-- `text.replace("e+", "e")`. -/
def dropPlus : List Char → List Char
  | 'e' :: '+' :: cs => 'e' :: dropPlus cs
  | c :: cs => c :: dropPlus cs
  | [] => []

variable {F : Type}

/-- `repr` of a finite float. -/
def Floats.repr (f : Floats F) (x : F) : List Char :=
  (if f.negative x then ['-'] else []) ++ (f.digits x).text ['+']

/-- `float_literal`. -/
def floatLiteral (f : Floats F) (x : F) : List Char := dropPlus (f.repr x)

/-! ### Literals -/

/-- The least number of more than 4300 digits. -/
@[irreducible]
def intLimit : ℕ := 10 ^ 4300

section Literal

variable (f : Floats F) (printable : CodePoint → Bool)

mutual

/-- `literal`. -/
def literal : ConfigValue F → Except LiteralError Doc
  | .none => .ok (.text ['N', 'o', 'n', 'e'])
  | .bool true => .ok (.text ['T', 'r', 'u', 'e'])
  | .bool false => .ok (.text ['F', 'a', 'l', 's', 'e'])
  | .int n =>
    -- `str` of an int has a limit on its digits
    if n.natAbs < intLimit then .ok (.text (intText n))
    else .error (.value ("Exceeds the limit (4300 digits) for integer string conversion; " ++
      "use sys.set_int_max_str_digits() to increase the limit"))
  | .float x =>
    if f.finite x then .ok (.text (floatLiteral f x))
    else .error (.haute "A generated decorator value must be a finite number."
      [("value", f.special x)])
  | .str s => .ok (.text (quoteString printable s))
  | .list items => do return bracketed ['['] (← literals items) [']']
  | .dict entries => do return bracketed ['\x7b'] (← literalEntries entries) ['\x7d']
  | .other type => .error (.haute "A generated decorator value has no Python literal form."
      [("value_type", type)])

def literals : List (ConfigValue F) → Except LiteralError (List Doc)
  | [] => .ok []
  | item :: items => do
    let doc ← literal item
    return doc :: (← literals items)

/-- The entries of a dict. -/
def literalEntries : List (ConfigKey × ConfigValue F) → Except LiteralError (List Doc)
  | [] => .ok []
  | (.other repr, _) :: _ => .error (.haute "A generated decorator dict must have string keys."
      [("key", repr)])
  | (.str key, item) :: entries => do
    let doc ← literal item
    return .concat [.text (quoteString printable key), .text [':', ' '], doc] ::
      (← literalEntries entries)

end

end Literal

/-! ### The values that have a literal -/

section Supported

variable (f : Floats F)

mutual

/-- Built from null, booleans, integers of at most 4300 digits, finite floats, strings, lists and
string-keyed dicts. -/
def supported : ConfigValue F → Bool
  | .none | .bool _ | .str _ => true
  | .int n => decide (n.natAbs < intLimit)
  | .float x => f.finite x
  | .list items => allSupported items
  | .dict entries => entriesSupported entries
  | .other _ => false

def allSupported : List (ConfigValue F) → Bool
  | [] => true
  | item :: items => supported item && allSupported items

def entriesSupported : List (ConfigKey × ConfigValue F) → Bool
  | [] => true
  | (.other _, _) :: _ => false
  | (.str _, item) :: entries => supported item && entriesSupported entries

end

/-- The keys of a dict that are strings. -/
def stringKeys (entries : List (ConfigKey × ConfigValue F)) : List CodeText :=
  entries.filterMap fun
    | (.str key, _) => some key
    | (.other _, _) => Option.none

mutual

/-- No dict inside has a key twice. -/
def distinct : ConfigValue F → Prop
  | .none | .bool _ | .str _ | .int _ | .float _ | .other _ => True
  | .list items => allDistinct items
  | .dict entries => (stringKeys entries).Nodup ∧ entriesDistinct entries

def allDistinct : List (ConfigValue F) → Prop
  | [] => True
  | item :: items => distinct item ∧ allDistinct items

def entriesDistinct : List (ConfigKey × ConfigValue F) → Prop
  | [] => True
  | entry :: entries => distinct entry.2 ∧ entriesDistinct entries

end

end Supported

end Haute.Layout
