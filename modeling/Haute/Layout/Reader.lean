import Haute.Layout.Literals
import Haute.Data.Assoc
import Haute.Data.PyEscapes

/-!
# Reading literals

Python's reading of the literals among its expressions: names, numbers, strings in single
quotes of either kind, and displays of lists and dicts, in which blanks and line breaks do not
matter and a comma may follow the last entry. Text that Python reads in some further way
(underscores in numbers, prefixes and concatenation of strings, operators) is not read at all.
-/

namespace Haute.Layout

open Haute.Data

variable {F : Type} (f : Floats F) (named : List Char → Option ℕ)

/-- A blank between tokens inside brackets. -/
def isBlank (c : Char) : Bool := c == ' ' || c == '\t' || c == '\n' || c == '\r' || c == '\x0c'

def skipBlanks (cs : List Char) : List Char := cs.dropWhile isBlank

/-- A character a name or a number goes on with. -/
def isWord (c : Char) : Bool := c.isAlphanum || c == '_' || c == '.' || decide (128 ≤ c.toNat)

/-- No name or number goes on here. -/
def ends : List Char → Bool
  | [] => true
  | c :: _ => !isWord c

/-- The rest of a string literal after its opening quote; the first `taken` characters are part of
an escape already read. -/
def stringFrom (quote : Char) : ℕ → List Char → Option (CodeText × List Char)
  | _, [] => none
  | taken + 1, _ :: cs => stringFrom quote taken cs
  | 0, c :: cs =>
    if c = quote then some ([], cs)
    else if c = '\\' then do
      let (value, taken) ← escapeOf named cs
      let (s, rest) ← stringFrom quote taken cs
      return (value.map CodePoint.of ++ s, rest)
    else if c = '\n' ∨ c = '\r' ∨ c = '\x00' then none
    else do
      let (s, rest) ← stringFrom quote 0 cs
      return (CodePoint.ofChar c :: s, rest)

/-- A string literal; three quotes open one of another kind. -/
def readString : List Char → Option (CodeText × List Char)
  | [] => none
  | quote :: cs =>
    if quote = '"' ∨ quote = '\'' then
      if cs.take 2 = [quote, quote] then none else stringFrom named quote 0 cs
    else none

/-- The fraction of a number. -/
def readFraction : List Char → Option (List Char) × List Char
  | '.' :: cs => (some (cs.takeWhile Char.isDigit), cs.dropWhile Char.isDigit)
  | cs => (none, cs)

/-- The sign of an exponent. -/
def readSign : List Char → Bool × List Char
  | '-' :: cs => (true, cs)
  | '+' :: cs => (false, cs)
  | cs => (false, cs)

/-- The exponent of a number; one needs digits. -/
def readExponent : List Char → Option (Option (Bool × List Char) × List Char)
  | 'e' :: cs =>
    let (negative, ds) := readSign cs
    if ds.takeWhile Char.isDigit = [] then none
    else some (some (negative, ds.takeWhile Char.isDigit), ds.dropWhile Char.isDigit)
  | cs => some (none, cs)

/-- A number without a sign. An integer has no leading zero. -/
def readNumber (cs : List Char) : Option ((ℕ ⊕ FloatDigits) × List Char) :=
  let whole := cs.takeWhile Char.isDigit
  let (fraction, cs) := readFraction (cs.dropWhile Char.isDigit)
  match readExponent cs with
  | none => none
  | some (exponent, rest) =>
    if whole = [] ∨ ends rest = false then none
    else if fraction = none ∧ exponent = none then
      if whole.head? = some '0' ∧ whole ≠ ['0'] then none
      else some (.inl (Nat.ofDigitChars 10 whole 0), rest)
    else some (.inr ⟨whole, fraction, exponent⟩, rest)

/-- A number's value, under a minus sign or not. -/
def numberValue (negative : Bool) : ℕ ⊕ FloatDigits → ConfigValue F
  | .inl n => .int (if negative then -n else n)
  | .inr d => .float (if negative then f.neg (f.ofDigits d) else f.ofDigits d)

/-- A name that is a value. -/
def readName (cs : List Char) : Option (ConfigValue F × List Char) :=
  let word := cs.takeWhile isWord
  let rest := cs.dropWhile isWord
  if word = ['N', 'o', 'n', 'e'] then some (.none, rest)
  else if word = ['T', 'r', 'u', 'e'] then some (.bool true, rest)
  else if word = ['F', 'a', 'l', 's', 'e'] then some (.bool false, rest)
  else none

/-- The dict a display builds: a key given again keeps its place and takes the later value. -/
def dictOf (entries : List (CodeText × ConfigValue F)) : List (ConfigKey × ConfigValue F) :=
  (entries.foldl (fun held entry => Assoc.set held entry.1 entry.2) []).map fun entry =>
    (.str entry.1, entry.2)

mutual

/-- A literal, and what stands after it. -/
def readValue : ℕ → List Char → Option (ConfigValue F × List Char)
  | 0, _ => none
  | _ + 1, [] => none
  | fuel + 1, c :: cs =>
    if c = '[' then do
      let (items, rest) ← readItems fuel (skipBlanks cs)
      return (.list items, rest)
    else if c = '\x7b' then do
      let (entries, rest) ← readEntries fuel (skipBlanks cs)
      return (.dict (dictOf entries), rest)
    else if c = '"' ∨ c = '\'' then (readString named (c :: cs)).map fun (s, rest) => (.str s, rest)
    else if c = '-' then (readNumber cs).map fun (n, rest) => (numberValue f true n, rest)
    else if c.isDigit then (readNumber (c :: cs)).map fun (n, rest) => (numberValue f false n, rest)
    else readName (c :: cs)

/-- The items of a list, up to its closing bracket. -/
def readItems : ℕ → List Char → Option (List (ConfigValue F) × List Char)
  | 0, _ => none
  | fuel + 1, cs =>
    if cs.head? = some ']' then some ([], cs.tail)
    else do
      let (item, cs) ← readValue fuel cs
      match skipBlanks cs with
      | ',' :: cs => do
        let (items, rest) ← readItems fuel (skipBlanks cs)
        return (item :: items, rest)
      | ']' :: rest => return ([item], rest)
      | _ => none

/-- The entries of a dict, up to its closing brace. -/
def readEntries : ℕ → List Char → Option (List (CodeText × ConfigValue F) × List Char)
  | 0, _ => none
  | fuel + 1, cs =>
    if cs.head? = some '\x7d' then some ([], cs.tail)
    else do
      let (key, cs) ← readString named cs
      match skipBlanks cs with
      | ':' :: cs => do
        let (item, cs) ← readValue fuel (skipBlanks cs)
        match skipBlanks cs with
        | ',' :: cs => do
          let (entries, rest) ← readEntries fuel (skipBlanks cs)
          return ((key, item) :: entries, rest)
        | '\x7d' :: rest => return ([(key, item)], rest)
        | _ => none
      | _ => none

end

/-- What stands at the head of a text. -/
def readLiteral (cs : List Char) : Option (ConfigValue F × List Char) :=
  readValue f named (cs.length + 1) cs

end Haute.Layout
