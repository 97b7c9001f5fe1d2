import Haute.Path.Levels
import Mathlib.Data.List.DropRight

/-!
# Table labels

The rule a table label follows, the filesystem form it is stored under, and the identifier
inference mints from a source key. Labels are compared case-folded, because filesystems
that fold case would store two of them in one file.
-/

namespace Haute

/-- The hard keywords of Python. -/
def pythonKeywords : List String :=
  ["False", "None", "True", "and", "as", "assert", "async", "await", "break", "class",
    "continue", "def", "del", "elif", "else", "except", "finally", "for", "from", "global",
    "if", "import", "in", "is", "lambda", "nonlocal", "not", "or", "pass", "raise", "return",
    "try", "while", "with", "yield"]

/-- `keyword.iskeyword`. -/
def isKeyword (name : String) : Bool := pythonKeywords.contains name

/-- An ASCII Python identifier that is not a keyword. -/
def isFrameLabel (label : String) : Bool := isIdentifierName label && !isKeyword label

/-- `[a-zA-Z0-9_-]`. -/
def isFilesystemSafe (c : Char) : Bool := c.isAlphanum || c == '_' || c == '-'

/-- A label as a parquet filename stem. -/
def sanitiseLabelForFilesystem (label : String) : String :=
  if label.isEmpty then "_unnamed"
  else String.ofList (label.toList.map fun c => if isFilesystemSafe c then c else '_')

/-- `str.casefold` of an ASCII string. -/
def casefold (s : String) : String := String.ofList (s.toList.map Char.toLower)

/-- `str.isspace` of one character. -/
def isPySpace (c : Char) : Bool :=
  let n := c.toNat
  (9 ≤ n && n ≤ 13) || (28 ≤ n && n ≤ 32) || n == 0x85 || n == 0xa0 || n == 0x1680 ||
    (0x2000 ≤ n && n ≤ 0x200a) || n == 0x2028 || n == 0x2029 || n == 0x202f || n == 0x205f ||
    n == 0x3000

/-- `str.strip`, of a text's characters. -/
def strip (text : List Char) : List Char := (text.dropWhile isPySpace).rdropWhile isPySpace

/-- `str.strip`. -/
def pyStrip (s : String) : String := String.ofList (strip s.toList)

/-- The shared label-to-ASCII character pipeline: spaces and hyphens become underscores,
other ASCII punctuation is dropped, a non-ASCII character is spelled by its code point. -/
def sanitizeIdentifierCharacters (label : String) : String :=
  String.ofList ((pyStrip label).toList.flatMap fun c =>
    let c := if c = ' ' || c = '-' then '_' else c
    if c.toNat < 128 then
      if c.isAlphanum || c = '_' then [c] else []
    else ['_', 'x'] ++ Nat.toDigits 16 c.toNat ++ ['_'])

/-- Mint an ASCII Python identifier from an inferred source label. -/
def deriveIdentifierLabel (raw : String) : String :=
  let name := sanitizeIdentifierCharacters raw
  match name.toList with
  | [] => "table"
  | c :: _ =>
    let name := if c.isDigit then "_" ++ name else name
    if isKeyword name then name ++ "_" else name

end Haute
