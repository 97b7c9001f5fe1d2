import Haute.Data.Lines
import Haute.Data.PyEscapes
import Haute.Schema.Labels

/-!
# Reading a docstring

What Python makes of a triple-quoted string: newlines are translated, the literal runs to the
first three quotes that no backslash takes along, its escapes are decoded, and
`inspect.cleandoc` takes the indentation off again. Names of characters (`\N`) are looked up in
a table the language brings along, so that table is a parameter.

`inspect.cleandoc` skipped every kind of whitespace up to Python 3.12 and skips spaces from 3.13
on; `DocReader` stands for either.
-/

namespace Haute

/-- Python's source reader turns `\r\n` and a lone `\r` into `\n`; `skip` says that the
character before was a `\r`. -/
def translateFrom : Bool → List Char → List Char
  | _, [] => []
  | skip, c :: cs =>
    if skip && c == '\n' then translateFrom false cs
    else if c = '\r' then '\n' :: translateFrom true cs
    else c :: translateFrom false cs

def translateNewlines (source : List Char) : List Char := translateFrom false source

/-- The text up to the closing quotes, and what stands after them. -/
def untilClosing : List Char → Option (List Char × List Char)
  | '"' :: '"' :: '"' :: after => some ([], after)
  | '\\' :: c :: cs => (untilClosing cs).map fun (raw, after) => ('\\' :: c :: raw, after)
  | c :: cs => (untilClosing cs).map fun (raw, after) => (c :: raw, after)
  | [] => none

/-! ### Escapes -/

/-- The character with a number. -/
def charOf (n : ℕ) : Option Char := if h : n.isValidChar then some (Char.ofNatAux n h) else none

/-- What the text after a backslash stands for, and how many characters of it that takes. A number
that is no character's, such as a surrogate's, is not read. -/
def escaped (named : List Char → Option Char) (cs : List Char) : Option (List Char × ℕ) := do
  let (numbers, taken) ← Data.escapeOf (fun name => (named name).map Char.toNat) cs
  return (← numbers.mapM charOf, taken)

/-- The value of a literal's text; the first `taken` characters are part of an escape already
read. -/
def unescapeFrom (named : List Char → Option Char) : ℕ → List Char → Option (List Char)
  | _, [] => some []
  | taken + 1, _ :: cs => unescapeFrom named taken cs
  | 0, c :: cs =>
    if c = '\\' then do
      let (value, taken) ← escaped named cs
      return value ++ (← unescapeFrom named taken cs)
    else return c :: (← unescapeFrom named 0 cs)

def tripleQuote : List Char := ['"', '"', '"']

/-- The string literal a source starts with, after blanks: its value and what stands after it.
A source with a NUL is no source. -/
def tripleQuoted (named : List Char → Option Char) (source : List Char) :
    Option (List Char × List Char) :=
  if '\x00' ∈ source then none
  else
    match (translateNewlines source).dropWhile (· == ' ') with
    | '"' :: '"' :: '"' :: text => do
      let (raw, after) ← untilClosing text
      return (← unescapeFrom named 0 raw, after)
    | _ => none

/-! ### Cleaning -/

/-- `str.expandtabs()`, from a column on. -/
def expandFrom : ℕ → List Char → List Char
  | _, [] => []
  | column, c :: cs =>
    if c = '\t' then
      List.replicate (8 - column % 8) ' ' ++ expandFrom (column + (8 - column % 8)) cs
    else c :: expandFrom (if c = '\n' ∨ c = '\r' then 0 else column + 1) cs

def expandTabs (text : List Char) : List Char := expandFrom 0 text

/-- The characters `inspect.cleandoc` takes for indentation. -/
structure DocReader where
  blank : Char → Bool
  space : blank ' ' = true
  sound : ∀ c, blank c = true → isPySpace c = true

/-- From Python 3.13 on it is measured with `lstrip(" ")`. -/
def DocReader.spacesOnly : DocReader where
  blank c := c == ' '
  space := rfl
  sound c h := by
    rw [beq_iff_eq] at h
    subst h
    decide

namespace DocReader

variable (r : DocReader)

/-- `len(line) - len(line.lstrip())`. -/
def indentation (line : List Char) : ℕ := (line.takeWhile r.blank).length

/-- `len(line.lstrip()) > 0`. -/
def hasContent (line : List Char) : Bool := line.any fun c => !r.blank c

/-- The smallest indentation of the lines with content, if there is one. -/
def margin (lines : List (List Char)) : Option ℕ :=
  ((lines.filter r.hasContent).map r.indentation).min?

def removeIndentation : Option ℕ → List (List Char) → List (List Char)
  | none, lines => lines
  | some margin, lines => lines.map (List.drop margin)

/-- No empty line at the end or at the start. -/
def trimEmpty (lines : List (List Char)) : List (List Char) :=
  (lines.rdropWhile List.isEmpty).dropWhile List.isEmpty

/-- `inspect.cleandoc`. -/
def cleandoc (doc : List Char) : List Char :=
  match linesOf (expandTabs doc) with
  | [] => []
  | first :: rest =>
    joinLines (trimEmpty (first.dropWhile r.blank :: removeIndentation (r.margin rest) rest))

/-- `ast.get_docstring` of a body that starts with a triple-quoted string. -/
def getDocstring (named : List Char → Option Char) (source : List Char) : Option (List Char) :=
  (tripleQuoted named source).map fun (value, _) => r.cleandoc value

end DocReader

end Haute
