import Mathlib.Data.Nat.Notation

/-!
# The escapes of a Python string literal

What the text after a backslash stands for: numbers of code points, and how many characters of
the text they take. Names of characters (`\N`) are looked up in a table the language brings
along, so that table is a parameter.
-/

namespace Haute.Data

def hexCharValue (c : Char) : Option ℕ :=
  if c.isDigit then some (c.toNat - 48)
  else if 'a' ≤ c ∧ c ≤ 'f' then some (c.toNat - 87)
  else if 'A' ≤ c ∧ c ≤ 'F' then some (c.toNat - 55)
  else none

def isOctal (c : Char) : Bool := decide ('0' ≤ c ∧ c ≤ '7')

/-- The code point that `size` hexadecimal digits stand for. -/
def hexCharEscape (size : ℕ) (cs : List Char) : Option (List ℕ × ℕ) := do
  let digits ← (cs.take size).mapM hexCharValue
  let n := digits.foldl (fun n d => 16 * n + d) 0
  if digits.length = size ∧ n < 0x110000 then some ([n], size + 1) else none

/-- What stands after a backslash. A backslash before anything else stays. -/
def escapeOf (named : List Char → Option ℕ) : List Char → Option (List ℕ × ℕ)
  | [] => none
  | '\n' :: _ => some ([], 1)
  | '\\' :: _ => some ([92], 1)
  | '\'' :: _ => some ([39], 1)
  | '"' :: _ => some ([34], 1)
  | 'a' :: _ => some ([7], 1)
  | 'b' :: _ => some ([8], 1)
  | 'f' :: _ => some ([12], 1)
  | 'n' :: _ => some ([10], 1)
  | 'r' :: _ => some ([13], 1)
  | 't' :: _ => some ([9], 1)
  | 'v' :: _ => some ([11], 1)
  | 'x' :: cs => hexCharEscape 2 cs
  | 'u' :: cs => hexCharEscape 4 cs
  | 'U' :: cs => hexCharEscape 8 cs
  | 'N' :: '{' :: cs =>
    let name := cs.takeWhile (· ≠ '}')
    if name.length < cs.length then (named name).map fun n => ([n], name.length + 3) else none
  | c :: cs =>
    if isOctal c then
      let digits := c :: (cs.take 2).takeWhile isOctal
      some ([digits.foldl (fun n d => 8 * n + (d.toNat - 48)) 0], digits.length)
    else if c = 'N' then none
    else some ([92], 0)

end Haute.Data
