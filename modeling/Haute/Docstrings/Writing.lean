import Haute.Docstrings.Reading

/-!
# Writing a node's description

A node's description is saved as the docstring of its function. `sanitizeDescription` doubles
backslashes and escapes quotes, after it has put a newline in front of a text that
`inspect.cleandoc` would not leave as it is; `docstringLines` indents what follows the first
line, unless all of that is whitespace.
-/

namespace Haute

/-- `text.replace("\\", "\\\\")`. -/
def doubleBackslash (c : Char) : List Char := if c = '\\' then ['\\', '\\'] else [c]

/-- `text.replace('"', '\\"')`. -/
def escapeQuote (c : Char) : List Char := if c = '"' then ['\\', '"'] else [c]

/-- The description as it is to be read, before its characters are escaped. -/
def neutralised (desc : List Char) : List Char :=
  if '\n' ∈ desc ∨ desc ≠ strip desc then '\n' :: desc else desc

/-- `_sanitize_description`. -/
def sanitizeDescription (desc : List Char) : List Char :=
  ((neutralised desc).flatMap doubleBackslash).flatMap escapeQuote

def indent : List Char := [' ', ' ', ' ', ' ']

/-- `f"{INDENT}{line}" if line else ""`. -/
def indentLine (line : List Char) : List Char := if line.isEmpty then [] else indent ++ line

/-- `any(line.strip() for line in rest)`. -/
def anyText (lines : List (List Char)) : Bool := lines.any fun line => !(strip line).isEmpty

def indentRest (rest : List (List Char)) : List (List Char) :=
  if anyText rest then rest.map indentLine else rest

/-- `lines[-1] += '"""'`. -/
def closeLast : List (List Char) → List (List Char)
  | [] => []
  | [line] => [line ++ tripleQuote]
  | line :: second :: rest => line :: closeLast (second :: rest)

/-- `_docstring_lines`. -/
def docstringLines (description : List Char) : List (List Char) :=
  match linesOf (sanitizeDescription description) with
  | [] => []
  | first :: rest =>
    match closeLast ((tripleQuote ++ first) :: indentRest rest) with
    | [] => []
    | first :: rest => (indent ++ first) :: rest

/-- The docstring as it stands in the saved file. -/
def docstringText (description : List Char) : List Char := joinLines (docstringLines description)

/-! ### The text is one escaped literal -/

/-- The spelling of one character. -/
def spelled (c : Char) : List Char := (doubleBackslash c).flatMap escapeQuote

/-- A description is sanitised character by character, once its line ends are neutralised. -/
theorem sanitizeDescription_eq (desc : List Char) :
    sanitizeDescription desc = (neutralised desc).flatMap spelled := by
  rw [sanitizeDescription, List.flatMap_assoc]
  rfl

theorem spelled_backslash : spelled '\\' = ['\\', '\\'] := by decide

theorem spelled_quote : spelled '"' = ['\\', '"'] := by decide

/-- A character other than a backslash or a quote is written as it is. -/
theorem spelled_plain {c : Char} (hbackslash : c ≠ '\\') (hquote : c ≠ '"') : spelled c = [c] := by
  rw [spelled, doubleBackslash, if_neg hbackslash, List.flatMap_singleton, escapeQuote,
    if_neg hquote]

/-- A character is spelled as itself or, a backslash or a quote, after a backslash. -/
theorem spelled_cases (c : Char) :
    spelled c = ['\\', c] ∧ (c = '\\' ∨ c = '"') ∨ spelled c = [c] ∧ c ≠ '\\' ∧ c ≠ '"' := by
  by_cases hbackslash : c = '\\'
  · subst hbackslash
    exact .inl ⟨spelled_backslash, .inl rfl⟩
  · by_cases hquote : c = '"'
    · subst hquote
      exact .inl ⟨spelled_quote, .inr rfl⟩
    · exact .inr ⟨spelled_plain hbackslash hquote, hbackslash, hquote⟩

/-- Writing a character puts nothing in but a backslash. -/
theorem mem_spelled {c d : Char} (h : d ∈ spelled c) : d = c ∨ d = '\\' := by
  rcases spelled_cases c with ⟨hc, -⟩ | ⟨hc, -⟩
  · rw [hc, List.mem_cons, List.mem_singleton] at h
    exact h.symm
  · rw [hc, List.mem_singleton] at h
    exact .inl h

theorem spelled_newline : spelled '\n' = ['\n'] := by decide

/-- Writing a character ends no line. -/
theorem newline_notMem_spelled (c : Char) (hc : c ≠ '\n') : '\n' ∉ spelled c := by
  intro h
  rcases mem_spelled h with h | h
  · exact hc h.symm
  · exact absurd h (by decide)

theorem spelled_ne_nil (c : Char) : spelled c ≠ [] := by
  rcases spelled_cases c with ⟨hc, -⟩ | ⟨hc, -⟩ <;> rw [hc] <;> exact List.cons_ne_nil _ _

/-- A line is written as nothing exactly when it is empty. -/
theorem isEmpty_flatMap_spelled (line : List Char) :
    (line.flatMap spelled).isEmpty = line.isEmpty := by
  cases line with
  | nil => rfl
  | cons c line =>
    rw [List.flatMap_cons, List.isEmpty_cons, List.isEmpty_eq_false_iff]
    exact List.append_ne_nil_of_left_ne_nil (spelled_ne_nil c) _

/-- A line strips to nothing exactly when it is all blank. -/
theorem strip_eq_nil_iff (line : List Char) :
    strip line = [] ↔ ∀ c ∈ line, isPySpace c = true := by
  rw [strip, List.rdropWhile_eq_nil_iff]
  constructor
  · intro h c hc
    rw [← List.takeWhile_append_dropWhile (p := isPySpace) (l := line), List.mem_append] at hc
    rcases hc with hc | hc
    · exact List.mem_takeWhile_imp hc
    · exact h c hc
  · intro h c hc
    exact h c ((List.dropWhile_sublist _).mem hc)

/-- There is text when some line has a character that is no blank. -/
theorem anyText_eq_true_iff (lines : List (List Char)) :
    anyText lines = true ↔ ∃ line ∈ lines, ∃ c ∈ line, isPySpace c = false := by
  rw [anyText, List.any_eq_true]
  refine exists_congr fun line => and_congr_right fun _ => ?_
  rw [Bool.not_eq_true', List.isEmpty_eq_false_iff, Ne, strip_eq_nil_iff]
  simp only [not_forall, Bool.not_eq_true, exists_prop]

/-- Writing lines changes nothing about whether there is text. -/
theorem anyText_map_spelled (lines : List (List Char)) :
    anyText (lines.map (List.flatMap spelled)) = anyText lines := by
  rw [Bool.eq_iff_iff, anyText_eq_true_iff, anyText_eq_true_iff]
  constructor
  · rintro ⟨line, hline, c, hc, hspace⟩
    obtain ⟨source, hsource, rfl⟩ := List.mem_map.mp hline
    obtain ⟨d, hd, hc⟩ := List.mem_flatMap.mp hc
    refine ⟨source, hsource, d, hd, ?_⟩
    -- a backslash is spelled for a backslash or a quote only, and none of the three is a space
    rcases spelled_cases d with ⟨-, rfl | rfl⟩ | ⟨hspelled, -⟩
    · decide
    · decide
    · rw [hspelled, List.mem_singleton] at hc
      exact hc ▸ hspace
  · rintro ⟨line, hline, c, hc, hspace⟩
    refine ⟨_, List.mem_map_of_mem hline, c, List.mem_flatMap.mpr ⟨c, hc, ?_⟩, hspace⟩
    rcases spelled_cases c with ⟨hspelled, -⟩ | ⟨hspelled, -⟩ <;> rw [hspelled] <;> simp

/-- A line is indented before or after it is written. -/
theorem indentLine_spelled (line : List Char) :
    indentLine (line.flatMap spelled) = (indentLine line).flatMap spelled := by
  rw [indentLine, indentLine, isEmpty_flatMap_spelled]
  split_ifs with h
  · rfl
  · rw [List.flatMap_append]
    rfl

/-- Lines are indented before or after they are written. -/
theorem indentRest_spelled (rest : List (List Char)) :
    indentRest (rest.map (List.flatMap spelled)) =
      (indentRest rest).map (List.flatMap spelled) := by
  rw [indentRest, indentRest, anyText_map_spelled]
  split_ifs
  · rw [List.map_map, List.map_map]
    exact List.map_congr_left fun line _ => indentLine_spelled line
  · rfl

/-- The closing quotes come behind the last line. -/
theorem joinLines_closeLast {lines : List (List Char)} (hne : lines ≠ []) :
    joinLines (closeLast lines) = joinLines lines ++ tripleQuote := by
  induction lines with
  | nil => exact absurd rfl hne
  | cons line lines ih =>
    cases lines with
    | nil => simp only [closeLast, joinLines_singleton]
    | cons second rest =>
      have hclosed : closeLast (second :: rest) ≠ [] := by
        cases rest <;> exact List.cons_ne_nil _ _
      rw [closeLast, joinLines_cons _ hclosed, ih (List.cons_ne_nil _ _),
        joinLines_cons _ (List.cons_ne_nil _ _), List.append_assoc, List.cons_append]

/-- The value the saved literal has, before it is cleaned. -/
def docstringValue (description : List Char) : List Char :=
  match linesOf (neutralised description) with
  | [] => []
  | first :: rest => joinLines (first :: indentRest rest)

/-- A docstring is its written value between triple quotes. -/
theorem docstringText_eq (description : List Char) :
    docstringText description =
      indent ++ (tripleQuote ++ ((docstringValue description).flatMap spelled ++ tripleQuote)) := by
  obtain ⟨first, rest, hlines⟩ :=
    List.exists_cons_of_ne_nil (linesOf_ne_nil (neutralised description))
  have hspelled : linesOf (sanitizeDescription description) =
      first.flatMap spelled :: rest.map (List.flatMap spelled) := by
    rw [sanitizeDescription_eq, linesOf_flatMap spelled_newline newline_notMem_spelled, hlines,
      List.map_cons]
  have hvalue : docstringValue description = joinLines (first :: indentRest rest) := by
    rw [docstringValue, hlines]
  have hjoined : joinLines ((tripleQuote ++ first.flatMap spelled) ::
      (indentRest rest).map (List.flatMap spelled)) =
        tripleQuote ++ (docstringValue description).flatMap spelled := by
    rw [joinLines_cons_append, hvalue, ← joinLines_map_flatMap spelled_newline, List.map_cons]
  rw [docstringText, docstringLines, hspelled]
  simp only [indentRest_spelled]
  have hclosed := joinLines_closeLast (List.cons_ne_nil (tripleQuote ++ first.flatMap spelled)
    ((indentRest rest).map (List.flatMap spelled)))
  rw [hjoined] at hclosed
  cases hshape : closeLast ((tripleQuote ++ first.flatMap spelled) ::
      (indentRest rest).map (List.flatMap spelled)) with
  | nil =>
    rw [hshape, joinLines_nil] at hclosed
    exact absurd hclosed.symm (by simp [tripleQuote])
  | cons head tail =>
    rw [hshape] at hclosed
    simp only
    rw [joinLines_cons_append, hclosed, List.append_assoc]

end Haute
