import Haute.Docstrings.Writing

/-!
# A description survives being saved

What is written is read back as the cleaned value of its literal (`tripleQuoted_docstringText`).
Two facts about cleaning then say everything: what it returns is `Tidy`, it neither starts nor
ends with an empty line and its smallest indentation is none (`tidy_cleandoc`); and a tidy
description is read back as it was written (`cleandoc_docstringValue`).
-/

namespace Haute

/-! ### The literal -/

/-- A character that ends no line is kept. -/
theorem translateFrom_plain {c : Char} (hreturn : c ≠ '\r') (hnewline : c ≠ '\n') (skip : Bool)
    (cs : List Char) : translateFrom skip (c :: cs) = c :: translateFrom false cs := by
  rw [translateFrom, beq_false_of_ne hnewline, Bool.and_false, if_neg Bool.false_ne_true,
    if_neg hreturn]

/-- Escapes and translated newlines do not touch each other. -/
theorem translateFrom_spelled (skip : Bool) (body after : List Char) :
    translateFrom skip (body.flatMap spelled ++ (tripleQuote ++ after)) =
      (translateFrom skip body).flatMap spelled ++ (tripleQuote ++ translateFrom false after) := by
  induction body generalizing skip with
  | nil => simp [tripleQuote, translateFrom]
  | cons c body ih =>
    rw [List.flatMap_cons, List.append_assoc]
    rcases spelled_cases c with ⟨hc, hkind⟩ | ⟨hc, -⟩
    · have hreturn : c ≠ '\r' := by rintro rfl; exact absurd hkind (by decide)
      have hnewline : c ≠ '\n' := by rintro rfl; exact absurd hkind (by decide)
      rw [translateFrom_plain hreturn hnewline skip body, List.flatMap_cons, hc]
      simp only [List.cons_append, List.nil_append]
      rw [translateFrom_plain (by decide) (by decide), translateFrom_plain hreturn hnewline, ih]
    · rw [hc, List.singleton_append, translateFrom, translateFrom]
      split_ifs
      · exact ih false
      · rw [ih true, List.flatMap_cons, spelled_newline, List.singleton_append, List.cons_append]
      · rw [ih false, List.flatMap_cons, hc, List.singleton_append, List.cons_append]

/-- No quote is left to close the literal early. -/
theorem untilClosing_spelled (body after : List Char) :
    untilClosing (body.flatMap spelled ++ (tripleQuote ++ after)) =
      some (body.flatMap spelled, after) := by
  induction body with
  | nil => rfl
  | cons c body ih =>
    rw [List.flatMap_cons, List.append_assoc]
    rcases spelled_cases c with ⟨hc, -⟩ | ⟨hc, hbackslash, hquote⟩
    · rw [hc, List.cons_append, List.cons_append, List.nil_append, untilClosing, ih]
      rfl
    · rw [hc, List.singleton_append, untilClosing, ih]
      · rfl
      · exact fun _ h _ => hquote h
      · exact fun _ _ h _ => hbackslash h

/-- A backslash or a quote after a backslash stands for itself. -/
theorem escaped_self (named : List Char → Option Char) (cs : List Char) :
    escaped named ('\\' :: cs) = some (['\\'], 1) ∧
      escaped named ('"' :: cs) = some (['"'], 1) := by
  constructor <;> simp only [escaped, Data.escapeOf, Option.bind_eq_bind, Option.bind_some] <;> rfl

/-- What is escaped character by character is read back. -/
theorem unescapeFrom_spelled (named : List Char → Option Char) (body : List Char) :
    unescapeFrom named 0 (body.flatMap spelled) = some body := by
  induction body with
  | nil => rfl
  | cons c body ih =>
    rw [List.flatMap_cons]
    rcases spelled_cases c with ⟨hc, rfl | rfl⟩ | ⟨hc, hbackslash, -⟩
    · rw [hc, List.cons_append, List.cons_append, List.nil_append, unescapeFrom, if_pos rfl]
      simp only [escaped_self named, Option.bind_eq_bind, Option.bind_some, unescapeFrom, ih]
      rfl
    · rw [hc, List.cons_append, List.cons_append, List.nil_append, unescapeFrom, if_pos rfl]
      simp only [escaped_self named, Option.bind_eq_bind, Option.bind_some, unescapeFrom, ih]
      rfl
    · rw [hc, List.singleton_append, unescapeFrom, if_neg hbackslash, ih]
      rfl

/-- The characters of indented lines are blanks and the characters of the lines. -/
theorem mem_indentRest {rest : List (List Char)} {line : List Char} {c : Char}
    (hline : line ∈ indentRest rest) (hc : c ∈ line) : c = ' ' ∨ ∃ source ∈ rest, c ∈ source := by
  rw [indentRest] at hline
  split_ifs at hline
  · obtain ⟨source, hsource, rfl⟩ := List.mem_map.mp hline
    rw [indentLine] at hc
    split_ifs at hc
    · exact absurd hc List.not_mem_nil
    · rcases List.mem_append.mp hc with hc | hc
      · simp only [indent, List.mem_cons, List.not_mem_nil, or_false, or_self] at hc
        exact .inl hc
      · exact .inr ⟨source, hsource, hc⟩
  · exact .inr ⟨line, hline, hc⟩

/-- The characters of a docstring's value are blanks, line ends and those of the description. -/
theorem mem_docstringValue {description : List Char} {c : Char}
    (h : c ∈ docstringValue description) : c = ' ' ∨ c = '\n' ∨ c ∈ description := by
  have hneutralised : ∀ d ∈ neutralised description, d = '\n' ∨ d ∈ description := by
    intro d hd
    rw [neutralised] at hd
    split_ifs at hd
    · exact List.mem_cons.mp hd
    · exact .inr hd
  obtain ⟨first, rest, hlines⟩ :=
    List.exists_cons_of_ne_nil (linesOf_ne_nil (neutralised description))
  have hsource : ∀ line ∈ first :: rest, ∀ d ∈ line, d = '\n' ∨ d ∈ description := by
    intro line hline d hd
    exact hneutralised d (mem_of_mem_linesOf (hlines ▸ hline) hd)
  rw [docstringValue, hlines] at h
  rcases mem_joinLines h with h | ⟨line, hline, hc⟩
  · exact .inr (.inl h)
  · rcases List.mem_cons.mp hline with rfl | hline
    · exact .inr (hsource _ List.mem_cons_self c hc)
    · rcases mem_indentRest hline hc with h | ⟨source, hmem, hc⟩
      · exact .inl h
      · exact .inr (hsource source (List.mem_cons_of_mem _ hmem) c hc)

/-- A description without null characters makes a docstring without them. -/
theorem nul_notMem_docstringText {description : List Char} (h : '\x00' ∉ description) :
    '\x00' ∉ docstringText description := by
  rw [docstringText_eq]
  simp only [List.mem_append, not_or]
  refine ⟨by decide, by decide, ?_, by decide⟩
  rw [List.mem_flatMap]
  rintro ⟨c, hc, hmem⟩
  rcases mem_spelled hmem with rfl | hmem
  · rcases mem_docstringValue hc with hc | hc | hc
    · exact absurd hc (by decide)
    · exact absurd hc (by decide)
    · exact h hc
  · exact absurd hmem (by decide)

/-- The docstring is one literal whatever follows it, and its value is the text it spells. -/
theorem tripleQuoted_docstringText (named : List Char → Option Char) {description after : List Char}
    (hnul : '\x00' ∉ description) (hafter : '\x00' ∉ after) :
    tripleQuoted named (docstringText description ++ after) =
      some (translateNewlines (docstringValue description), translateNewlines after) := by
  have hsource : '\x00' ∉ docstringText description ++ after := by
    rw [List.mem_append, not_or]
    exact ⟨nul_notMem_docstringText hnul, hafter⟩
  have htranslated : (translateNewlines (docstringText description ++ after)).dropWhile (· == ' ') =
      '"' :: '"' :: '"' :: ((translateNewlines (docstringValue description)).flatMap spelled ++
        (tripleQuote ++ translateNewlines after)) := by
    rw [translateNewlines, translateNewlines, translateNewlines, ← translateFrom_spelled,
      docstringText_eq]
    simp [indent, tripleQuote, translateFrom]
  rw [tripleQuoted, if_neg hsource, htranslated]
  simp only [untilClosing_spelled, Option.bind_eq_bind, Option.bind_some, unescapeFrom_spelled]
  rfl

/-! ### What cleaning returns -/

/-- A text without returns is kept. -/
theorem translateFrom_of_notMem {text : List Char} (h : '\r' ∉ text) :
    translateFrom false text = text := by
  induction text with
  | nil => rfl
  | cons c text ih =>
    rw [List.mem_cons, not_or] at h
    rw [translateFrom, Bool.false_and, if_neg Bool.false_ne_true, if_neg (fun hc => h.1 hc.symm),
      ih h.2]

/-- No return is left in a text read by Python. -/
theorem return_notMem_translateFrom (skip : Bool) (text : List Char) :
    '\r' ∉ translateFrom skip text := by
  induction text generalizing skip with
  | nil => exact List.not_mem_nil
  | cons c text ih =>
    rw [translateFrom]
    split_ifs with _ hc
    · exact ih false
    · rw [List.mem_cons, not_or]
      exact ⟨by decide, ih true⟩
    · rw [List.mem_cons, not_or]
      exact ⟨fun h => hc h.symm, ih false⟩

/-- Reading line ends puts nothing in but line ends. -/
theorem mem_translateFrom {skip : Bool} {text : List Char} {c : Char}
    (h : c ∈ translateFrom skip text) : c = '\n' ∨ c ∈ text := by
  induction text generalizing skip with
  | nil => exact .inr h
  | cons d text ih =>
    rw [translateFrom] at h
    split_ifs at h
    · exact (ih h).imp_right (List.mem_cons_of_mem _)
    · rcases List.mem_cons.mp h with h | h
      · exact .inl h
      · exact (ih h).imp_right (List.mem_cons_of_mem _)
    · rcases List.mem_cons.mp h with rfl | h
      · exact .inr List.mem_cons_self
      · exact (ih h).imp_right (List.mem_cons_of_mem _)

/-- A text without tabs is kept. -/
theorem expandFrom_of_notMem {text : List Char} (h : '\t' ∉ text) (column : ℕ) :
    expandFrom column text = text := by
  induction text generalizing column with
  | nil => rfl
  | cons c text ih =>
    rw [List.mem_cons, not_or] at h
    rw [expandFrom, if_neg (fun hc => h.1 hc.symm), ih h.2]

/-- Expanding tabs leaves none and puts nothing in but blanks. -/
theorem mem_expandFrom {column : ℕ} {text : List Char} {c : Char}
    (h : c ∈ expandFrom column text) : c = ' ' ∨ c ≠ '\t' ∧ c ∈ text := by
  induction text generalizing column with
  | nil => exact absurd h List.not_mem_nil
  | cons d text ih =>
    rw [expandFrom] at h
    by_cases hd : d = '\t'
    · rw [if_pos hd] at h
      rcases List.mem_append.mp h with h | h
      · exact .inl (List.eq_of_mem_replicate h)
      · exact (ih h).imp_right fun h => ⟨h.1, List.mem_cons_of_mem _ h.2⟩
    · rw [if_neg hd] at h
      rcases List.mem_cons.mp h with rfl | h
      · exact .inr ⟨hd, List.mem_cons_self⟩
      · exact (ih h).imp_right fun h => ⟨h.1, List.mem_cons_of_mem _ h.2⟩

namespace DocReader

variable {r : DocReader}

theorem mem_trimEmpty {lines : List (List Char)} {line : List Char} (h : line ∈ trimEmpty lines) :
    line ∈ lines :=
  (List.rdropWhile_prefix _ _).subset ((List.dropWhile_suffix _).subset h)

/-- Only empty lines are trimmed. -/
theorem mem_trimEmpty_of_mem {lines : List (List Char)} {line : List Char} (h : line ∈ lines)
    (hne : line ≠ []) : line ∈ trimEmpty lines := by
  have hkept : ¬ line.isEmpty = true := by rwa [List.isEmpty_iff]
  have hfront : line ∈ lines.rdropWhile List.isEmpty := by
    rw [← List.rdropWhile_append_rtakeWhile (p := List.isEmpty) (l := lines), List.mem_append] at h
    exact h.resolve_right fun h => hkept (List.mem_rtakeWhile_imp h)
  rw [← List.takeWhile_append_dropWhile (p := List.isEmpty)
    (l := lines.rdropWhile List.isEmpty), List.mem_append] at hfront
  exact hfront.resolve_left fun h => hkept (List.mem_takeWhile_imp h)

/-- The lines neither start nor end with an empty one. -/
def Trimmed (lines : List (List Char)) : Prop :=
  (∀ line ∈ lines.head?, line ≠ []) ∧ ∀ line ∈ lines.getLast?, line ≠ []

/-- Trimmed lines begin and end with one that is not empty. -/
theorem trimmed_trimEmpty (lines : List (List Char)) : Trimmed (trimEmpty lines) := by
  constructor
  · intro line hline
    have hhead := List.head?_dropWhile_not List.isEmpty (lines.rdropWhile List.isEmpty)
    rw [Option.mem_def] at hline
    rw [trimEmpty] at hline
    rw [hline] at hhead
    exact List.isEmpty_eq_false_iff.mp hhead
  · intro line hline
    obtain ⟨front, hfront⟩ := List.dropWhile_suffix List.isEmpty
      (l := lines.rdropWhile List.isEmpty)
    have hlast : (lines.rdropWhile List.isEmpty).getLast? = some line := by
      rw [← hfront, List.getLast?_append]
      change (trimEmpty lines).getLast?.or _ = some line
      rw [hline]
      rfl
    have hne : lines.rdropWhile List.isEmpty ≠ [] := by
      intro hnil
      rw [hnil] at hlast
      cases hlast
    rw [List.getLast?_eq_some_getLast hne] at hlast
    obtain rfl := Option.some.inj hlast
    intro hnil
    exact List.rdropWhile_last_not List.isEmpty lines hne (List.isEmpty_iff.mpr hnil)

/-- Trimming again changes nothing. -/
theorem trimEmpty_of_trimmed {lines : List (List Char)} (h : Trimmed lines) :
    trimEmpty lines = lines := by
  have hright : lines.rdropWhile List.isEmpty = lines := by
    rw [List.rdropWhile_eq_self_iff]
    intro hne hempty
    exact h.2 _ (List.getLast?_eq_some_getLast hne) (List.isEmpty_iff.mp hempty)
  rw [trimEmpty, hright]
  cases lines with
  | nil => rfl
  | cons first rest =>
    exact List.dropWhile_cons_of_neg fun hempty => h.1 first rfl (List.isEmpty_iff.mp hempty)

/-- An empty line in front is trimmed off. -/
theorem trimEmpty_nil_cons {lines : List (List Char)} (h : Trimmed lines) (hne : lines ≠ []) :
    trimEmpty ([] :: lines) = lines := by
  have hright : ([] :: lines).rdropWhile List.isEmpty = [] :: lines := by
    rw [List.rdropWhile_eq_self_iff]
    intro hcons hempty
    rw [List.getLast_cons hne] at hempty
    exact h.2 _ (List.getLast?_eq_some_getLast hne) (List.isEmpty_iff.mp hempty)
  rw [trimEmpty, hright, List.dropWhile_cons_of_pos List.isEmpty_nil]
  cases lines with
  | nil => rfl
  | cons first rest =>
    exact List.dropWhile_cons_of_neg fun hempty => h.1 first rfl (List.isEmpty_iff.mp hempty)

/-- Some line's text starts where the line does, or no line has text. -/
def Unindented (r : DocReader) (lines : List (List Char)) : Prop :=
  (∃ line ∈ lines, ∃ c ∈ line.head?, r.blank c = false) ∨ ∀ line ∈ lines, r.hasContent line = false

/-- A description that cleaning leaves as it is, whatever the indentation it is saved with. -/
structure Tidy (r : DocReader) (text : List Char) : Prop where
  tab : '\t' ∉ text
  carriage : '\r' ∉ text
  trimmed : text = [] ∨ Trimmed (linesOf text)
  unindented : r.Unindented (linesOf text)

/-- A line without content is all blank. -/
theorem hasContent_eq_false_iff (line : List Char) :
    r.hasContent line = false ↔ ∀ c ∈ line, r.blank c = true := by
  rw [hasContent, List.any_eq_false]
  simp only [Bool.not_eq_true', Bool.not_eq_false]

/-- Where there is no margin no line has content. -/
theorem margin_eq_none {lines : List (List Char)} (h : r.margin lines = none) :
    ∀ line ∈ lines, r.hasContent line = false := by
  rw [margin, List.min?_eq_none_iff, List.map_eq_nil_iff, List.filter_eq_nil_iff] at h
  exact fun line hline => Bool.not_eq_true _ ▸ h line hline

/-- A line without its indentation starts with its text. -/
theorem drop_indentation (line : List Char) :
    line.drop (r.indentation line) = line.dropWhile r.blank := by
  have hleft : (line.takeWhile r.blank ++ line.dropWhile r.blank).drop (r.indentation line) =
      line.dropWhile r.blank := List.drop_left
  rwa [List.takeWhile_append_dropWhile] at hleft

theorem head?_dropWhile_blank (line : List Char) :
    ∀ c ∈ (line.dropWhile r.blank).head?, r.blank c = false := by
  intro c hc
  have hhead := List.head?_dropWhile_not r.blank line
  rw [hc] at hhead
  exact hhead

/-- The cleaned lines of a text, before the empty ones at its ends go. -/
def dedented (r : DocReader) (first : List Char) (rest : List (List Char)) : List (List Char) :=
  first.dropWhile r.blank :: removeIndentation (r.margin rest) rest

/-- Dedented lines have a line without indentation, if there is text. -/
theorem unindented_dedented (first : List Char) (rest : List (List Char)) :
    r.Unindented (dedented r first rest) := by
  cases hfirst : first.dropWhile r.blank with
  | cons c text =>
    refine .inl ⟨_, List.mem_cons_self, c, ?_, head?_dropWhile_blank first c ?_⟩ <;>
      rw [hfirst] <;> rfl
  | nil =>
    cases hmargin : r.margin rest with
    | none =>
      refine .inr fun line hline => ?_
      rw [dedented, hfirst, hmargin, removeIndentation, List.mem_cons] at hline
      rcases hline with rfl | hline
      · rfl
      · exact margin_eq_none hmargin line hline
    | some m =>
      -- the margin is the indentation of some line with text
      obtain ⟨line, hline, rfl⟩ := List.mem_map.mp (List.min?_mem hmargin)
      rw [List.mem_filter] at hline
      obtain ⟨c, hc⟩ : ∃ c, c ∈ (line.dropWhile r.blank).head? := by
        cases hdrop : line.dropWhile r.blank with
        | cons c text => exact ⟨c, rfl⟩
        | nil =>
          rw [(hasContent_eq_false_iff line).mpr (List.dropWhile_eq_nil_iff.mp hdrop)] at hline
          exact absurd hline.2 Bool.false_ne_true
      refine .inl ⟨line.dropWhile r.blank, ?_, c, hc, head?_dropWhile_blank line c hc⟩
      rw [dedented, hmargin, removeIndentation, ← drop_indentation line]
      exact List.mem_cons_of_mem _ (List.mem_map_of_mem hline.1)

/-- Trimming keeps what is unindented so. -/
theorem Unindented.trimEmpty {lines : List (List Char)} (h : r.Unindented lines) :
    r.Unindented (trimEmpty lines) := by
  rcases h with ⟨line, hline, c, hc, hblank⟩ | h
  · refine .inl ⟨line, mem_trimEmpty_of_mem hline ?_, c, hc, hblank⟩
    rintro rfl
    cases hc
  · exact .inr fun line hline => h line (mem_trimEmpty hline)

/-- Dedenting puts no character in. -/
theorem mem_dedented {first line : List Char} {rest : List (List Char)} {c : Char}
    (hline : line ∈ dedented r first rest) (hc : c ∈ line) :
    ∃ source ∈ first :: rest, c ∈ source := by
  rw [dedented, List.mem_cons] at hline
  rcases hline with rfl | hline
  · exact ⟨first, List.mem_cons_self, (List.dropWhile_suffix _).subset hc⟩
  · cases hmargin : r.margin rest with
    | none =>
      rw [hmargin, removeIndentation] at hline
      exact ⟨line, List.mem_cons_of_mem _ hline, hc⟩
    | some m =>
      rw [hmargin, removeIndentation] at hline
      obtain ⟨source, hsource, rfl⟩ := List.mem_map.mp hline
      exact ⟨source, List.mem_cons_of_mem _ hsource, List.mem_of_mem_drop hc⟩

/-- A cleaned docstring is its dedented lines, trimmed. -/
theorem cleandoc_eq {text first : List Char} {rest : List (List Char)}
    (h : linesOf (expandTabs text) = first :: rest) :
    r.cleandoc text = joinLines (DocReader.trimEmpty (dedented r first rest)) := by
  rw [cleandoc, h]
  rfl

/-- The lines of a cleaned docstring have characters of the text only. -/
theorem mem_trimEmpty_dedented {text first line : List Char} {rest : List (List Char)} {c : Char}
    (hlines : linesOf text = first :: rest)
    (hline : line ∈ DocReader.trimEmpty (dedented r first rest)) (hc : c ∈ line) :
    c ≠ '\n' ∧ c ∈ text := by
  obtain ⟨source, hmem, hc⟩ := mem_dedented (mem_trimEmpty hline) hc
  rw [← hlines] at hmem
  refine ⟨?_, mem_of_mem_linesOf hmem hc⟩
  rintro rfl
  exact newline_notMem_of_mem_linesOf hmem hc

/-- A cleaned docstring has no tabs and no characters but blanks, line ends and those of the
text. -/
theorem mem_cleandoc {text : List Char} {c : Char} (hc : c ∈ r.cleandoc text) :
    c = '\n' ∨ c = ' ' ∨ c ≠ '\t' ∧ c ∈ text := by
  obtain ⟨first, rest, hlines⟩ := List.exists_cons_of_ne_nil (linesOf_ne_nil (expandTabs text))
  rw [cleandoc_eq hlines] at hc
  rcases mem_joinLines hc with h | ⟨line, hline, hc⟩
  · exact .inl h
  · exact .inr (mem_expandFrom (mem_trimEmpty_dedented hlines hline hc).2)

/-- What cleaning returns is tidy. -/
theorem tidy_cleandoc {text : List Char} (hreturn : '\r' ∉ text) : r.Tidy (r.cleandoc text) := by
  obtain ⟨first, rest, hlines⟩ := List.exists_cons_of_ne_nil (linesOf_ne_nil (expandTabs text))
  have hfree : ∀ line ∈ DocReader.trimEmpty (dedented r first rest), '\n' ∉ line :=
    fun line hline h => (mem_trimEmpty_dedented hlines hline h).1 rfl
  have hunindented := (unindented_dedented (r := r) first rest).trimEmpty
  have htrimmed := trimmed_trimEmpty (dedented r first rest)
  refine ⟨fun h => ?_, fun h => ?_, ?_, ?_⟩
  · rcases mem_cleandoc h with h | h | h
    · exact absurd h (by decide)
    · exact absurd h (by decide)
    · exact h.1 rfl
  · rcases mem_cleandoc h with h | h | h
    · exact absurd h (by decide)
    · exact absurd h (by decide)
    · exact hreturn h.2
  · by_cases hempty : DocReader.trimEmpty (dedented r first rest) = []
    · exact .inl (by rw [cleandoc_eq hlines, hempty, joinLines_nil])
    · refine .inr ?_
      rw [cleandoc_eq hlines, linesOf_joinLines hfree hempty]
      exact htrimmed
  · by_cases hempty : DocReader.trimEmpty (dedented r first rest) = []
    · rw [cleandoc_eq hlines, hempty, joinLines_nil, linesOf_nil]
      refine .inr fun line hline => ?_
      rw [List.mem_singleton.mp hline]
      rfl
    · rw [cleandoc_eq hlines, linesOf_joinLines hfree hempty]
      exact hunindented

/-! ### What a tidy description is read back as -/

/-- An indented line is indented by four more. -/
theorem indentation_indentLine {line : List Char} (h : line ≠ []) :
    r.indentation (indentLine line) = 4 + r.indentation line := by
  have hblank : ∀ c ∈ indent, r.blank c = true := by
    intro c hc
    simp only [indent, List.mem_cons, List.not_mem_nil, or_false, or_self] at hc
    exact hc ▸ r.space
  rw [indentLine, if_neg (fun hempty => h (List.isEmpty_iff.mp hempty)), indentation, indentation,
    List.takeWhile_append_of_pos hblank, List.length_append]
  rfl

theorem drop_indentLine (line : List Char) : (indentLine line).drop 4 = line := by
  rw [indentLine]
  split_ifs with h
  · rw [List.isEmpty_iff.mp h]
    rfl
  · rfl

/-- The indentation that is written is the margin that is read. -/
theorem margin_indented {lines : List (List Char)} {line : List Char} {c : Char}
    (hline : line ∈ lines) (hc : c ∈ line.head?) (hblank : r.blank c = false) :
    r.margin (lines.map indentLine) = some 4 := by
  obtain ⟨text, rfl⟩ := List.head?_eq_some_iff.mp hc
  rw [margin, List.min?_eq_some_iff]
  constructor
  · refine List.mem_map.mpr
      ⟨indentLine (c :: text), List.mem_filter.mpr ⟨List.mem_map_of_mem hline, ?_⟩, ?_⟩
    · rw [← Bool.not_eq_false, hasContent_eq_false_iff]
      intro h
      have := h c (List.mem_append_right indent List.mem_cons_self)
      rw [hblank] at this
      exact Bool.false_ne_true this
    · rw [indentation_indentLine (List.cons_ne_nil _ _), indentation,
        List.takeWhile_cons_of_neg (by rw [hblank]; exact Bool.false_ne_true)]
      rfl
  · intro n hn
    obtain ⟨written, hwritten, rfl⟩ := List.mem_map.mp hn
    obtain ⟨hmem, hcontent⟩ := List.mem_filter.mp hwritten
    obtain ⟨source, -, rfl⟩ := List.mem_map.mp hmem
    have hne : source ≠ [] := by
      rintro rfl
      exact Bool.false_ne_true hcontent
    rw [indentation_indentLine hne]
    omega

/-- Reading takes off what writing put in front of the lines. -/
theorem removeIndentation_indentRest {lines : List (List Char)} (h : r.Unindented lines) :
    removeIndentation (r.margin (indentRest lines)) (indentRest lines) = lines := by
  rw [indentRest]
  by_cases htext : anyText lines = true
  · -- text that is no whitespace is text to the reader too
    obtain ⟨source, hsource, d, hd, hspace⟩ := (anyText_eq_true_iff lines).mp htext
    have hblank : r.blank d = false := by
      rw [← Bool.not_eq_true]
      intro h
      rw [r.sound d h] at hspace
      cases hspace
    obtain ⟨line, hline, c, hc, hfirst⟩ := h.resolve_right fun hnone => by
      rw [(hasContent_eq_false_iff source).mp (hnone source hsource) d hd] at hblank
      cases hblank
    rw [if_pos htext, margin_indented hline hc hfirst, removeIndentation, List.map_map]
    exact (List.map_congr_left fun line _ => drop_indentLine line).trans (List.map_id _)
  · rw [if_neg htext]
    rcases h with ⟨line, hline, c, hc, hfirst⟩ | hnone
    · obtain ⟨text, rfl⟩ := List.head?_eq_some_iff.mp hc
      have hmargin : r.margin lines = some 0 := by
        rw [margin, List.min?_eq_some_iff]
        refine ⟨List.mem_map.mpr ⟨c :: text, List.mem_filter.mpr ⟨hline, ?_⟩, ?_⟩,
          fun n _ => n.zero_le⟩
        · rw [hasContent, List.any_cons, hfirst]
          rfl
        · rw [indentation, List.takeWhile_cons_of_neg (by rw [hfirst]; exact Bool.false_ne_true)]
          rfl
      rw [hmargin, removeIndentation]
      exact List.map_id lines
    · have hmargin : r.margin lines = none := by
        rw [margin, List.min?_eq_none_iff, List.map_eq_nil_iff, List.filter_eq_nil_iff]
        exact fun line hline => by rw [hnone line hline]; exact Bool.false_ne_true
      rw [hmargin, removeIndentation]

theorem newline_notMem_indentRest {lines : List (List Char)} (h : ∀ line ∈ lines, '\n' ∉ line) :
    ∀ line ∈ indentRest lines, '\n' ∉ line := by
  intro line hline hmem
  rcases mem_indentRest hline hmem with h' | ⟨source, hsource, hmem⟩
  · exact absurd h' (by decide)
  · exact h source hsource hmem

/-- A text equal to its own strip starts with no whitespace. -/
theorem dropWhile_of_eq_strip {text : List Char} (h : text = strip text) :
    text.dropWhile r.blank = text := by
  cases text with
  | nil => rfl
  | cons c text =>
    refine List.dropWhile_cons_of_neg fun hblank => ?_
    have hlength : (strip (c :: text)).length ≤ text.length := by
      rw [strip, List.dropWhile_cons_of_pos (r.sound c hblank)]
      exact ((List.rdropWhile_prefix _ _).length_le).trans (List.dropWhile_suffix _).length_le
    rw [← h, List.length_cons] at hlength
    omega

/-- A tidy description is what cleaning its docstring gives. -/
theorem cleandoc_docstringValue {description : List Char} (h : r.Tidy description) :
    r.cleandoc (translateNewlines (docstringValue description)) = description := by
  have hplain : '\r' ∉ docstringValue description ∧ '\t' ∉ docstringValue description := by
    constructor <;> intro hmem <;> rcases mem_docstringValue hmem with h' | h' | h'
    · exact absurd h' (by decide)
    · exact absurd h' (by decide)
    · exact h.carriage h'
    · exact absurd h' (by decide)
    · exact absurd h' (by decide)
    · exact h.tab h'
  rw [translateNewlines, translateFrom_of_notMem hplain.1]
  have hexpand : expandTabs (docstringValue description) = docstringValue description :=
    expandFrom_of_notMem hplain.2 0
  by_cases hneutral : '\n' ∈ description ∨ description ≠ strip description
  · have hne : description ≠ [] := by
      rintro rfl
      exact absurd hneutral (by decide)
    have hvalue : docstringValue description =
        joinLines ([] :: indentRest (linesOf description)) := by
      rw [docstringValue, neutralised, if_pos hneutral, linesOf_newline_cons]
    have hlines : linesOf (expandTabs (docstringValue description)) =
        [] :: indentRest (linesOf description) := by
      rw [hexpand, hvalue]
      refine linesOf_joinLines (fun line hline => ?_) (List.cons_ne_nil _ _)
      rcases List.mem_cons.mp hline with rfl | hline
      · exact List.not_mem_nil
      · exact newline_notMem_indentRest (fun _ => newline_notMem_of_mem_linesOf) line hline
    have htrim : DocReader.trimEmpty ([] :: linesOf description) = linesOf description :=
      trimEmpty_nil_cons (h.trimmed.resolve_left hne) (linesOf_ne_nil description)
    rw [cleandoc_eq hlines, dedented, removeIndentation_indentRest h.unindented, List.dropWhile_nil,
      htrim, joinLines_linesOf]
  · rw [not_or, not_not] at hneutral
    have hvalue : docstringValue description = description := by
      rw [docstringValue, neutralised, if_neg (by rw [not_or, not_not]; exact hneutral),
        linesOf_eq_singleton hneutral.1]
      exact joinLines_singleton description
    have hlines : linesOf (expandTabs (docstringValue description)) = [description] := by
      rw [hexpand, hvalue, linesOf_eq_singleton hneutral.1]
    rw [cleandoc_eq hlines, dedented, dropWhile_of_eq_strip hneutral.2]
    have hrest : removeIndentation (r.margin []) [] = [] := rfl
    rw [hrest]
    rcases h.trimmed with rfl | htrimmed
    · rfl
    · rw [linesOf_eq_singleton hneutral.1] at htrimmed
      rw [trimEmpty_of_trimmed htrimmed, joinLines_singleton]

/-- What is read as a function's docstring is the description written, cleaned. -/
theorem getDocstring_docstringText (named : List Char → Option Char) {description after : List Char}
    (hnul : '\x00' ∉ description) (hafter : '\x00' ∉ after) :
    r.getDocstring named (docstringText description ++ after) =
      some (r.cleandoc (translateNewlines (docstringValue description))) := by
  rw [getDocstring, tripleQuoted_docstringText named hnul hafter]
  rfl

end DocReader

open DocReader

/-- A saved description is one literal that ends where it should, whatever text follows it; what
is read back is read back the same from then on; and a description without tabs and carriage
returns is read back as it is, if its first and last lines are not empty and the text of some
line stands at its start. -/
theorem docstring_survives (r : DocReader) (named : List Char → Option Char)
    {description : List Char} (hnul : '\x00' ∉ description) :
    (∀ after, '\x00' ∉ after → ∃ value,
      tripleQuoted named (docstringText description ++ after) =
        some (value, translateNewlines after)) ∧
    (∃ read, '\x00' ∉ read ∧ ∀ after, '\x00' ∉ after →
      r.getDocstring named (docstringText description ++ after) = some read ∧
      r.getDocstring named (docstringText read ++ after) = some read) ∧
    ('\t' ∉ description → '\r' ∉ description →
      (∀ line ∈ (linesOf description).head?, line ≠ []) →
      (∀ line ∈ (linesOf description).getLast?, line ≠ []) →
      (∃ line ∈ linesOf description, ∃ c ∈ line.head?, r.blank c = false) →
      ∀ after, '\x00' ∉ after →
        r.getDocstring named (docstringText description ++ after) = some description) := by
  refine ⟨fun after hafter => ⟨_, tripleQuoted_docstringText named hnul hafter⟩, ?_, ?_⟩
  · have hreturn : '\r' ∉ translateNewlines (docstringValue description) :=
      return_notMem_translateFrom false _
    have hread : '\x00' ∉ r.cleandoc (translateNewlines (docstringValue description)) := by
      intro h
      rcases mem_cleandoc h with h | h | ⟨-, h⟩
      · exact absurd h (by decide)
      · exact absurd h (by decide)
      · rcases mem_translateFrom h with h | h
        · exact absurd h (by decide)
        · rcases mem_docstringValue h with h | h | h
          · exact absurd h (by decide)
          · exact absurd h (by decide)
          · exact hnul h
    refine ⟨_, hread, fun after hafter => ⟨getDocstring_docstringText named hnul hafter, ?_⟩⟩
    rw [getDocstring_docstringText named hread hafter,
      cleandoc_docstringValue (tidy_cleandoc hreturn)]
  · intro htab hreturn hfirst hlast hunindented after hafter
    have htidy : r.Tidy description := ⟨htab, hreturn, .inr ⟨hfirst, hlast⟩, .inl hunindented⟩
    rw [getDocstring_docstringText named hnul hafter, cleandoc_docstringValue htidy]

/-- A Windows path with an indented, quoted second line. -/
theorem docstring_survives_quoted :
    DocReader.spacesOnly.getDocstring (fun _ => none)
      (docstringText ['C', ':', '\\', 'U', '\n', ' ', '"', 'a', '"'] ++ ['\n']) =
        some ['C', ':', '\\', 'U', '\n', ' ', '"', 'a', '"'] :=
  (docstring_survives DocReader.spacesOnly (fun _ => none) (by decide)).2.2 (by decide) (by decide)
    (by decide) (by decide) ⟨['C', ':', '\\', 'U'], by decide, 'C', rfl, rfl⟩ _ (by decide)

end Haute
