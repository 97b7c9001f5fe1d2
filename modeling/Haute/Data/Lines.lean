import Mathlib.Data.List.Basic

/-!
# Lines of a text

A text as its characters, cut at every newline, and the lines joined again. An operation that
works character by character and leaves newlines alone may be applied before the cut or
after it.
-/

namespace Haute

/-- `text.split("\n")`. -/
def linesOf (text : List Char) : List (List Char) := text.splitOn '\n'

/-- `"\n".join(lines)`. -/
def joinLines (lines : List (List Char)) : List Char := ['\n'].intercalate lines

/-- The lines of a text join to it. -/
theorem joinLines_linesOf (text : List Char) : joinLines (linesOf text) = text :=
  List.intercalate_splitOn '\n'

/-- Lines without line ends come back from their text. -/
theorem linesOf_joinLines {lines : List (List Char)} (hfree : ∀ line ∈ lines, '\n' ∉ line)
    (hne : lines ≠ []) : linesOf (joinLines lines) = lines :=
  List.splitOn_intercalate '\n' hfree hne

theorem linesOf_ne_nil (text : List Char) : linesOf text ≠ [] := List.splitOn_ne_nil _ _

@[simp] theorem linesOf_nil : linesOf [] = [[]] := rfl

@[simp] theorem joinLines_nil : joinLines [] = [] := rfl

@[simp] theorem joinLines_singleton (line : List Char) : joinLines [line] = line :=
  List.intercalate_singleton

@[simp] theorem linesOf_newline_cons (text : List Char) :
    linesOf ('\n' :: text) = [] :: linesOf text :=
  List.splitOn_append_cons_self [] text

/-- A text without line ends is one line. -/
theorem linesOf_eq_singleton {text : List Char} (h : '\n' ∉ text) : linesOf text = [text] :=
  List.splitOn_eq_singleton h

/-- Lines are joined with a line end after the first. -/
theorem joinLines_cons {lines : List (List Char)} (line : List Char) (hne : lines ≠ []) :
    joinLines (line :: lines) = line ++ '\n' :: joinLines lines := by
  rw [joinLines, List.intercalate_cons_of_ne_nil hne, joinLines]
  simp only [List.append_assoc, List.singleton_append]

theorem joinLines_cons_append (line front : List Char) (lines : List (List Char)) :
    joinLines ((front ++ line) :: lines) = front ++ joinLines (line :: lines) := by
  cases lines with
  | nil => simp only [joinLines_singleton]
  | cons second rest =>
    rw [joinLines_cons _ (List.cons_ne_nil _ _), joinLines_cons _ (List.cons_ne_nil _ _),
      List.append_assoc]

/-- A line has no line end. -/
theorem newline_notMem_of_mem_linesOf {text line : List Char} (h : line ∈ linesOf text) :
    '\n' ∉ line := by
  induction text generalizing line with
  | nil =>
    rw [linesOf_nil, List.mem_singleton] at h
    exact h ▸ List.not_mem_nil
  | cons c text ih =>
    by_cases hc : c = '\n'
    · subst hc
      rw [linesOf_newline_cons, List.mem_cons] at h
      rcases h with rfl | h
      · exact List.not_mem_nil
      · exact ih h
    · obtain ⟨first, rest, hlines⟩ := List.exists_cons_of_ne_nil (linesOf_ne_nil text)
      have hcons : linesOf (c :: text) = (c :: first) :: rest := by
        rw [linesOf, List.splitOn_cons_eq_if_modifyHead, if_neg (by simpa using hc)]
        exact (congrArg (List.modifyHead (c :: ·)) hlines).trans rfl
      rw [hcons, List.mem_cons] at h
      rcases h with rfl | h
      · rw [List.mem_cons, not_or]
        exact ⟨fun h => hc h.symm, ih (hlines ▸ List.mem_cons_self)⟩
      · exact ih (hlines ▸ List.mem_cons_of_mem _ h)

/-- The characters of a line are those of its text. -/
theorem mem_of_mem_linesOf {text line : List Char} {c : Char} (h : line ∈ linesOf text)
    (hc : c ∈ line) : c ∈ text := by
  rw [← joinLines_linesOf text, joinLines, List.intercalate, List.mem_flatten]
  refine ⟨line, ?_, hc⟩
  generalize linesOf text = lines at h
  induction lines with
  | nil => exact absurd h List.not_mem_nil
  | cons first rest ih =>
    rcases List.mem_cons.mp h with rfl | h
    · cases rest <;> simp
    · cases rest with
      | nil => exact absurd h List.not_mem_nil
      | cons second rest => exact List.mem_cons_of_mem _ (List.mem_cons_of_mem _ (ih h))

/-- The characters of joined lines are line ends and those of the lines. -/
theorem mem_joinLines {lines : List (List Char)} {c : Char} (h : c ∈ joinLines lines) :
    c = '\n' ∨ ∃ line ∈ lines, c ∈ line := by
  induction lines with
  | nil => exact absurd h List.not_mem_nil
  | cons first rest ih =>
    by_cases hrest : rest = []
    · subst hrest
      exact .inr ⟨first, List.mem_cons_self, joinLines_singleton first ▸ h⟩
    · rw [joinLines_cons first hrest, List.mem_append, List.mem_cons] at h
      rcases h with h | h | h
      · exact .inr ⟨first, List.mem_cons_self, h⟩
      · exact .inl h
      · rcases ih h with h | ⟨line, hline, hc⟩
        · exact .inl h
        · exact .inr ⟨line, List.mem_cons_of_mem _ hline, hc⟩

section Charwise

variable {f : Char → List Char}

/-- A rewriting that keeps line ends goes line by line. -/
theorem joinLines_map_flatMap (hnewline : f '\n' = ['\n']) (lines : List (List Char)) :
    joinLines (lines.map (List.flatMap f)) = (joinLines lines).flatMap f := by
  induction lines with
  | nil => rfl
  | cons line lines ih =>
    by_cases hlines : lines = []
    · subst hlines
      rw [joinLines_singleton, List.map_singleton, joinLines_singleton]
    · rw [joinLines_cons _ hlines, List.map_cons, joinLines_cons _ (by simpa using hlines),
        List.flatMap_append, List.flatMap_cons, hnewline, ih, List.singleton_append]

/-- A spelling of each character that leaves newlines alone acts line by line. -/
theorem linesOf_flatMap (hnewline : f '\n' = ['\n']) (hother : ∀ c, c ≠ '\n' → '\n' ∉ f c)
    (text : List Char) : linesOf (text.flatMap f) = (linesOf text).map (List.flatMap f) := by
  have hfree : ∀ line ∈ (linesOf text).map (List.flatMap f), '\n' ∉ line := by
    intro line hline
    obtain ⟨source, hsource, rfl⟩ := List.mem_map.mp hline
    rw [List.mem_flatMap]
    rintro ⟨c, hc, hmem⟩
    refine hother c ?_ hmem
    rintro rfl
    exact newline_notMem_of_mem_linesOf hsource hc
  calc linesOf (text.flatMap f)
      = linesOf ((joinLines (linesOf text)).flatMap f) := by rw [joinLines_linesOf]
    _ = linesOf (joinLines ((linesOf text).map (List.flatMap f))) := by
        rw [joinLines_map_flatMap hnewline]
    _ = (linesOf text).map (List.flatMap f) :=
        linesOf_joinLines hfree (by simpa using linesOf_ne_nil text)

end Charwise

end Haute
