import Mathlib

/-!
# The document printer

Python source is laid out from documents. A group is printed flat when it fits on its line up to
the next possible break, and broken otherwise. Where the breaks fall depends on the widths; what
may be printed does not: `Doc.Emits` says it, and `printDoc` prints one of these
(`emits_printDoc`).
-/

namespace Haute.Layout

/-- `Doc`. -/
inductive Doc where
  | text (text : List Char)
  | concat (docs : List Doc)
  | group (contents : Doc)
  | indent (contents : Doc)
  | line (soft : Bool)
  | ifBreak (text : List Char)

mutual

/-- The number of steps that printing takes. -/
def Doc.size : Doc → ℕ
  | .text _ => 1
  | .concat docs => Doc.sizes docs + 1
  | .group contents => contents.size + 1
  | .indent contents => contents.size + 1
  | .line _ => 1
  | .ifBreak _ => 1

def Doc.sizes : List Doc → ℕ
  | [] => 0
  | doc :: docs => doc.size + Doc.sizes docs

end

theorem Doc.sizes_eq (docs : List Doc) : Doc.sizes docs = (docs.map fun doc => doc.size).sum := by
  induction docs with
  | nil => rfl
  | cons doc docs ih => rw [Doc.sizes, ih, List.map_cons, List.sum_cons]

section Print

-- the columns of a character, as `unicodedata` gives them
variable (columns : Char → ℕ)

/-- Display columns: wide characters take two, marks none. -/
def width (text : List Char) : ℕ :=
  if text.all fun c => decide (c.toNat < 128) then text.length else (text.map columns).sum

/-- `_fits`: whether what stands first, printed flat, and the rest up to its next break fit. -/
def fits : List (Bool × Doc) → ℤ → Bool
  | [], available => decide (0 ≤ available)
  | (broken, doc) :: pending, available =>
    if available < 0 then false
    else match doc with
      | .text text => fits pending (available - width columns text)
      | .concat docs => fits (docs.map (Prod.mk broken) ++ pending) available
      | .group contents => fits ((broken, contents) :: pending) available
      | .indent contents => fits ((broken, contents) :: pending) available
      | .line soft =>
        if broken then true else fits pending (available - if soft then 0 else 1)
      | .ifBreak text =>
        fits pending (available - if broken then (width columns text : ℤ) else 0)
termination_by pending => (pending.map fun item => item.2.size).sum
decreasing_by
  all_goals simp_wf
  all_goals simp [Doc.size, Doc.sizes_eq, Function.comp_def]

/-- A broken line: the newline and the indentation of its level. -/
def newline (level : ℕ) : List Char := '\n' :: List.replicate (4 * level) ' '

/-- The loop of `print_doc`: each item with its level and whether it is broken. -/
def printLoop (lineWidth : ℕ) : List (ℕ × Bool × Doc) → ℤ → List Char
  | [], _ => []
  | (level, broken, doc) :: stack, column =>
    match doc with
    | .text text => text ++ printLoop lineWidth stack (column + width columns text)
    | .concat docs => printLoop lineWidth (docs.map (fun d => (level, broken, d)) ++ stack) column
    | .indent contents => printLoop lineWidth ((level + 1, broken, contents) :: stack) column
    | .group contents =>
      printLoop lineWidth
        ((level, broken && !fits columns ((false, contents) :: stack.map Prod.snd)
          (lineWidth - column),
          contents) :: stack) column
    | .line soft =>
      if broken then newline level ++ printLoop lineWidth stack (4 * level)
      else if soft then printLoop lineWidth stack column
      else ' ' :: printLoop lineWidth stack (column + 1)
    | .ifBreak text =>
      if broken then text ++ printLoop lineWidth stack (column + width columns text)
      else printLoop lineWidth stack column
termination_by stack => (stack.map fun item => item.2.2.size).sum
decreasing_by
  all_goals simp_wf
  all_goals simp [Doc.size, Doc.sizes_eq, Function.comp_def]

/-- `print_doc`, with the width of a line. -/
def printDoc (lineWidth : ℕ) (doc : Doc) (indent : ℕ) : List Char :=
  printLoop columns lineWidth [(indent, true, doc)] (4 * indent)

end Print

/-! ### What may be printed -/

/-- What a document may print. -/
inductive Doc.Emits : Doc → List Char → Prop where
  | text (text : List Char) : Emits (.text text) text
  | nil : Emits (.concat []) []
  | cons {doc docs us vs} (h : Emits doc us) (hs : Emits (.concat docs) vs) :
      Emits (.concat (doc :: docs)) (us ++ vs)
  | group {doc us} (h : Emits doc us) : Emits (.group doc) us
  | indent {doc us} (h : Emits doc us) : Emits (.indent doc) us
  | broken (soft : Bool) (level : ℕ) : Emits (.line soft) (newline level)
  | soft : Emits (.line true) []
  | space : Emits (.line false) [' ']
  | ifBroken (text : List Char) : Emits (.ifBreak text) text
  | ifFlat (text : List Char) : Emits (.ifBreak text) []

open Doc

variable {doc : Doc} {docs docs' : List Doc} {us : List Char}

theorem emits_text {text : List Char} : Emits (.text text) us ↔ us = text := by
  constructor
  · intro h
    cases h
    rfl
  · rintro rfl
    exact .text _

theorem emits_nil : Emits (.concat []) us ↔ us = [] := by
  constructor
  · intro h
    cases h
    rfl
  · rintro rfl
    exact .nil

theorem emits_cons :
    Emits (.concat (doc :: docs)) us ↔
      ∃ vs ws, Emits doc vs ∧ Emits (.concat docs) ws ∧ us = vs ++ ws := by
  constructor
  · intro h
    cases h with
    | cons h hs => exact ⟨_, _, h, hs, rfl⟩
  · rintro ⟨vs, ws, h, hs, rfl⟩
    exact .cons h hs

theorem emits_append :
    Emits (.concat (docs ++ docs')) us ↔
      ∃ vs ws, Emits (.concat docs) vs ∧ Emits (.concat docs') ws ∧ us = vs ++ ws := by
  induction docs generalizing us with
  | nil => simp [emits_nil]
  | cons doc docs ih =>
    simp only [List.cons_append, emits_cons, ih]
    constructor
    · rintro ⟨vs, ws, h, ⟨vs', ws', h', h'', rfl⟩, rfl⟩
      exact ⟨vs ++ vs', ws', ⟨vs, vs', h, h', rfl⟩, h'', (List.append_assoc ..).symm⟩
    · rintro ⟨_, ws', ⟨vs, vs', h, h', rfl⟩, h'', rfl⟩
      exact ⟨vs, vs' ++ ws', h, ⟨vs', ws', h', h'', rfl⟩, List.append_assoc ..⟩

theorem emits_singleton : Emits (.concat [doc]) us ↔ Emits doc us := by
  rw [emits_cons]
  constructor
  · rintro ⟨vs, ws, h, hnil, rfl⟩
    rwa [emits_nil.mp hnil, List.append_nil]
  · intro h
    exact ⟨us, [], h, .nil, (List.append_nil us).symm⟩

theorem emits_group : Emits (.group doc) us ↔ Emits doc us := by
  constructor
  · intro h
    cases h with
    | group h => exact h
  · exact .group

theorem emits_indent : Emits (.indent doc) us ↔ Emits doc us := by
  constructor
  · intro h
    cases h with
    | indent h => exact h
  · exact .indent

/-- What a break may be printed as is blank. -/
theorem blank_of_emits_line {soft : Bool} (h : Emits (.line soft) us) :
    ∀ c ∈ us, c = ' ' ∨ c = '\n' := by
  intro c hc
  cases h with
  | broken _ level =>
    rcases List.mem_cons.mp hc with rfl | hc
    · exact .inr rfl
    · exact .inl (List.eq_of_mem_replicate hc)
  | soft => exact absurd hc List.not_mem_nil
  | space => exact .inl (List.mem_singleton.mp hc)

theorem emits_ifBreak {text : List Char} (h : Emits (.ifBreak text) us) : us = text ∨ us = [] := by
  cases h with
  | ifBroken => exact .inl rfl
  | ifFlat => exact .inr rfl

theorem emits_printLoop (columns : Char → ℕ) (lineWidth : ℕ) (stack : List (ℕ × Bool × Doc))
    (column : ℤ) :
    Emits (.concat (stack.map fun item => item.2.2))
      (printLoop columns lineWidth stack column) := by
  -- by what is left to print
  induction hsize : (stack.map fun item => item.2.2.size).sum using Nat.strongRecOn
    generalizing stack column with
  | _ size ih =>
    subst hsize
    cases stack with
    | nil =>
      rw [printLoop]
      exact .nil
    | cons item stack =>
      obtain ⟨level, broken, doc⟩ := item
      cases doc with
      | text text =>
        rw [printLoop]
        exact .cons (.text _) (ih _ (by simp [Doc.size]) stack _ rfl)
      | concat docs =>
        have hprinted := ih _ (by simp [Doc.size, Doc.sizes_eq, Function.comp_def])
          (docs.map (fun d => (level, broken, d)) ++ stack) column rfl
        rw [List.map_append, List.map_map] at hprinted
        obtain ⟨us, vs, hu, hv, heq⟩ := emits_append.mp hprinted
        rw [printLoop, heq]
        exact .cons (by simpa [Function.comp_def] using hu) hv
      | indent contents =>
        obtain ⟨us, vs, hu, hv, heq⟩ := emits_cons.mp
          (ih _ (by simp [Doc.size]) ((level + 1, broken, contents) :: stack) column rfl)
        rw [printLoop, heq]
        exact .cons (.indent hu) hv
      | group contents =>
        rw [printLoop]
        generalize
          (broken && !fits columns ((false, contents) :: stack.map Prod.snd)
          (lineWidth - column)) = breaks
        obtain ⟨us, vs, hu, hv, heq⟩ := emits_cons.mp
          (ih _ (by simp [Doc.size]) ((level, breaks, contents) :: stack) column rfl)
        rw [heq]
        exact .cons (.group hu) hv
      | line soft =>
        have hrest : ∀ column, Emits (.concat (stack.map fun item => item.2.2))
            (printLoop columns lineWidth stack column) := fun column =>
          ih _ (by simp [Doc.size]) stack column rfl
        rw [printLoop]
        split_ifs with hbroken hsoft
        · exact .cons (.broken _ _) (hrest _)
        · subst hsoft
          exact .cons .soft (hrest _)
        · obtain rfl := Bool.eq_false_iff.mpr hsoft
          exact .cons .space (hrest _)
      | ifBreak text =>
        have hrest : ∀ column, Emits (.concat (stack.map fun item => item.2.2))
            (printLoop columns lineWidth stack column) := fun column =>
          ih _ (by simp [Doc.size]) stack column rfl
        rw [printLoop]
        split_ifs with hbroken
        · exact .cons (.ifBroken _) (hrest _)
        · exact .cons (.ifFlat _) (hrest _)

/-- **A printed document** is one of the texts it may print, at any width and indentation. -/
theorem emits_printDoc (columns : Char → ℕ) (lineWidth : ℕ) (doc : Doc) (indent : ℕ) :
    Emits doc (printDoc columns lineWidth doc indent) :=
  emits_singleton.mp (emits_printLoop columns lineWidth [(indent, true, doc)] (4 * indent))

/-! ### Sequences -/

/-- `_comma_separated`. -/
def commaSeparated : List Doc → List Doc
  | [] => []
  | [entry] => [entry]
  | entry :: second :: entries =>
    entry :: .text [','] :: .line false :: commaSeparated (second :: entries)

/-- `bracketed`: flat, or one entry per line, two or more with a comma after the last. -/
def bracketed (left : List Char) (entries : List Doc) (right : List Char) : Doc :=
  if entries = [] then .text (left ++ right)
  else
    let body := commaSeparated entries ++ if 1 < entries.length then [.ifBreak [',']] else []
    .group (.concat
      [.text left, .indent (.concat [.line true, .concat body]), .line true, .text right])

/-- `arguments`: flat, or on one line of their own, or one per line. -/
def arguments (left : List Char) (entries : List Doc) (right : List Char)
    (signature : Bool) : Doc :=
  match entries with
  | [] => .text (left ++ right)
  | [entry] =>
    .group (.concat [.text left,
      .indent (.concat (.line true :: entry :: if signature then [.ifBreak [',']] else [])),
      .line true, .text right])
  | entries =>
    .group (.concat [.text left,
      .indent (.concat [.line true, .group (.concat (commaSeparated entries ++ [.ifBreak [',']]))]),
      .line true, .text right])

end Haute.Layout
