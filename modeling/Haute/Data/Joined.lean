import Mathlib.Data.List.Basic

/-!
# Fields joined by a separator

Fields are written one after another with a separator between them. Joined fields without the
separator in them are read back (`intercalate_inj`). So that any field can be joined, it is
escaped first: an escape symbol stands before one mark for itself and another for the
separator. Escaping is injective (`escapeField_injective`) and leaves no separator
(`separator_notMem_escapeField`).
-/

namespace Haute.Data

variable {α : Type} [DecidableEq α]

/-- `s` with every `c` replaced. -/
def replaceEach (c : α) (replacement : List α) (s : List α) : List α :=
  s.flatMap fun x => if x = c then replacement else [x]

/-- Joined fields that do not hold the separator say what the fields were. -/
theorem intercalate_inj {sep : α} {fields fields' : List (List α)} (hf : fields ≠ [])
    (hf' : fields' ≠ []) (h : ∀ f ∈ fields, sep ∉ f) (h' : ∀ f ∈ fields', sep ∉ f)
    (hj : [sep].intercalate fields = [sep].intercalate fields') : fields = fields' := by
  rw [← List.splitOn_intercalate sep h hf, hj, List.splitOn_intercalate sep h' hf']

/-! ### Escaped fields -/

variable {esc sep zero one : α}

/-- `s` with the escape symbol written `esc zero`, and then the separator `esc one`. -/
def escapeField (esc sep zero one : α) (s : List α) : List α :=
  replaceEach sep [esc, one] (replaceEach esc [esc, zero] s)

/-- What one symbol is escaped as. -/
def escapeSymbol (esc sep zero one x : α) : List α :=
  if x = esc then [esc, zero] else if x = sep then [esc, one] else [x]

/-- The two replacements are one pass, as the first brings no separator in. -/
theorem escapeField_eq (hesc : esc ≠ sep) (hzero : zero ≠ sep) (s : List α) :
    escapeField esc sep zero one s = s.flatMap (escapeSymbol esc sep zero one) := by
  unfold escapeField replaceEach
  rw [List.flatMap_assoc]
  refine List.flatMap_congr fun x _ => ?_
  unfold escapeSymbol
  by_cases hx : x = esc
  · simp [if_pos hx, hesc, hzero]
  · simp [if_neg hx]

theorem separator_notMem_escapeField (hesc : esc ≠ sep) (hzero : zero ≠ sep) (hone : one ≠ sep)
    (s : List α) : sep ∉ escapeField esc sep zero one s := by
  rw [escapeField_eq hesc hzero]
  intro h
  obtain ⟨x, -, hx⟩ := List.mem_flatMap.mp h
  unfold escapeSymbol at hx
  split_ifs at hx with h1 h2 <;> simp only [List.mem_cons, List.not_mem_nil, or_false] at hx
  · exact hx.elim (fun e => hesc e.symm) fun e => hzero e.symm
  · exact hx.elim (fun e => hesc e.symm) fun e => hone e.symm
  · exact h2 hx.symm

/-- What a symbol is escaped as is not the beginning of what another one is. -/
theorem escapeSymbol_append_inj (hmark : zero ≠ one) {x y : α} {s t : List α}
    (h : escapeSymbol esc sep zero one x ++ s = escapeSymbol esc sep zero one y ++ t) :
    x = y ∧ s = t := by
  unfold escapeSymbol at h
  split_ifs at h with hx hy hy' hx' hy hy' hy hy' <;>
    simp only [List.cons_append, List.nil_append, List.cons.injEq] at h
  · exact ⟨hx.trans hy.symm, h.2.2⟩
  · exact absurd h.2.1 hmark
  · exact absurd h.1.symm hy
  · exact absurd h.2.1.symm hmark
  · exact ⟨hx'.trans hy'.symm, h.2.2⟩
  · exact absurd h.1.symm hy
  · exact absurd h.1 hx
  · exact absurd h.1 hx
  · exact h

theorem escapeField_injective (hesc : esc ≠ sep) (hzero : zero ≠ sep) (hmark : zero ≠ one) :
    Function.Injective (escapeField esc sep zero one) := by
  intro s t h
  rw [escapeField_eq hesc hzero, escapeField_eq hesc hzero] at h
  induction s generalizing t with
  | nil =>
    rcases t with _ | ⟨y, t⟩
    · rfl
    · unfold escapeSymbol at h
      rw [List.flatMap_nil, List.flatMap_cons] at h
      split_ifs at h <;> simp at h
  | cons x s ih =>
    rcases t with _ | ⟨y, t⟩
    · unfold escapeSymbol at h
      rw [List.flatMap_nil, List.flatMap_cons] at h
      split_ifs at h <;> simp at h
    · rw [List.flatMap_cons, List.flatMap_cons] at h
      obtain ⟨rfl, hst⟩ := escapeSymbol_append_inj hmark h
      rw [ih hst]

theorem escapeField_eq_nil_iff {s : List α} (hesc : esc ≠ sep) (hzero : zero ≠ sep) :
    escapeField esc sep zero one s = [] ↔ s = [] := by
  rw [escapeField_eq hesc hzero, List.flatMap_eq_nil_iff]
  constructor
  · intro h
    refine List.eq_nil_iff_forall_not_mem.mpr fun x hx => ?_
    have hnil := h x hx
    unfold escapeSymbol at hnil
    split_ifs at hnil
  · rintro rfl x hx
    cases hx

end Haute.Data
