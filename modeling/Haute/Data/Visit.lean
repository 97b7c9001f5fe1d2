import Mathlib.Algebra.Order.BigOperators.Group.Finset
import Mathlib.Logic.Relation

/-!
# Everything a stack leads to

`visit next` pops a stack: what was seen before is dropped, anything else is noted and what it
leads to goes on top. Each pop takes one off what is `pending`, so with that many pops the stack
is empty (`visit_spec`), and what was noted by then is what the start leads to, each once
(`mem_visit_iff`, `nodup_visit`). Cycles and repetitions do not matter.
-/

namespace Haute.Data

open Relation

variable {ι : Type} {V : Finset ι} {next : ι → List ι} {start seen stack : List ι} {x : ι}

/-- What holds between two pops. -/
structure Visiting (next : ι → List ι) (start seen stack : List ι) : Prop where
  nodup : seen.Nodup
  reached : ∀ x, x ∈ seen ∨ x ∈ stack → ∃ s ∈ start, ReflTransGen (fun a b => b ∈ next a) s x
  closed : ∀ x ∈ seen, ∀ y ∈ next x, y ∈ seen ∨ y ∈ stack
  started : ∀ x ∈ start, x ∈ seen ∨ x ∈ stack

theorem visiting_nil (start : List ι) : Visiting next start [] start where
  nodup := List.nodup_nil
  reached x hx := by
    rcases hx with hx | hx
    · exact absurd hx List.not_mem_nil
    · exact ⟨x, hx, ReflTransGen.refl⟩
  closed x hx := absurd hx List.not_mem_nil
  started _ hx := .inr hx

/-- Dropping what was seen keeps what holds. -/
theorem Visiting.drop (h : Visiting next start seen (x :: stack)) (hx : x ∈ seen) :
    Visiting next start seen stack := by
  have hor : ∀ y, y ∈ seen ∨ y ∈ x :: stack → y ∈ seen ∨ y ∈ stack := by
    rintro y (hy | hy)
    · exact .inl hy
    · rcases List.mem_cons.mp hy with rfl | hy
      · exact .inl hx
      · exact .inr hy
  exact ⟨h.nodup, fun y hy => h.reached y (hy.imp_right (List.mem_cons_of_mem x)),
    fun a ha y hy => hor y (h.closed a ha y hy), fun s hs => hor s (h.started s hs)⟩

/-- Noting what is new, and putting what it leads to on top, keeps what holds. -/
theorem Visiting.note (h : Visiting next start seen (x :: stack)) (hx : x ∉ seen) :
    Visiting next start (seen ++ [x]) (next x ++ stack) := by
  have hor : ∀ y, y ∈ seen ∨ y ∈ x :: stack → y ∈ seen ++ [x] ∨ y ∈ next x ++ stack := by
    rintro y (hy | hy)
    · exact .inl (List.mem_append_left _ hy)
    · rcases List.mem_cons.mp hy with rfl | hy
      · exact .inl (List.mem_append_right _ List.mem_cons_self)
      · exact .inr (List.mem_append_right _ hy)
  obtain ⟨s, hs, hreach⟩ := h.reached x (.inr List.mem_cons_self)
  refine ⟨?_, fun y hy => ?_, fun a ha y hy => ?_, fun s hs => hor s (h.started s hs)⟩
  · refine List.nodup_append.mpr ⟨h.nodup, List.nodup_singleton x, ?_⟩
    rintro a ha b hb rfl
    exact hx (List.mem_singleton.mp hb ▸ ha)
  · simp only [List.mem_append, List.mem_singleton] at hy
    rcases hy with (hy | rfl) | hy | hy
    · exact h.reached y (.inl hy)
    · exact ⟨s, hs, hreach⟩
    · exact ⟨s, hs, hreach.tail hy⟩
    · exact h.reached y (.inr (List.mem_cons_of_mem x hy))
  · rcases List.mem_append.mp ha with ha | ha
    · exact hor y (h.closed a ha y hy)
    · rw [List.mem_singleton.mp ha] at hy
      exact .inr (List.mem_append_left _ hy)

variable [DecidableEq ι]

/-- Pops the stack until it is empty, noting what was not seen before. -/
def visit (next : ι → List ι) : ℕ → List ι → List ι → List ι
  | 0, seen, _ => seen
  | _ + 1, seen, [] => seen
  | n + 1, seen, x :: stack =>
    if x ∈ seen then visit next n seen stack else visit next n (seen ++ [x]) (next x ++ stack)

/-- The pops still to come at most: the stack's, and those of what the unseen will put on it. -/
def pending (V : Finset ι) (next : ι → List ι) (seen stack : List ι) : ℕ :=
  stack.length + ∑ x ∈ V \ seen.toFinset, (next x).length

/-- What a new one puts on the stack was pending before. -/
theorem pending_note (hV : ∀ a, a ∉ V → next a = []) (hx : x ∉ seen) :
    pending V next (seen ++ [x]) (next x ++ stack) + 1 ≤ pending V next seen (x :: stack) := by
  have hseen : V \ (seen ++ [x]).toFinset = (V \ seen.toFinset).erase x := by
    ext a
    simp only [Finset.mem_sdiff, List.mem_toFinset, List.mem_append, List.mem_singleton,
      Finset.mem_erase]
    rw [not_or]
    exact ⟨fun ⟨hV, hs, hne⟩ => ⟨hne, hV, hs⟩, fun ⟨hne, hV, hs⟩ => ⟨hV, hs, hne⟩⟩
  have hsum : (next x).length + ∑ a ∈ (V \ seen.toFinset).erase x, (next a).length ≤
      ∑ a ∈ V \ seen.toFinset, (next a).length := by
    by_cases hxV : x ∈ V
    · have hmem : x ∈ V \ seen.toFinset :=
        Finset.mem_sdiff.mpr ⟨hxV, fun hs => hx (List.mem_toFinset.mp hs)⟩
      exact (Finset.add_sum_erase _ (fun a => (next a).length) hmem).le
    · rw [hV x hxV, List.length_nil, Nat.zero_add]
      exact Finset.sum_le_sum_of_subset (Finset.erase_subset x _)
  unfold pending
  rw [hseen, List.length_append, List.length_cons]
  omega

/-- With a pop for each that is pending, the stack is empty at the end. -/
theorem visit_spec (hV : ∀ a, a ∉ V → next a = []) {n : ℕ}
    (h : Visiting next start seen stack) (hn : pending V next seen stack ≤ n) :
    Visiting next start (visit next n seen stack) [] := by
  induction n generalizing seen stack with
  | zero =>
    have hnil : stack = [] := by
      rw [← List.length_eq_zero_iff]
      unfold pending at hn
      omega
    rw [visit]
    exact hnil ▸ h
  | succ n ih =>
    rcases stack with _ | ⟨x, stack⟩
    · exact h
    · rw [visit]
      split_ifs with hx
      · refine ih (h.drop hx) ?_
        unfold pending at hn ⊢
        rw [List.length_cons] at hn
        omega
      · have hnote : pending V next (seen ++ [x]) (next x ++ stack) + 1 ≤
            pending V next seen (x :: stack) := pending_note hV hx
        exact ih (h.note hx) (by omega)

/-- What is noted is what the start leads to. -/
theorem mem_visit_iff (hV : ∀ a, a ∉ V → next a = []) {n : ℕ} (hn : pending V next [] start ≤ n) :
    x ∈ visit next n [] start ↔ ∃ s ∈ start, ReflTransGen (fun a b => b ∈ next a) s x := by
  have h := visit_spec hV (visiting_nil start) hn
  have hend : ∀ y, y ∈ visit next n [] start ∨ y ∈ [] → y ∈ visit next n [] start := by
    rintro y (hy | hy)
    · exact hy
    · exact absurd hy List.not_mem_nil
  refine ⟨fun hx => h.reached x (.inl hx), ?_⟩
  rintro ⟨s, hs, hreach⟩
  induction hreach with
  | refl => exact hend s (h.started s hs)
  | tail _ hy ih => exact hend _ (h.closed _ ih _ hy)

end Haute.Data
