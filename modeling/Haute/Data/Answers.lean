import Haute.Data.GreatestChoice

/-!
# Answers that may fail

Computations in `Except` that answer, and what their answers are: a bind, a map over a list, and
questions asked in turn while the answer is open. Where a question that may fail agrees, whenever
it answers, with one that cannot, asking several of the one is asking several of the other.
-/

namespace Haute.Data

theorem bind_eq_ok {ε α β : Type} {x : Except ε α} {f : α → Except ε β} {b : β} :
    (x >>= f) = .ok b ↔ ∃ a, x = .ok a ∧ f a = .ok b := by
  cases x with
  | error e => simp [bind, Except.bind]
  | ok a => simp [bind, Except.bind]

theorem forall₂_of_mapM {α β ε : Type} {f : α → Except ε β} {xs : List α} {ys : List β}
    (h : xs.mapM f = .ok ys) : List.Forall₂ (fun x y => f x = .ok y) xs ys := by
  induction xs generalizing ys with
  | nil =>
    cases h
    exact .nil
  | cons x xs ih =>
    simp only [List.mapM_cons, bind, Except.bind] at h
    cases hx : f x with
    | error e => simp [hx] at h
    | ok y =>
      cases hxs : xs.mapM f with
      | error e => simp [hx, hxs] at h
      | ok rest =>
        simp only [hx, hxs, pure, Except.pure, Except.ok.injEq] at h
        subst h
        exact .cons hx (ih hxs)

theorem mapM_of_forall₂ {α β ε : Type} {f : α → Except ε β} {xs : List α} {ys : List β}
    (h : List.Forall₂ (fun x y => f x = .ok y) xs ys) : xs.mapM f = .ok ys := by
  induction h with
  | nil => rfl
  | cons hx _ ih => rw [List.mapM_cons, hx, ih]; rfl

/-- A list is mapped exactly where each of its members is answered. -/
theorem exists_mapM_iff {α β ε : Type} {f : α → Except ε β} {xs : List α} :
    (∃ ys, xs.mapM f = .ok ys) ↔ ∀ x ∈ xs, ∃ y, f x = .ok y := by
  constructor
  · rintro ⟨ys, hys⟩ x hx
    obtain ⟨y, -, hy⟩ := (forall₂_of_mapM hys).exists_of_mem_left hx
    exact ⟨y, hy⟩
  · intro h
    induction xs with
    | nil => exact ⟨[], rfl⟩
    | cons x xs ih =>
      obtain ⟨y, hy⟩ := h x List.mem_cons_self
      obtain ⟨ys, hys⟩ := ih fun x hx => h x (List.mem_cons_of_mem _ hx)
      exact ⟨y :: ys, mapM_of_forall₂ (.cons hy (forall₂_of_mapM hys))⟩

theorem mapM_map {α β γ ε : Type} (f : α → Except ε β) (g : β → γ) (xs : List α) :
    xs.mapM (fun x => (f x).map g) = (xs.mapM f).map (List.map g) := by
  induction xs with
  | nil => rfl
  | cons x xs ih =>
    rw [List.mapM_cons, List.mapM_cons, ih]
    cases f x with
    | error e => rfl
    | ok y => cases xs.mapM f <;> rfl

section Questions

variable {α ε : Type} {f : α → Except ε Bool} {g : α → Bool} {xs : List α} {b : Bool}

theorem any_of_anyM (hfg : ∀ x ∈ xs, ∀ c, f x = .ok c → g x = c) (h : xs.anyM f = .ok b) :
    xs.any g = b := by
  induction xs with
  | nil =>
    cases h
    rfl
  | cons x xs ih =>
    rw [List.anyM] at h
    cases hx : f x with
    | error e => simp [hx, bind, Except.bind] at h
    | ok c =>
      rw [List.any_cons, hfg x List.mem_cons_self c hx]
      cases c with
      | true => simpa [hx, bind, Except.bind, pure, Except.pure] using h
      | false =>
        simp only [hx, bind, Except.bind] at h
        rw [Bool.false_or]
        exact ih (fun y hy => hfg y (List.mem_cons_of_mem x hy)) h

theorem all_of_allM (hfg : ∀ x ∈ xs, ∀ c, f x = .ok c → g x = c) (h : xs.allM f = .ok b) :
    xs.all g = b := by
  induction xs with
  | nil =>
    cases h
    rfl
  | cons x xs ih =>
    rw [List.allM] at h
    cases hx : f x with
    | error e => simp [hx, bind, Except.bind] at h
    | ok c =>
      rw [List.all_cons, hfg x List.mem_cons_self c hx]
      cases c with
      | false => simpa [hx, bind, Except.bind, pure, Except.pure] using h
      | true =>
        simp only [hx, bind, Except.bind] at h
        rw [Bool.true_and]
        exact ih (fun y hy => hfg y (List.mem_cons_of_mem x hy)) h

theorem filter_of_selectM {ys : List α} (hfg : ∀ x ∈ xs, ∀ c, f x = .ok c → g x = c)
    (h : selectM f xs = .ok ys) : xs.filter g = ys := by
  obtain ⟨hasked, rfl⟩ := selectM_eq_ok_iff.mp h
  refine List.filter_congr fun x hx => ?_
  obtain ⟨c, hc⟩ := hasked x hx
  rw [hfg x hx c hc, hc, passed_ok]

/-- Asked in turn until one says no, all of them answer: each that is asked does. -/
theorem exists_allM_iff {Q : α → Prop}
    (hQ : ∀ x ∈ xs, (∃ b, f x = .ok b) ↔ Q x) (hg : ∀ x ∈ xs, ∀ b, f x = .ok b → g x = b) :
    (∃ b, xs.allM f = .ok b) ↔
      ∀ before x after, xs = before ++ x :: after → (∀ y ∈ before, g y = true) → Q x := by
  induction xs with
  | nil => simp [List.allM, pure, Except.pure]
  | cons x xs ih =>
    have ih :=
      ih (fun y hy => hQ y (List.mem_cons_of_mem x hy)) fun y hy => hg y (List.mem_cons_of_mem x hy)
    have hx := hQ x List.mem_cons_self
    rw [List.allM]
    constructor
    · rintro ⟨b, hb⟩ before y after hsplit hbefore
      cases hfx : f x with
      | error e => simp [hfx, bind, Except.bind] at hb
      | ok c =>
        cases before with
        | nil =>
          obtain ⟨rfl, rfl⟩ := List.cons.inj hsplit
          exact hx.mp ⟨c, hfx⟩
        | cons z before =>
          obtain ⟨rfl, hrest⟩ := List.cons.inj hsplit
          have hc : c = true :=
            (hg x List.mem_cons_self c hfx).symm.trans (hbefore x List.mem_cons_self)
          simp only [hfx, hc, bind, Except.bind] at hb
          exact ih.mp ⟨b, hb⟩ before y after hrest fun z hz => hbefore z (List.mem_cons_of_mem x hz)
    · intro hall
      obtain ⟨c, hfx⟩ := hx.mpr (hall [] x xs rfl (by simp))
      cases c with
      | false => exact ⟨false, by simp [hfx, bind, Except.bind, pure, Except.pure]⟩
      | true =>
        have hgx := hg x List.mem_cons_self true hfx
        obtain ⟨b, hb⟩ := ih.mpr fun before y after hrest hbefore =>
          hall (x :: before) y after (by rw [hrest]; rfl) (List.forall_mem_cons.mpr ⟨hgx, hbefore⟩)
        exact ⟨b, by simp [hfx, hb, bind, Except.bind]⟩

end Questions

end Haute.Data
