import Haute.Data.Assoc

/-!
# Choices narrowed until nothing fails

A *choice* is a finite set of items. Whether an item may stay is asked of the choice as it
is: `Keeps S x` says that it may, `Fails S x` that it may not, and neither need hold where
the question has no answer. What makes the narrowing confluent is one hypothesis, that an
item which may stay in a smaller choice never fails in a larger one; nothing is asked of the
order of the items.

Every narrowing then keeps every consistent choice inside it, so one that can narrow no
further, if each of its items has an answer, is the greatest consistent choice, whatever was
taken out on the way and in whichever order.

`matchesM` is the question put to several parts at once: all of them, any, or at least a
number, each part asked only while the answer is open. `Rearranged R` relates two lists by
a change of their entries and a change of their order.
-/

namespace Haute.Data

/-! ### Narrowing -/

section Narrowing

variable {ι : Type*} {Keeps Fails : Finset ι → ι → Prop} {S S' T : Finset ι}

/-- Each item may stay. -/
def Consistent (Keeps : Finset ι → ι → Prop) (S : Finset ι) : Prop := ∀ x ∈ S, Keeps S x

/-- One step: some items are taken out, each failing in the choice as it was. -/
def Narrows (Fails : Finset ι → ι → Prop) (S S' : Finset ι) : Prop :=
  S' ⊂ S ∧ ∀ x ∈ S, x ∉ S' → Fails S x

/-- Nothing fails any more. -/
def Settled (Fails : Finset ι → ι → Prop) (S : Finset ι) : Prop := ∀ S', ¬ Narrows Fails S S'

/-- Taking out everything that fails is a step, unless nothing does. -/
theorem narrows_filter {Fails : Finset ι → ι → Prop} {S : Finset ι}
    [DecidablePred fun x => Fails S x]
    (h : ∃ x ∈ S, Fails S x) : Narrows Fails S (S.filter fun x => ¬ Fails S x) := by
  obtain ⟨x, hx, hfails⟩ := h
  refine ⟨Finset.filter_ssubset.mpr ⟨x, hx, not_not.mpr hfails⟩, fun y hy hout => ?_⟩
  by_contra hkept
  exact hout (Finset.mem_filter.mpr ⟨hy, hkept⟩)

theorem settled_iff : Settled Fails S ↔ ∀ x ∈ S, ¬ Fails S x := by
  classical
  constructor
  · intro hsettled x hx hfails
    exact hsettled _ (narrows_filter ⟨x, hx, hfails⟩)
  · rintro hnone S' ⟨hsub, hfails⟩
    obtain ⟨x, hx, hout⟩ := Finset.exists_of_ssubset hsub
    exact hnone x hx (hfails x hx hout)

/-- There is no endless narrowing. -/
theorem wellFounded_narrows (Fails : Finset ι → ι → Prop) :
    WellFounded fun S' S => Narrows Fails S S' :=
  Subrelation.wf (fun h => Finset.card_lt_card h.1) (measure Finset.card).wf

/-- A run only takes items out. -/
theorem subset_of_run (hrun : Relation.ReflTransGen (Narrows Fails) S S') : S' ⊆ S := by
  induction hrun with
  | refl => exact subset_rfl
  | tail _ hstep ih => exact hstep.1.subset.trans ih

/-- Every choice can be narrowed until nothing fails. -/
theorem exists_settled (Fails : Finset ι → ι → Prop) (S : Finset ι) :
    ∃ S', Relation.ReflTransGen (Narrows Fails) S S' ∧ Settled Fails S' := by
  induction S using (wellFounded_narrows Fails).induction with
  | _ S ih =>
    by_cases hsettled : Settled Fails S
    · exact ⟨S, .refl, hsettled⟩
    · simp only [Settled, not_forall, not_not] at hsettled
      obtain ⟨next, hstep⟩ := hsettled
      obtain ⟨S', hrun, hS'⟩ := ih next hstep
      exact ⟨S', hrun.head hstep, hS'⟩

variable (hanti : ∀ (T S : Finset ι) (x : ι), T ⊆ S → Keeps T x → ¬ Fails S x)

include hanti

/-- The step lemma: a consistent choice inside survives. -/
theorem Consistent.subset_of_narrows (hT : Consistent Keeps T) (hsub : T ⊆ S)
    (hstep : Narrows Fails S S') : T ⊆ S' := by
  intro x hx
  by_contra hout
  exact hanti T S x hsub (hT x hx) (hstep.2 x (hsub hx) hout)

/-- The run lemma. -/
theorem Consistent.subset_of_run (hT : Consistent Keeps T) (hsub : T ⊆ S)
    (hrun : Relation.ReflTransGen (Narrows Fails) S S') : T ⊆ S' := by
  induction hrun with
  | refl => exact hsub
  | tail _ hstep ih => exact hT.subset_of_narrows hanti ih hstep

/-- A run that ends in a consistent choice ends in the greatest one. -/
theorem isGreatest_of_run (hrun : Relation.ReflTransGen (Narrows Fails) S S')
    (hS' : Consistent Keeps S') :
    IsGreatest {T | T ⊆ S ∧ Consistent Keeps T} S' := by
  exact ⟨⟨Haute.Data.subset_of_run hrun, hS'⟩, fun T hT => hT.2.subset_of_run hanti hT.1 hrun⟩

end Narrowing

/-! ### Lists in another order -/

section Rearranged

variable {α β γ : Type*} {R : α → β → Prop} {xs : List α} {ys : List β}

/-- The entries of `ys` are those of `xs`, each changed by `R`, in some order. -/
def Rearranged (R : α → β → Prop) (xs : List α) (ys : List β) : Prop :=
  ∃ zs, List.Forall₂ R xs zs ∧ zs.Perm ys

namespace Rearranged

theorem of_perm {xs ys : List α} {R : α → α → Prop} (hrefl : ∀ x, R x x) (h : xs.Perm ys) :
    Rearranged R xs ys :=
  ⟨xs, List.forall₂_same.mpr fun x _ => hrefl x, h⟩

theorem refl {xs : List α} {R : α → α → Prop} (hrefl : ∀ x, R x x) : Rearranged R xs xs :=
  of_perm hrefl (.refl xs)

theorem exists_right (h : Rearranged R xs ys) {x : α} (hx : x ∈ xs) : ∃ y ∈ ys, R x y := by
  obtain ⟨zs, hzs, hperm⟩ := h
  obtain ⟨y, hy, hxy⟩ := hzs.exists_of_mem_left hx
  exact ⟨y, hperm.subset hy, hxy⟩

theorem exists_left (h : Rearranged R xs ys) {y : β} (hy : y ∈ ys) : ∃ x ∈ xs, R x y := by
  obtain ⟨zs, hzs, hperm⟩ := h
  exact hzs.exists_of_mem_right (hperm.symm.subset hy)

/-- The entries can be changed back. -/
theorem symm {S : β → α → Prop} (h : Rearranged R xs ys) (hswap : ∀ {x y}, R x y → S y x) :
    Rearranged S ys xs := by
  obtain ⟨zs, hzs, hperm⟩ := h
  have hback : List.Forall₂ S zs xs := hzs.flip.imp fun _ _ hxy => hswap hxy
  obtain ⟨ws, hws, hwsperm⟩ := List.perm_comp_forall₂ hperm.symm hback
  exact ⟨ws, hws, hwsperm⟩

/-- One entry can be changed alone. -/
theorem exists_of_mem {xs : List α} {R : α → α → Prop} (hrefl : ∀ x, R x x) {x y : α} (hx : x ∈ xs)
    (hxy : R x y) : ∃ ys, Rearranged R xs ys ∧ y ∈ ys := by
  obtain ⟨before, after, rfl⟩ := List.append_of_mem hx
  refine ⟨before ++ y :: after, ⟨_, ?_, .refl _⟩, by simp⟩
  exact List.rel_append (List.forall₂_same.mpr fun x _ => hrefl x)
    (.cons hxy (List.forall₂_same.mpr fun x _ => hrefl x))

/-- What each entry gives, in another order. -/
theorem flatMap_perm {f : α → List γ} {g : β → List γ} (h : Rearranged R xs ys)
    (hfg : ∀ {x y}, R x y → (f x).Perm (g y)) : (xs.flatMap f).Perm (ys.flatMap g) := by
  obtain ⟨zs, hzs, hperm⟩ := h
  refine List.Perm.trans ?_ (hperm.flatMap_right g)
  clear hperm
  induction hzs with
  | nil => exact .refl _
  | cons hxy _ ih =>
    rw [List.flatMap_cons, List.flatMap_cons]
    exact (hfg hxy).append ih

theorem map_perm {f : α → γ} {g : β → γ} (h : Rearranged R xs ys)
    (hfg : ∀ {x y}, R x y → f x = g y) :
    (xs.map f).Perm (ys.map g) := by
  rw [List.map_eq_flatMap, List.map_eq_flatMap]
  exact h.flatMap_perm fun hxy => by rw [hfg hxy]

/-- Counting goes up with the entries. -/
theorem countP_le {p : α → Bool} {q : β → Bool} (h : Rearranged R xs ys)
    (hpq : ∀ {x y}, x ∈ xs → y ∈ ys → R x y → p x = true → q y = true) :
    xs.countP p ≤ ys.countP q := by
  obtain ⟨zs, hzs, hperm⟩ := h
  rw [← hperm.countP_eq q]
  replace hpq : ∀ {x y}, x ∈ xs → y ∈ zs → R x y → p x = true → q y = true :=
    fun hx hy => hpq hx (hperm.subset hy)
  clear hperm
  induction hzs with
  | nil => simp
  | @cons a b as bs hab _ ih =>
    rw [List.countP_cons, List.countP_cons]
    refine Nat.add_le_add
      (ih fun hx hy => hpq (List.mem_cons_of_mem a hx) (List.mem_cons_of_mem b hy)) ?_
    by_cases hp : p a = true
    · simp [hp, hpq List.mem_cons_self List.mem_cons_self hab hp]
    · simp [hp]

end Rearranged

end Rearranged

/-! ### Asking several parts -/

/-- How many parts must hold. -/
inductive Match where
  | all
  | any
  | atLeast (n : ℕ)
  deriving DecidableEq

section Matches

variable {ε α β : Type} {f : α → Except ε Bool} {g : β → Except ε Bool} {xs : List α} {ys : List β}

/-- Answered, and yes. -/
def passed : Except ε Bool → Bool
  | .ok b => b
  | .error _ => false

@[simp] theorem passed_ok (b : Bool) : passed (.ok b : Except ε Bool) = b := rfl

theorem passed_eq_true_iff {x : Except ε Bool} : passed x = true ↔ x = .ok true := by
  cases x <;> simp [passed]

/-- The parts that pass, every one of them asked: the first error ends it. -/
def selectM (f : α → Except ε Bool) : List α → Except ε (List α)
  | [] => .ok []
  | x :: xs => do
    let passes ← f x
    let rest ← selectM f xs
    return if passes then x :: rest else rest

/-- Whether all of the parts hold, any, or at least a number: `all` and `any` ask no further
once the answer is known. -/
def matchesM (f : α → Except ε Bool) : Match → List α → Except ε Bool
  | .all, xs => xs.allM f
  | .any, xs => xs.anyM f
  | .atLeast n, xs => return decide (n ≤ (← selectM f xs).length)

theorem selectM_eq_ok_iff {zs : List α} :
    selectM f xs = .ok zs ↔
      (∀ x ∈ xs, ∃ b, f x = .ok b) ∧ zs = xs.filter fun x => passed (f x) := by
  induction xs generalizing zs with
  | nil => simp [selectM, eq_comm]
  | cons x xs ih =>
    rw [selectM]
    cases hx : f x with
    | error e => simp [hx, bind, Except.bind]
    | ok b =>
      cases hrest : selectM f xs with
      | error e =>
        have hnot : ¬ ∀ y ∈ xs, ∃ b, f y = .ok b := fun hall => by
          have := ih.mpr ⟨hall, rfl⟩
          rw [hrest] at this
          cases this
        simp only [bind, Except.bind, List.mem_cons, forall_eq_or_imp, reduceCtorEq, false_iff]
        exact fun h => hnot h.1.2
      | ok rest =>
        obtain ⟨hall, rfl⟩ := ih.mp hrest
        have hcons : ∀ y ∈ x :: xs, ∃ b, f y = .ok b := List.forall_mem_cons.mpr ⟨⟨b, hx⟩, hall⟩
        simp only [bind, Except.bind, pure, Except.pure, Except.ok.injEq]
        rw [List.filter_cons, hx, passed_ok]
        exact ⟨fun h => ⟨hcons, h.symm⟩, fun h => h.2.symm⟩

theorem allM_eq_true_iff : xs.allM f = .ok true ↔ ∀ x ∈ xs, f x = .ok true := by
  induction xs with
  | nil => simp [List.allM, pure, Except.pure]
  | cons x xs ih =>
    rw [List.allM]
    cases hx : f x with
    | error e => simp [hx, bind, Except.bind]
    | ok b => cases b <;> simp [hx, bind, Except.bind, pure, Except.pure, ih]

theorem exists_of_allM_eq_false (h : xs.allM f = .ok false) : ∃ x ∈ xs, f x = .ok false := by
  induction xs with
  | nil => simp [List.allM, pure, Except.pure] at h
  | cons x xs ih =>
    rw [List.allM] at h
    cases hx : f x with
    | error e => simp [hx, bind, Except.bind] at h
    | ok b =>
      cases b with
      | false => exact ⟨x, List.mem_cons_self, hx⟩
      | true =>
        simp only [hx, bind, Except.bind] at h
        obtain ⟨y, hy, hfalse⟩ := ih h
        exact ⟨y, List.mem_cons_of_mem x hy, hfalse⟩

theorem anyM_eq_false_iff : xs.anyM f = .ok false ↔ ∀ x ∈ xs, f x = .ok false := by
  induction xs with
  | nil => simp [List.anyM, pure, Except.pure]
  | cons x xs ih =>
    rw [List.anyM]
    cases hx : f x with
    | error e => simp [hx, bind, Except.bind]
    | ok b => cases b <;> simp [hx, bind, Except.bind, pure, Except.pure, ih]

theorem exists_of_anyM_eq_true (h : xs.anyM f = .ok true) : ∃ x ∈ xs, f x = .ok true := by
  induction xs with
  | nil => simp [List.anyM, pure, Except.pure] at h
  | cons x xs ih =>
    rw [List.anyM] at h
    cases hx : f x with
    | error e => simp [hx, bind, Except.bind] at h
    | ok b =>
      cases b with
      | true => exact ⟨x, List.mem_cons_self, hx⟩
      | false =>
        simp only [hx, bind, Except.bind] at h
        obtain ⟨y, hy, htrue⟩ := ih h
        exact ⟨y, List.mem_cons_of_mem x hy, htrue⟩

/-- Parts that can each be asked can be asked together. -/
theorem matchesM_ok (m : Match) (h : ∀ x ∈ xs, ∃ b, f x = .ok b) :
    ∃ b, matchesM f m xs = .ok b := by
  cases m with
  | all =>
    rw [matchesM]
    induction xs with
    | nil => exact ⟨true, rfl⟩
    | cons x xs ih =>
      obtain ⟨b, hb⟩ := h x List.mem_cons_self
      obtain ⟨c, hc⟩ := ih fun y hy => h y (List.mem_cons_of_mem x hy)
      cases b
      · exact ⟨false, by simp [List.allM, hb, bind, Except.bind, pure, Except.pure]⟩
      · exact ⟨c, by simp [List.allM, hb, hc, bind, Except.bind]⟩
  | any =>
    rw [matchesM]
    induction xs with
    | nil => exact ⟨false, rfl⟩
    | cons x xs ih =>
      obtain ⟨b, hb⟩ := h x List.mem_cons_self
      obtain ⟨c, hc⟩ := ih fun y hy => h y (List.mem_cons_of_mem x hy)
      cases b
      · exact ⟨c, by simp [List.anyM, hb, hc, bind, Except.bind]⟩
      · exact ⟨true, by simp [List.anyM, hb, bind, Except.bind, pure, Except.pure]⟩
  | atLeast n =>
    exact ⟨_, by rw [matchesM, selectM_eq_ok_iff.mpr ⟨h, rfl⟩]; rfl⟩

/-- A first part that cannot be asked is an error, whatever the others. -/
theorem matchesM_error_of_head (m : Match) {x : α} {e : ε} (h : f x = .error e) :
    matchesM f m (x :: xs) = .error e := by
  cases m <;> simp [matchesM, List.allM, List.anyM, selectM, h, bind, Except.bind]

/-- Rearranged parts never answer against each other: where the ones do not hold, the others
do not either, if that is so part by part. -/
theorem matchesM_anti {R : α → β → Prop} (m : Match) (hxy : Rearranged R xs ys)
    (hpart : ∀ {x y}, x ∈ xs → y ∈ ys → R x y → f x = .ok false → g y ≠ .ok true)
    (h : matchesM f m xs = .ok false) : matchesM g m ys ≠ .ok true := by
  intro htrue
  cases m with
  | all =>
    obtain ⟨x, hx, hfalse⟩ := exists_of_allM_eq_false h
    obtain ⟨y, hy, hR⟩ := hxy.exists_right hx
    exact hpart hx hy hR hfalse (allM_eq_true_iff.mp htrue y hy)
  | any =>
    obtain ⟨y, hy, hok⟩ := exists_of_anyM_eq_true htrue
    obtain ⟨x, hx, hR⟩ := hxy.exists_left hy
    exact hpart hx hy hR (anyM_eq_false_iff.mp h x hx) hok
  | atLeast n =>
    simp only [matchesM, bind, Except.bind] at h htrue
    cases hxs : selectM f xs with
    | error e => simp [hxs] at h
    | ok fs =>
      cases hys : selectM g ys with
      | error e => simp [hys] at htrue
      | ok gs =>
        obtain ⟨hfok, rfl⟩ := selectM_eq_ok_iff.mp hxs
        obtain ⟨_, rfl⟩ := selectM_eq_ok_iff.mp hys
        simp only [hxs, hys, pure, Except.pure, Except.ok.injEq, decide_eq_true_eq,
          decide_eq_false_iff_not, ← List.countP_eq_length_filter] at h htrue
        refine h (htrue.trans ?_)
        refine Rearranged.countP_le (hxy.symm fun {x y} hR => (show flip R y x from hR)) ?_
        intro y x hy hx hR hok
        obtain ⟨b, hb⟩ := hfok x hx
        cases b with
        | false => exact absurd (passed_eq_true_iff.mp hok) (hpart hx hy hR hb)
        | true => exact passed_eq_true_iff.mpr hb

end Matches

end Haute.Data
