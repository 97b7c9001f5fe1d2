import Mathlib.Algebra.BigOperators.Group.Finset.Basic
import Mathlib.Data.Fintype.Card
import Mathlib.Data.Fintype.EquivFin
import Mathlib.Data.List.Sort
import Mathlib.Logic.Relation
import Mathlib.Order.WellFounded
import Mathlib.Tactic.Abel

/-!
# Orders in which nothing comes before what it waits for

`R a b` says that `b` waits for `a`. A topological order of a finite `V` lists it once with
every `a` before the `b` that wait for it (`IsTopological`). A list is built greedily when each
entry is the least of those that wait for nothing more (`Steps`, `Open`): of all topological
orders that one is the lexically smallest (`eq_or_lex_of_steps_leastOpen`).

What no order can place is what lies on a cycle or downstream of one: on a finite relation that
is what is not accessible (`acc_iff_not_downstream`).
-/

namespace Haute.Data

variable {ι : Type}

/-! ### Cycles -/

/-- On a cycle, or downstream of one. -/
def Downstream (R : ι → ι → Prop) (x : ι) : Prop :=
  ∃ c, Relation.TransGen R c c ∧ Relation.ReflTransGen R c x

variable {R : ι → ι → Prop}

theorem not_transGen_of_acc {x : ι} (h : Acc R x) : ¬ Relation.TransGen R x x := by
  have ht := Acc.transGen h
  induction ht with
  | intro x _ ih => exact fun hc => ih x hc (h.inv_of_transGen hc) hc

theorem acc_of_reflTransGen {c x : ι} (h : Acc R x) (hc : Relation.ReflTransGen R c x) :
    Acc R c := by
  induction hc using Relation.ReflTransGen.head_induction_on with
  | refl => exact h
  | head hac _ ih => exact ih.inv hac

theorem not_downstream_of_acc {x : ι} (h : Acc R x) : ¬ Downstream R x := by
  rintro ⟨c, hcycle, hreach⟩
  exact not_transGen_of_acc (acc_of_reflTransGen h hreach) hcycle

/-- On a finite relation, what is not accessible is on a cycle or downstream of one: without a
cycle upstream, waiting is a strict order on the finitely many that are upstream. -/
theorem acc_of_not_downstream {V : Finset ι} (hR : ∀ a b, R a b → a ∈ V) {x : ι} (hx : x ∈ V)
    (h : ¬ Downstream R x) : Acc R x := by
  let upstream : Type := {y : ι // y ∈ V ∧ Relation.ReflTransGen R y x}
  let before : upstream → upstream → Prop := fun y z => Relation.TransGen R y.1 z.1
  have hfinite : Finite upstream :=
    Finite.of_injective (fun y : upstream => (⟨y.1, y.2.1⟩ : V)) fun y z e =>
      Subtype.ext (congrArg (fun v : V => v.1) e)
  have htrans : IsTrans upstream before := ⟨fun _ _ _ => Relation.TransGen.trans⟩
  have hirrefl : Std.Irrefl before := ⟨fun y hy => h ⟨y.1, hy, y.2.2⟩⟩
  have hwf : WellFounded before := Finite.wellFounded_of_trans_of_irrefl before
  have hacc : ∀ y : upstream, Acc R y.1 := by
    intro y
    induction y using hwf.induction with
    | _ y ih =>
      refine Acc.intro _ fun a ha => ?_
      exact ih ⟨a, hR a y.1 ha, y.2.2.head ha⟩ (Relation.TransGen.single ha)
  exact hacc ⟨x, hx, Relation.ReflTransGen.refl⟩

theorem acc_iff_not_downstream {V : Finset ι} (hR : ∀ a b, R a b → a ∈ V) {x : ι} (hx : x ∈ V) :
    Acc R x ↔ ¬ Downstream R x :=
  ⟨not_downstream_of_acc, acc_of_not_downstream hR hx⟩

/-! ### Topological orders -/

/-- `P` of every entry, given the ones before it, those of `done` among them. -/
def Steps (P : List ι → ι → Prop) : List ι → List ι → Prop
  | _, [] => True
  | done, x :: rest => P done x ∧ Steps P (done ++ [x]) rest

theorem Steps.imp {P Q : List ι → ι → Prop} (hPQ : ∀ done x, P done x → Q done x)
    {done rest : List ι} (h : Steps P done rest) : Steps Q done rest := by
  induction rest generalizing done with
  | nil => trivial
  | cons x rest ih => exact ⟨hPQ _ _ h.1, ih h.2⟩

/-- `x` is in `V`, not yet placed, and all that it waits for is. -/
def Open (R : ι → ι → Prop) (V : Finset ι) (done : List ι) (x : ι) : Prop :=
  x ∈ V ∧ x ∉ done ∧ ∀ a, R a x → a ∈ done

/-- `V` listed once each, all before what waits for it. -/
structure IsTopological [BEq ι] (R : ι → ι → Prop) (V : Finset ι) (order : List ι) : Prop where
  nodup : order.Nodup
  mem_iff : ∀ x, x ∈ order ↔ x ∈ V
  before : ∀ a b, R a b → order.idxOf a < order.idxOf b

variable {V : Finset ι}

theorem Steps.nodup {done rest : List ι} (h : Steps (Open R V) done rest) (hd : done.Nodup) :
    (done ++ rest).Nodup := by
  induction rest generalizing done with
  | nil => rwa [List.append_nil]
  | cons x rest ih =>
    have hnodup := ih h.2 (List.nodup_append.mpr ⟨hd, by simp, by
      rintro a ha b hb rfl
      rw [List.mem_singleton] at hb
      exact h.1.2.1 (hb ▸ ha)⟩)
    rwa [List.append_assoc, List.singleton_append] at hnodup

theorem Steps.mem {done rest : List ι} (h : Steps (Open R V) done rest) {x : ι} (hx : x ∈ rest) :
    x ∈ V := by
  induction rest generalizing done with
  | nil => cases hx
  | cons y rest ih =>
    rcases List.mem_cons.mp hx with rfl | hx
    · exact h.1.1
    · exact ih h.2 hx

/-- What is placed when it waits for nothing more is accessible. -/
theorem Steps.acc {done rest : List ι} (h : Steps (Open R V) done rest) (hd : ∀ x ∈ done, Acc R x)
    {x : ι} (hx : x ∈ rest) : Acc R x := by
  induction rest generalizing done with
  | nil => cases hx
  | cons y rest ih =>
    have hy : Acc R y := Acc.intro y fun a ha => hd a (h.1.2.2 a ha)
    rcases List.mem_cons.mp hx with rfl | hx
    · exact hy
    · refine ih h.2 (fun z hz => ?_) hx
      rcases List.mem_append.mp hz with hz | hz
      · exact hd z hz
      · rwa [List.mem_singleton.mp hz]

variable [DecidableEq ι]

theorem idxOf_append_cons {done rest : List ι} {x : ι} (h : x ∉ done) :
    (done ++ x :: rest).idxOf x = done.length := by
  rw [List.idxOf_append_of_notMem h, List.idxOf_cons_self, Nat.add_zero]

theorem steps_of_nodup {done rest : List ι} (hnodup : (done ++ rest).Nodup)
    (hV : ∀ x ∈ rest, x ∈ V)
    (h : ∀ a b, R a b → (done ++ rest).idxOf a < (done ++ rest).idxOf b) :
    Steps (Open R V) done rest := by
  induction rest generalizing done with
  | nil => trivial
  | cons x rest ih =>
    have hx : x ∉ done := fun hm =>
      (List.nodup_append.mp hnodup).2.2 x hm x List.mem_cons_self rfl
    refine ⟨⟨hV x List.mem_cons_self, hx, fun a ha => ?_⟩, ?_⟩
    · have hlt := h a x ha
      rw [idxOf_append_cons hx] at hlt
      by_contra hna
      rw [List.idxOf_append_of_notMem hna] at hlt
      omega
    · refine ih ?_ (fun y hy => hV y (List.mem_cons_of_mem x hy)) ?_
      · rwa [List.append_assoc, List.singleton_append]
      · rwa [List.append_assoc, List.singleton_append]

/-- Each entry of a topological order waits for nothing more when its turn comes. -/
theorem IsTopological.steps {order : List ι} (h : IsTopological R V order) :
    Steps (Open R V) [] order :=
  steps_of_nodup (by simpa using h.nodup) (fun x hx => (h.mem_iff x).mp hx)
    (by simpa using h.before)

theorem Steps.before {done rest : List ι} (h : Steps (Open R V) done rest) {a b : ι}
    (hb : b ∈ rest) (hR : R a b) : (done ++ rest).idxOf a < (done ++ rest).idxOf b := by
  induction rest generalizing done with
  | nil => cases hb
  | cons x rest ih =>
    rcases List.mem_cons.mp hb with rfl | hb
    · have ha := h.1.2.2 a hR
      rw [idxOf_append_cons h.1.2.1, List.idxOf_append_of_mem ha]
      exact List.idxOf_lt_length_of_mem ha
    · have hlt := ih h.2 hb
      rwa [List.append_assoc, List.singleton_append] at hlt

/-- A list whose entries wait for nothing more in their turn, and that leaves none out, is a
topological order. -/
theorem isTopological_of_steps {order : List ι} (h : Steps (Open R V) [] order)
    (hall : ∀ x ∈ V, x ∈ order) (hR : ∀ a b, R a b → b ∈ V) : IsTopological R V order where
  nodup := by simpa using h.nodup List.nodup_nil
  mem_iff x := ⟨h.mem, hall x⟩
  before a b hab := by simpa using h.before (hall b (hR a b hab)) hab

/-! ### The lexically smallest order -/

section Greedy

variable {ι : Type} [LinearOrder ι] {R : ι → ι → Prop} {V : Finset ι}

/-- `x` is the least of those that wait for nothing more. -/
def LeastOpen (R : ι → ι → Prop) (V : Finset ι) (done : List ι) (x : ι) : Prop :=
  Open R V done x ∧ ∀ y, Open R V done y → x ≤ y

theorem eq_or_lex_of_greedy {done rest other : List ι} (h : Steps (LeastOpen R V) done rest)
    (hother : Steps (Open R V) done other) (hall : ∀ x ∈ V, x ∈ done ++ other) :
    rest = other ∨ List.Lex (· < ·) rest other := by
  induction rest generalizing done other with
  | nil =>
    rcases other with _ | ⟨y, other⟩
    · exact .inl rfl
    · exact .inr .nil
  | cons x rest ih =>
    rcases other with _ | ⟨y, other⟩
    · exact absurd (by simpa using hall x h.1.1.1) h.1.1.2.1
    · rcases (h.1.2 y hother.1).lt_or_eq with hlt | rfl
      · exact .inr (.rel hlt)
      · rcases ih h.2 hother.2 (fun z hz => by simpa using hall z hz) with rfl | hlex
        · exact .inl rfl
        · exact .inr (.cons hlex)

/-- The order that takes the least each time is the smallest of all topological orders. -/
theorem eq_or_lex_of_steps_leastOpen {order other : List ι} (h : Steps (LeastOpen R V) [] order)
    (hother : IsTopological R V other) : order = other ∨ List.Lex (· < ·) order other :=
  eq_or_lex_of_greedy h hother.steps fun x hx => by simpa using (hother.mem_iff x).mpr hx

end Greedy

end Haute.Data
