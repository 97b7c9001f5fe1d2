import Mathlib.Algebra.Order.BigOperators.Group.Finset
import Mathlib.Data.Finset.Basic
import Haute.Data.Topological

/-!
# The worklist that counts what is still missing

Each node has a count of those it waits for, with repetitions. Placing a node takes one off the
count of each that waits for it, and those that come to zero join the worklist (`release`).
`kahn` places the worklist's nodes until there are none. In whatever order the worklist is kept,
it holds the nodes that wait for nothing more (`Waiting.mem_ready_iff`), so the run lists open
nodes one after another (`kahn_steps`) and leaves out none that is accessible
(`mem_kahn_iff_acc`).
-/

namespace Haute.Data

variable {ι : Type} [DecidableEq ι]

/-- One off the count of each of the nodes; the new counts, and who has none left, in turn. -/
def release (degree : ι → ℤ) : List ι → (ι → ℤ) × List ι
  | [] => (degree, [])
  | c :: cs =>
    let degree' := Function.update degree c (degree c - 1)
    let later := release degree' cs
    (later.1, if degree' c = 0 then c :: later.2 else later.2)

/-- Places the first of the worklist until it is empty, `put` putting the released back in. -/
def kahn (put : List ι → List ι → List ι) (succ : ι → List ι) :
    ℕ → (ι → ℤ) → List ι → List ι → List ι
  | 0, _, _, done => done
  | _ + 1, _, [], done => done
  | n + 1, degree, x :: rest, done =>
    kahn put succ n (release degree (succ x)).1 (put rest (release degree (succ x)).2)
      (done ++ [x])

/-! ### Releasing -/

theorem release_degree (degree : ι → ℤ) (cs : List ι) (x : ι) :
    (release degree cs).1 x = degree x - cs.count x := by
  induction cs generalizing degree with
  | nil => simp [release]
  | cons c cs ih =>
    simp only [release]
    rw [ih, List.count_cons]
    by_cases hx : x = c
    · subst hx
      simp only [Function.update_self, beq_self_eq_true, if_true]
      omega
    · rw [Function.update_of_ne hx]
      simp [Ne.symm hx]

theorem count_le_update {degree : ι → ℤ} {c : ι} {cs : List ι}
    (h : ∀ x, ((c :: cs).count x : ℤ) ≤ degree x) (x : ι) :
    (cs.count x : ℤ) ≤ Function.update degree c (degree c - 1) x := by
  have hx := h x
  rw [List.count_cons] at hx
  by_cases he : x = c
  · subst he
    simp only [Function.update_self, beq_self_eq_true, if_true] at hx ⊢
    omega
  · rw [Function.update_of_ne he]
    simpa [Ne.symm he] using hx

/-- The released are those that waited for this one only. -/
theorem mem_release {degree : ι → ℤ} {cs : List ι} (h : ∀ x, (cs.count x : ℤ) ≤ degree x) (x : ι) :
    x ∈ (release degree cs).2 ↔ x ∈ cs ∧ degree x = cs.count x := by
  induction cs generalizing degree with
  | nil => simp [release]
  | cons c cs ih =>
    have ih := ih (count_le_update h)
    have hc := h c
    simp only [List.count_cons, beq_self_eq_true, if_true] at hc
    simp only [release, Function.update_self, List.count_cons]
    by_cases hx : x = c
    · subst hx
      rw [Function.update_self] at ih
      simp only [List.mem_cons, true_or, true_and, beq_self_eq_true, if_true]
      have hpos : x ∈ cs → 0 < cs.count x := List.count_pos_iff.mpr
      split_ifs with hzero
      · simp only [List.mem_cons, true_or, true_iff]
        push_cast at hc ⊢
        omega
      · rw [ih]
        constructor
        · rintro ⟨-, he⟩
          push_cast
          omega
        · intro he
          push_cast at he
          refine ⟨List.count_pos_iff.mp ?_, ?_⟩ <;> omega
    · rw [Function.update_of_ne hx] at ih
      have hcx : (c == x) = false := beq_false_of_ne (Ne.symm hx)
      simp only [List.mem_cons, hx, false_or, hcx, Bool.false_eq_true, if_false, Nat.add_zero]
      split_ifs
      · simp only [List.mem_cons, hx, false_or, ih]
      · exact ih

theorem nodup_release {degree : ι → ℤ} {cs : List ι} (h : ∀ x, (cs.count x : ℤ) ≤ degree x) :
    (release degree cs).2.Nodup := by
  induction cs generalizing degree with
  | nil => exact List.nodup_nil
  | cons c cs ih =>
    have hnodup := ih (count_le_update h)
    simp only [release, Function.update_self]
    split_ifs with hzero
    · refine List.nodup_cons.mpr ⟨fun hm => ?_, hnodup⟩
      obtain ⟨hcs, he⟩ := (mem_release (count_le_update h) c).mp hm
      rw [Function.update_self] at he
      have hpos := List.count_pos_iff.mpr hcs
      omega
    · exact hnodup

/-! ### The worklist -/

/-- `b` waits for `a`: it is one of the successors that the node `a` has. -/
def WaitsFor (V : Finset ι) (succ : ι → List ι) (a b : ι) : Prop := a ∈ V ∧ b ∈ succ a

/-- What holds between two placements. -/
structure Waiting (V : Finset ι) (succ : ι → List ι) (degree : ι → ℤ) (ready done : List ι) :
    Prop where
  degree_eq : ∀ x, degree x = ∑ a ∈ V \ done.toFinset, ((succ a).count x : ℤ)
  nodup : (done ++ ready).Nodup
  started : ∀ x, x ∈ done ++ ready ↔ x ∈ V ∧ degree x = 0

variable {V : Finset ι} {succ : ι → List ι} {degree : ι → ℤ} {ready done : List ι}

theorem Waiting.degree_eq_zero_iff (h : Waiting V succ degree ready done) (x : ι) :
    degree x = 0 ↔ ∀ a, WaitsFor V succ a x → a ∈ done := by
  rw [h.degree_eq, Finset.sum_eq_zero_iff_of_nonneg fun a _ => Int.natCast_nonneg _]
  simp only [Finset.mem_sdiff, List.mem_toFinset, Nat.cast_eq_zero, List.count_eq_zero, WaitsFor]
  constructor
  · rintro hall a ⟨ha, hx⟩
    by_contra hd
    exact hall a ⟨ha, hd⟩ hx
  · rintro hall a ⟨ha, hd⟩ hx
    exact hd (hall a ⟨ha, hx⟩)

/-- The worklist holds the nodes that wait for nothing more. -/
theorem Waiting.mem_ready_iff (h : Waiting V succ degree ready done) (x : ι) :
    x ∈ ready ↔ Open (WaitsFor V succ) V done x := by
  unfold Open
  rw [← h.degree_eq_zero_iff]
  have hstarted := h.started x
  rw [List.mem_append] at hstarted
  constructor
  · intro hx
    have hnd : x ∉ done := fun hd => (List.nodup_append.mp h.nodup).2.2 x hd x hx rfl
    exact ⟨(hstarted.mp (.inr hx)).1, hnd, (hstarted.mp (.inr hx)).2⟩
  · rintro ⟨hV, hnd, hzero⟩
    exact (hstarted.mpr ⟨hV, hzero⟩).resolve_left hnd

/-- Placing a node keeps what holds between placements. -/
theorem Waiting.step {x : ι} {rest ready' : List ι}
    (h : Waiting V succ degree (x :: rest) done) (hclosed : ∀ a ∈ V, ∀ b ∈ succ a, b ∈ V)
    (hput : ready'.Perm (rest ++ (release degree (succ x)).2)) :
    Waiting V succ (release degree (succ x)).1 ready' (done ++ [x]) := by
  have hopen := (h.mem_ready_iff x).mp List.mem_cons_self
  have hx : x ∈ V \ done.toFinset := by
    rw [Finset.mem_sdiff, List.mem_toFinset]
    exact ⟨hopen.1, hopen.2.1⟩
  have hdone : V \ (done ++ [x]).toFinset = (V \ done.toFinset).erase x := by
    ext a
    simp only [Finset.mem_sdiff, List.mem_toFinset, List.mem_append, List.mem_singleton,
      Finset.mem_erase]
    rw [not_or]
    exact ⟨fun ⟨hV, hd, hne⟩ => ⟨hne, hV, hd⟩, fun ⟨hne, hV, hd⟩ => ⟨hV, hd, hne⟩⟩
  have hdegree : ∀ y, (release degree (succ x)).1 y =
      ∑ a ∈ V \ (done ++ [x]).toFinset, ((succ a).count y : ℤ) := by
    intro y
    have hsum := Finset.add_sum_erase (V \ done.toFinset) (fun a => ((succ a).count y : ℤ)) hx
    rw [release_degree, h.degree_eq, hdone]
    omega
  have hnonneg : ∀ y, 0 ≤ (release degree (succ x)).1 y := by
    intro y
    rw [hdegree]
    exact Finset.sum_nonneg fun a _ => Int.natCast_nonneg _
  -- a degree counts the edges still to come, so it cannot fall below zero
  have hcount : ∀ y, ((succ x).count y : ℤ) ≤ degree y := by
    intro y
    have := hnonneg y
    rw [release_degree] at this
    omega
  have hmem := mem_release hcount
  have hold : ∀ y, y ∈ done ++ x :: rest ↔ y ∈ V ∧ degree y = 0 := h.started
  -- what is released had a positive degree before, so it was not ready
  refine ⟨hdegree, ?_, fun y => ?_⟩
  · have hperm : ((done ++ [x]) ++ ready').Perm
        ((done ++ x :: rest) ++ (release degree (succ x)).2) := by
      have := hput.append_left (done ++ [x])
      simpa only [List.append_assoc, List.cons_append, List.nil_append] using this
    rw [hperm.nodup_iff, List.nodup_append]
    refine ⟨h.nodup, nodup_release hcount, ?_⟩
    rintro a ha b hb rfl
    have hzero := ((hold a).mp ha).2
    obtain ⟨hs, he⟩ := (hmem a).mp hb
    have hpos := List.count_pos_iff.mpr hs
    omega
  · rw [List.append_assoc, List.singleton_append, release_degree]
    have hready : y ∈ done ++ x :: ready' ↔
        y ∈ done ++ x :: rest ∨ y ∈ (release degree (succ x)).2 := by
      simp only [List.mem_append, List.mem_cons, hput.mem_iff]
      constructor
      · rintro (hd | rfl | hr | hn)
        · exact .inl (.inl hd)
        · exact .inl (.inr (.inl rfl))
        · exact .inl (.inr (.inr hr))
        · exact .inr hn
      · rintro ((hd | rfl | hr) | hn)
        · exact .inl hd
        · exact .inr (.inl rfl)
        · exact .inr (.inr (.inl hr))
        · exact .inr (.inr (.inr hn))
    rw [hready, hold, hmem]
    have hc := hcount y
    constructor
    · rintro (⟨hV, hzero⟩ | ⟨hs, he⟩)
      · exact ⟨hV, by omega⟩
      · exact ⟨hclosed x hopen.1 y hs, by omega⟩
    · rintro ⟨hV, hzero⟩
      by_cases hs : y ∈ succ x
      · exact .inr ⟨hs, by omega⟩
      · rw [List.count_eq_zero.mpr hs] at hzero
        exact .inl ⟨hV, by simpa using hzero⟩

/-! ### The whole run -/

/-- A run lists nodes as `P` says, where `P` holds of the first of every worklist that is in the
order `Q` and putting nodes back keeps that order. With a step for each node, the run ends with
an empty worklist. -/
theorem kahn_steps {P : List ι → ι → Prop} {Q : List ι → Prop}
    {put : List ι → List ι → List ι} (hclosed : ∀ a ∈ V, ∀ b ∈ succ a, b ∈ V)
    (hput : ∀ rest new, (put rest new).Perm (rest ++ new))
    (hQ : ∀ x rest new, Q (x :: rest) → Q (put rest new))
    (hP : ∀ done x rest, Q (x :: rest) →
      (∀ y, y ∈ x :: rest ↔ Open (WaitsFor V succ) V done y) → P done x)
    {n : ℕ} (h : Waiting V succ degree ready done) (hready : Q ready)
    (hn : V.card < n + done.length) :
    ∃ rest degree', kahn put succ n degree ready done = done ++ rest ∧ Steps P done rest ∧
      Waiting V succ degree' [] (done ++ rest) := by
  induction n generalizing degree ready done with
  | zero =>
    have hsub : done.toFinset ⊆ V := fun x hx => by
      rw [List.mem_toFinset] at hx
      exact ((h.started x).mp (List.mem_append_left _ hx)).1
    have hcard := Finset.card_le_card hsub
    rw [List.toFinset_card_of_nodup (List.nodup_append.mp h.nodup).1] at hcard
    omega
  | succ n ih =>
    rcases ready with _ | ⟨x, rest⟩
    · exact ⟨[], degree, by rw [kahn, List.append_nil], trivial, by rwa [List.append_nil]⟩
    · have hstep := h.step hclosed (hput rest (release degree (succ x)).2)
      obtain ⟨later, degree', hrun, hsteps, hend⟩ := ih hstep (hQ x rest _ hready) (by
        rw [List.length_append, List.length_singleton]
        omega)
      have hx := hP done x rest hready h.mem_ready_iff
      refine ⟨x :: later, degree', ?_, ⟨hx, hsteps⟩, ?_⟩
      · rw [kahn, hrun, List.append_assoc, List.singleton_append]
      · rwa [List.append_assoc, List.singleton_append] at hend

/-- When the worklist is empty, every accessible node is placed. -/
theorem Waiting.mem_of_acc (h : Waiting V succ degree [] done) {x : ι}
    (hx : Acc (WaitsFor V succ) x) (hV : x ∈ V) : x ∈ done := by
  induction hx with
  | intro x _ ih =>
    by_contra hd
    have hopen : Open (WaitsFor V succ) V done x := ⟨hV, hd, fun a ha => ih a ha ha.1⟩
    exact absurd ((h.mem_ready_iff x).mpr hopen) (List.not_mem_nil)

/-- The nodes that start without waiting for any, and their counts. -/
theorem waiting_nil {nodes : List ι} (hnodup : nodes.Nodup)
    (hdegree : ∀ x, degree x = ∑ a ∈ nodes.toFinset, ((succ a).count x : ℤ))
    (hready : ready.Perm (nodes.filter fun x => decide (degree x = 0))) :
    Waiting nodes.toFinset succ degree ready [] where
  degree_eq x := by rw [hdegree, List.toFinset_nil, Finset.sdiff_empty]
  nodup := by
    rw [List.nil_append, hready.nodup_iff]
    exact hnodup.filter _
  started x := by
    rw [List.nil_append, hready.mem_iff, List.mem_filter, List.mem_toFinset, decide_eq_true_eq]

/-- Whatever order the worklist is kept in, what a run places is what is accessible. -/
theorem mem_kahn_iff_acc {put : List ι → List ι → List ι}
    (hclosed : ∀ a ∈ V, ∀ b ∈ succ a, b ∈ V)
    (hput : ∀ rest new, (put rest new).Perm (rest ++ new)) {n : ℕ}
    (h : Waiting V succ degree ready []) (hn : V.card < n) {x : ι} (hx : x ∈ V) :
    x ∈ kahn put succ n degree ready [] ↔ Acc (WaitsFor V succ) x := by
  obtain ⟨rest, degree', hrun, hsteps, hend⟩ := kahn_steps (P := Open (WaitsFor V succ) V)
    (Q := fun _ => True) hclosed hput (fun _ _ _ _ => trivial)
    (fun done y rest _ hopen => (hopen y).mp List.mem_cons_self) h trivial (by simpa using hn)
  rw [hrun, List.nil_append]
  rw [List.nil_append] at hend
  exact ⟨fun hm => hsteps.acc (by simp) hm, fun hacc => hend.mem_of_acc hacc hx⟩

end Haute.Data
