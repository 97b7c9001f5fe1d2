import Haute.Data.Kahn

/-!
# The worklist on what keeps its predecessors

`p` keeps its predecessors when nothing outside `p` leads into it. The worklist run on `p` alone
then places what the whole run places of `p`, in the same order (`kahn_filter`): releasing skips
the others without moving the rest (`release_filter`), and what is placed from outside releases
nothing inside. It asks of `put` only that it commutes with leaving elements out.
-/

namespace Haute.Data

variable {ι : Type} [DecidableEq ι] {p : ι → Bool} {V V' : Finset ι} {succ succ' : ι → List ι}
  {degree degree' : ι → ℤ} {ready done : List ι}

/-- Releasing the nodes of `p` counts and releases what the whole release does of them. -/
theorem release_filter (hdegree : ∀ x, p x = true → degree' x = degree x) (cs : List ι) :
    (∀ x, p x = true → (release degree' (cs.filter p)).1 x = (release degree cs).1 x) ∧
      (release degree' (cs.filter p)).2 = (release degree cs).2.filter p := by
  induction cs generalizing degree degree' with
  | nil => exact ⟨hdegree, rfl⟩
  | cons c cs ih =>
    by_cases hc : p c = true
    · have hupdate : ∀ x, p x = true →
          Function.update degree' c (degree c - 1) x =
            Function.update degree c (degree c - 1) x := by
        intro x hx
        by_cases hxc : x = c
        · rw [hxc, Function.update_self, Function.update_self]
        · rw [Function.update_of_ne hxc, Function.update_of_ne hxc, hdegree x hx]
      obtain ⟨hcounts, hreleased⟩ := ih hupdate
      rw [List.filter_cons_of_pos hc]
      simp only [release, Function.update_self, hdegree c hc]
      refine ⟨hcounts, ?_⟩
      split_ifs with hzero
      · rw [List.filter_cons_of_pos hc, hreleased]
      · exact hreleased
    · have hupdate : ∀ x, p x = true →
          degree' x = Function.update degree c (degree c - 1) x := by
        intro x hx
        have hxc : x ≠ c := fun e => hc (e ▸ hx)
        rw [Function.update_of_ne hxc, hdegree x hx]
      obtain ⟨hcounts, hreleased⟩ := ih hupdate
      rw [List.filter_cons_of_neg hc]
      refine ⟨hcounts, ?_⟩
      simp only [release]
      split_ifs with hzero
      · rw [List.filter_cons_of_neg hc, hreleased]
      · exact hreleased

/-- No more nodes are placed than there are. -/
theorem Waiting.length_done_le (h : Waiting V succ degree ready done) : done.length ≤ V.card := by
  have hsub : done.toFinset ⊆ V := fun x hx => by
    rw [List.mem_toFinset] at hx
    exact ((h.started x).mp (List.mem_append_left _ hx)).1
  rw [← List.toFinset_card_of_nodup (List.nodup_append.mp h.nodup).1]
  exact Finset.card_le_card hsub

/-- The run on `p` places what the whole run places of `p`, in the same order. -/
theorem kahn_filter {put : List ι → List ι → List ι}
    (hput : ∀ rest new, (put rest new).Perm (rest ++ new))
    (hfilter : ∀ rest new, (put rest new).filter p = put (rest.filter p) (new.filter p))
    (hnil : ∀ rest, put rest [] = rest)
    (hclosed : ∀ a ∈ V, ∀ b ∈ succ a, b ∈ V) (hclosed' : ∀ a ∈ V', ∀ b ∈ succ' a, b ∈ V')
    (hsucc : ∀ a, p a = true → succ' a = (succ a).filter p)
    (houtside : ∀ a, p a = false → ∀ b ∈ succ a, p b = false) {n m : ℕ}
    (h : Waiting V succ degree ready done)
    (h' : Waiting V' succ' degree' (ready.filter p) (done.filter p))
    (hdegree : ∀ x, p x = true → degree' x = degree x)
    (hn : V.card < n + done.length) (hm : V'.card < m + (done.filter p).length) :
    kahn put succ' m degree' (ready.filter p) (done.filter p) =
      (kahn put succ n degree ready done).filter p := by
  induction n generalizing m degree degree' ready done with
  | zero =>
    have hle := h.length_done_le
    omega
  | succ n ih =>
    have hle := h'.length_done_le
    rcases m with _ | m
    · omega
    rcases ready with _ | ⟨x, rest⟩
    · rfl
    · have hstep := h.step hclosed (hput rest (release degree (succ x)).2)
      rw [kahn]
      by_cases hx : p x = true
      · obtain ⟨hcounts, hreleased⟩ := release_filter hdegree (succ x)
        rw [← hsucc x hx] at hcounts hreleased
        have hready : put (rest.filter p) (release degree' (succ' x)).2 =
            (put rest (release degree (succ x)).2).filter p := by
          rw [hreleased, hfilter]
        have hdone : (done ++ [x]).filter p = done.filter p ++ [x] := by
          rw [List.filter_append, List.filter_cons_of_pos hx, List.filter_nil]
        rw [List.filter_cons_of_pos hx] at h' ⊢
        have hstep' := h'.step hclosed' (hput (rest.filter p) (release degree' (succ' x)).2)
        rw [hready, ← hdone] at hstep'
        rw [kahn, hready, ← hdone]
        refine ih hstep hstep' hcounts ?_ ?_
        · rw [List.length_append, List.length_singleton]
          omega
        · rw [hdone, List.length_append, List.length_singleton]
          omega
      · -- what is placed from outside releases nothing of `p`
        have hnone : (succ x).filter p = [] := by
          refine List.filter_eq_nil_iff.mpr fun b hb hpb => ?_
          rw [houtside x (Bool.not_eq_true _ ▸ hx) b hb] at hpb
          exact Bool.false_ne_true hpb
        obtain ⟨hcounts, hreleased⟩ := release_filter hdegree (succ x)
        rw [hnone] at hcounts hreleased
        have hready : (put rest (release degree (succ x)).2).filter p = rest.filter p := by
          rw [hfilter, ← hreleased, release, hnil]
        have hdone : (done ++ [x]).filter p = done.filter p := by
          rw [List.filter_append, List.filter_cons_of_neg hx, List.filter_nil, List.append_nil]
        rw [List.filter_cons_of_neg hx] at h' ⊢
        rw [← hready, ← hdone] at h' ⊢
        refine ih hstep h' hcounts ?_ ?_
        · rw [List.length_append, List.length_singleton]
          omega
        · rw [hdone]
          exact hm

end Haute.Data
