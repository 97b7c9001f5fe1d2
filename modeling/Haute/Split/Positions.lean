import Haute.Split.Mask

/-!
# Labels by position

Writes at positions, read back: `setAll` writes one label at its positions and nowhere else, and
what `inSourceOrder` writes for the row drawn `k`-th stands at that row's position, so it moves the
labels about and leaves their numbers as they are. A random split's labels then have the numbers
the sizes say (`count_randomMask`), and a dated row's label goes by its date (`labelDates_spec`).
-/

namespace Haute.Split

open Data

variable {V : Type} {engine : Engine V}

/-- Labelling positions keeps the number of rows. -/
theorem length_setAll (labels : List Partition) (positions : List ℕ) (label : Partition) :
    (setAll labels positions label).length = labels.length := by
  unfold setAll
  induction positions generalizing labels with
  | nil => rfl
  | cons i positions ih => rw [List.foldl_cons, ih, List.length_set]

/-- A row has the label if its position is listed, and else the one it had. -/
theorem getElem?_setAll (labels : List Partition) (positions : List ℕ) (label : Partition) (i : ℕ)
    (hi : i < labels.length) :
    (setAll labels positions label)[i]? = if i ∈ positions then some label else labels[i]? := by
  unfold setAll
  induction positions generalizing labels with
  | nil => simp
  | cons j positions ih =>
    rw [List.foldl_cons, ih (labels.set j label) (by simpa using hi), List.getElem?_set]
    by_cases hmem : i ∈ positions
    · simp [hmem]
    · by_cases hij : j = i
      · subst hij
        simp [hi]
      · simp [hmem, hij, Ne.symm hij]

/-! ### Source order -/

theorem length_foldl_set (pairs : List (ℕ × Partition)) (labels : List Partition) :
    (pairs.foldl (fun labels (i, label) => labels.set i label) labels).length = labels.length := by
  induction pairs generalizing labels with
  | nil => rfl
  | cons pair pairs ih => rw [List.foldl_cons, ih, List.length_set]

/-- A row has the label it is paired with. -/
theorem getElem?_foldl_set {pairs : List (ℕ × Partition)} (hnodup : (pairs.map Prod.fst).Nodup)
    {labels : List Partition} {i : ℕ} {label : Partition} (hmem : (i, label) ∈ pairs)
    (hi : i < labels.length) :
    (pairs.foldl (fun labels (i, label) => labels.set i label) labels)[i]? = some label := by
  induction pairs generalizing labels with
  | nil => exact absurd hmem List.not_mem_nil
  | cons pair pairs ih =>
    obtain ⟨hnotin, hnodup⟩ := List.nodup_cons.mp hnodup
    rw [List.foldl_cons]
    rcases List.mem_cons.mp hmem with rfl | hmem
    · -- no later write is at this position
      have hkeep : ∀ (pairs : List (ℕ × Partition)) (labels : List Partition),
          i ∉ pairs.map Prod.fst →
          (pairs.foldl (fun labels (i, label) => labels.set i label) labels)[i]? = labels[i]? := by
        intro pairs
        induction pairs with
        | nil => exact fun _ _ => rfl
        | cons q qs ihq =>
          intro labels hq
          rw [List.map_cons, List.mem_cons, not_or] at hq
          rw [List.foldl_cons, ihq _ hq.2, List.getElem?_set_ne (Ne.symm hq.1)]
      rw [hkeep pairs _ hnotin, List.getElem?_set_self hi]
    · exact ih hnodup hmem (by simpa using hi)

/-- Labels put back in source order are as many. -/
theorem length_inSourceOrder (canonical : List Partition) (order : List ℕ) :
    (inSourceOrder engine canonical order).length = canonical.length := by
  rw [inSourceOrder, length_foldl_set, List.length_map, List.length_range]

/-- The label drawn `k`-th stands at the position that is `k`-th in canonical order. -/
theorem getElem?_inSourceOrder {canonical : List Partition} {order : List ℕ}
    (horder : order.Perm (List.range canonical.length)) {k i : ℕ} (hk : order[k]? = some i) :
    (inSourceOrder engine canonical order)[i]? = canonical[k]? := by
  have hlength : order.length = canonical.length := by rw [horder.length_eq, List.length_range]
  have hkc : k < canonical.length := hlength ▸ (List.getElem?_eq_some_iff.mp hk).1
  have hi : i < canonical.length := List.mem_range.mp (horder.mem_iff.mp (List.mem_of_getElem? hk))
  have hfst : (order.zip canonical).map Prod.fst = order := List.map_fst_zip hlength.le
  rw [List.getElem?_eq_getElem hkc, inSourceOrder]
  have hpair : (order.zip canonical)[k]? = some (i, canonical[k]) :=
    List.getElem?_zip_eq_some.mpr ⟨hk, List.getElem?_eq_getElem hkc⟩
  exact getElem?_foldl_set (hfst.symm ▸ horder.nodup_iff.mpr List.nodup_range)
    (List.mem_of_getElem? hpair) (by simpa using hi)

theorem exists_getElem?_order {order : List ℕ} {n i : ℕ} (horder : order.Perm (List.range n))
    (hi : i < n) :
    ∃ k : ℕ, order[k]? = some i :=
  List.mem_iff_getElem?.mp (horder.mem_iff.mpr (List.mem_range.mpr hi))

/-- Labels put back in source order are rearranged. -/
theorem inSourceOrder_perm {canonical : List Partition} {order : List ℕ}
    (horder : order.Perm (List.range canonical.length)) :
    (inSourceOrder engine canonical order).Perm canonical := by
  let found := inSourceOrder engine canonical order
  have hfound : found.length = canonical.length := length_inSourceOrder _ _
  have hrange : (List.range canonical.length).map (fun i => found[i]?.getD .train) = found := by
    refine List.ext_getElem? fun i => ?_
    rw [List.getElem?_map]
    by_cases hi : i < canonical.length
    · simp [List.getElem?_range hi, List.getElem?_eq_getElem (hfound ▸ hi)]
    · rw [List.getElem?_eq_none (by simpa using hi), List.getElem?_eq_none (by omega)]
      rfl
  have hdrawn : order.map (fun i => found[i]?.getD .train) = canonical := by
    refine List.ext_getElem? fun k => ?_
    rw [List.getElem?_map]
    cases hk : order[k]? with
    | none =>
      have hout : canonical.length ≤ k := by
        have hlength : order.length = canonical.length :=
          by rw [horder.length_eq, List.length_range]
        exact hlength ▸ List.getElem?_eq_none_iff.mp hk
      rw [List.getElem?_eq_none hout]
      rfl
    | some i =>
      have hkc : k < canonical.length := by
        have hlength : order.length = canonical.length :=
          by rw [horder.length_eq, List.length_range]
        exact hlength ▸ (List.getElem?_eq_some_iff.mp hk).1
      rw [Option.map_some, getElem?_inSourceOrder horder hk, List.getElem?_eq_getElem hkc]
      rfl
  have hperm := (horder.map fun i => found[i]?.getD Partition.train).symm
  rw [hrange, hdrawn] at hperm
  exact hperm

/-! ### Random labels -/

/-- Two shares of less than the whole take no more rows than there are. -/
theorem share_add_le {n : ℕ} {p q : ℚ} (hp : 0 ≤ p) (hq : 0 ≤ q) (hsum : p + q < 1) :
    share n p + share n q ≤ n := by
  have hfloor (r : ℚ) (hr : 0 ≤ r) : ((share n r : ℕ) : ℚ) ≤ n * r := by
    have hnn : 0 ≤ ⌊(n : ℚ) * r⌋ := Int.floor_nonneg.mpr (mul_nonneg n.cast_nonneg hr)
    have hcast : ((share n r : ℕ) : ℤ) = ⌊(n : ℚ) * r⌋ := Int.toNat_of_nonneg hnn
    calc ((share n r : ℕ) : ℚ) = ((⌊(n : ℚ) * r⌋ : ℤ) : ℚ) := by rw [← hcast, Int.cast_natCast]
      _ ≤ n * r := Int.floor_le _
  have hle : ((share n p + share n q : ℕ) : ℚ) ≤ n := by
    push_cast
    have hbound : (n : ℚ) * (p + q) ≤ n * 1 := mul_le_mul_of_nonneg_left hsum.le n.cast_nonneg
    linarith [hfloor p hp, hfloor q hq]
  exact_mod_cast hle

/-- The positions drawn, cut into the train, the validation and the holdout rows. -/
theorem cut_positions (indices : List ℕ) {n nHoldout nValidation : ℕ} (hn : indices.length = n)
    (hsum : nValidation + nHoldout ≤ n) :
    indices = indices.take (n - nHoldout - nValidation) ++
      ((indices.take (n - nHoldout)).drop (n - nHoldout - nValidation) ++ indices.drop
        (n - nHoldout)) ∧
    ((indices.take (n - nHoldout)).drop (n - nHoldout - nValidation)).length = nValidation ∧
    (indices.drop (n - nHoldout)).length = nHoldout := by
  refine ⟨?_, ?_, ?_⟩
  · have htake : indices.take (n - nHoldout - nValidation) =
        (indices.take (n - nHoldout)).take (n - nHoldout - nValidation) := by
      rw [List.take_take, Nat.min_eq_left (Nat.sub_le _ _)]
    rw [htake, ← List.append_assoc, List.take_append_drop, List.take_append_drop]
  · rw [List.length_drop, List.length_take]
    omega
  · rw [List.length_drop]
    omega

/-- A random split labels the end of a permutation as holdout and what lies before it as
validation. -/
theorem randomMask_eq {n : ℕ} {seed : ℤ} (hn : (engine.permutation seed n).length = n)
    (validationSize holdoutSize : ℚ) :
    randomMask engine n validationSize holdoutSize seed =
      setAll (setAll (List.replicate n .train)
          ((engine.permutation seed n).drop (n - share n holdoutSize)) .holdout)
        (((engine.permutation seed n).take (n - share n holdoutSize)).drop
          (n - share n holdoutSize - share n validationSize)) .validation := by
  unfold randomMask
  -- an empty slice writes nothing
  have hholdout : ¬ 0 < share n holdoutSize →
      (engine.permutation seed n).drop (n - share n holdoutSize) = [] := fun h =>
    List.drop_of_length_le (by omega)
  have hvalidation : ¬ 0 < share n validationSize → ((engine.permutation seed n).take
      (n - share n holdoutSize)).drop (n - share n holdoutSize - share n validationSize) =
        [] := fun h =>
    List.drop_of_length_le (by rw [List.length_take]; omega)
  dsimp only
  split_ifs with hv hh hh
  · rfl
  · rw [hholdout hh]
    rfl
  · rw [hvalidation hv]
    rfl
  · rw [hholdout hh, hvalidation hv]
    rfl

/-- A random split labels every row. -/
theorem length_randomMask (engine : Engine V) (n : ℕ) (validationSize holdoutSize : ℚ) (seed : ℤ) :
    (randomMask engine n validationSize holdoutSize seed).length = n := by
  unfold randomMask
  dsimp only
  split_ifs <;> simp [length_setAll]

theorem map_eq_replicate {α : Type} {f : ℕ → α} {xs : List ℕ} {y : α} (h : ∀ x ∈ xs, f x = y) :
    xs.map f = List.replicate xs.length y := by
  rw [List.map_congr_left h, List.map_const']

/-- **How many rows of each label a random split draws.** -/
theorem randomMask_perm {n : ℕ} {seed : ℤ} (hperm : (engine.permutation seed n).Perm (List.range n))
    {validationSize holdoutSize : ℚ} (hv : 0 ≤ validationSize) (hh : 0 ≤ holdoutSize)
    (hsum : validationSize + holdoutSize < 1) :
    (randomMask engine n validationSize holdoutSize seed).Perm
      (List.replicate (n - share n holdoutSize - share n validationSize) .train ++
        (List.replicate (share n validationSize) .validation ++
          List.replicate (share n holdoutSize) .holdout)) := by
  have hn : (engine.permutation seed n).length = n := by rw [hperm.length_eq, List.length_range]
  rw [randomMask_eq hn]
  obtain ⟨hcut, hval, hhold⟩ :=
    cut_positions (engine.permutation seed n) hn (share_add_le hv hh hsum)
  generalize hA : (engine.permutation seed n).take
    (n - share n holdoutSize - share n validationSize) = first at hcut
  generalize hB : ((engine.permutation seed n).take (n - share n holdoutSize)).drop
    (n - share n holdoutSize - share n validationSize) = middle at hcut hval ⊢
  generalize hC : (engine.permutation seed n).drop (n - share n holdoutSize) = final at hcut hhold ⊢
  have hfirst : first.length = n - share n holdoutSize - share n validationSize := by
    rw [← hA, List.length_take]
    omega
  have hnodup : (first ++ (middle ++ final)).Nodup := hcut ▸ hperm.nodup_iff.mpr List.nodup_range
  have hmem : ∀ i ∈ first ++ (middle ++ final), i < n := fun i hi =>
    List.mem_range.mp (hperm.mem_iff.mp (hcut ▸ hi))
  set labels := setAll (setAll (List.replicate n Partition.train) final .holdout) middle .validation
  have hlength : labels.length = n := by simp [labels, length_setAll]
  -- what stands at a position
  have hat : ∀ i < n, labels[i]?.getD .train =
      if i ∈ middle then .validation else if i ∈ final then .holdout else .train := by
    intro i hi
    rw [getElem?_setAll _ _ _ _ (by simpa [length_setAll] using hi),
      getElem?_setAll _ _ _ _ (by simpa using hi)]
    split_ifs <;> simp [hi]
  obtain ⟨-, hrest, hcross⟩ := List.nodup_append.mp hnodup
  obtain ⟨-, -, hcross'⟩ := List.nodup_append.mp hrest
  have hdrawn : (first ++ (middle ++ final)).map (fun i => labels[i]?.getD .train) =
      List.replicate first.length .train ++
        (List.replicate middle.length .validation ++ List.replicate final.length .holdout) := by
    rw [List.map_append, List.map_append]
    refine congrArg₂ _ (map_eq_replicate fun i hi => ?_)
      (congrArg₂ _ (map_eq_replicate fun i hi => ?_)
      (map_eq_replicate fun i hi => ?_))
    · rw [hat i (hmem i (by simp [hi])), if_neg, if_neg]
      · exact fun h => hcross i hi i (by simp [h]) rfl
      · exact fun h => hcross i hi i (by simp [h]) rfl
    · rw [hat i (hmem i (by simp [hi])), if_pos hi]
    · rw [hat i (hmem i (by simp [hi])), if_neg fun h => hcross' i h i hi rfl, if_pos hi]
  have hrange : (List.range n).map (fun i => labels[i]?.getD .train) = labels := by
    refine List.ext_getElem? fun i => ?_
    rw [List.getElem?_map]
    by_cases hi : i < n
    · simp [List.getElem?_range hi, List.getElem?_eq_getElem (hlength.symm ▸ hi)]
    · rw [List.getElem?_eq_none (by simpa using hi), List.getElem?_eq_none (by omega)]
      rfl
  have hmap := (hperm.symm.map fun i => labels[i]?.getD Partition.train)
  rw [hrange, hcut, hdrawn, hfirst, hval, hhold] at hmap
  exact hmap

/-! ### Dated labels -/

/-- The rows a temporal split holds out. -/
def heldOut (dates : List ℤ) (cutoff : ℤ) (validationSize holdoutSize : ℚ) : List ℕ :=
  let nonTrain := nonTrainIndices (dates.map fun date => decide (date < cutoff))
  if 0 < holdoutSize ∧ 0 < nonTrain.length then
    (sortOn (fun i => dates[i]?.getD 0) nonTrain).drop
      (nonTrain.length - share nonTrain.length (holdoutSize / (validationSize + holdoutSize)))
  else []

/-- The rows that are not trained on are those from the cutoff on. -/
theorem mem_nonTrainIndices {dates : List ℤ} {cutoff : ℤ} {i : ℕ} :
    i ∈ nonTrainIndices (dates.map fun date => decide (date < cutoff)) ↔
      ∃ date, dates[i]? = some date ∧ cutoff ≤ date := by
  simp only [nonTrainIndices, List.mem_filter, List.mem_range, List.length_map, List.getElem?_map,
    decide_eq_true_eq, Option.map_eq_some_iff, decide_eq_false_iff_not, not_lt]
  constructor
  · exact And.right
  · rintro ⟨date, hdate, hle⟩
    exact ⟨(List.getElem?_eq_some_iff.mp hdate).1, date, hdate, hle⟩

/-- A row that is held out lies from the cutoff on. -/
theorem mem_nonTrain_of_heldOut {dates : List ℤ} {cutoff : ℤ}
    {validationSize holdoutSize : ℚ} {i : ℕ}
    (h : i ∈ heldOut dates cutoff validationSize holdoutSize) :
    ∃ date, dates[i]? = some date ∧ cutoff ≤ date := by
  simp only [heldOut] at h
  split_ifs at h
  · exact mem_nonTrainIndices.mp ((sortOn_perm _ _).mem_iff.mp (List.mem_of_mem_drop h))
  · exact absurd h List.not_mem_nil

/-- The rows held out are the latest of those past the cutoff. -/
theorem heldOut_latest {dates : List ℤ} {cutoff : ℤ} {validationSize holdoutSize : ℚ}
    {i j : ℕ} {d e : ℤ}
    (hi : i ∈ heldOut dates cutoff validationSize holdoutSize) (hd : dates[i]? = some d)
    (hj : j ∉ heldOut dates cutoff validationSize holdoutSize) (he : dates[j]? = some e)
    (hpast : cutoff ≤ e) :
    e ≤ d := by
  have hmem : j ∈ nonTrainIndices (dates.map fun date => decide (date < cutoff)) :=
    mem_nonTrainIndices.mpr ⟨e, he, hpast⟩
  simp only [heldOut] at hi hj
  split_ifs at hi hj
  · generalize hm : (nonTrainIndices (dates.map fun date => decide (date < cutoff))).length -
      share (nonTrainIndices (dates.map fun date => decide (date < cutoff))).length
        (holdoutSize / (validationSize + holdoutSize)) = m at hi hj
    have hsorted := pairwise_sortOn (fun i => dates[i]?.getD 0)
      (nonTrainIndices (dates.map fun date => decide (date < cutoff)))
    have hmem' := (sortOn_perm (fun i => dates[i]?.getD 0) _).mem_iff.mpr hmem
    rw [← List.take_append_drop m (sortOn _ _)] at hsorted hmem'
    have htake := (List.mem_append.mp hmem').resolve_right hj
    have hle := (List.pairwise_append.mp hsorted).2.2 j htake i hi
    simpa [hd, he] using hle
  · exact absurd hi List.not_mem_nil

/-- A dated row's label. -/
theorem getElem?_labelDates {dates : List ℤ} {i : ℕ} {date : ℤ} (hdate : dates[i]? = some date)
    (cutoff : ℤ) (validationSize holdoutSize : ℚ) :
    (labelDates dates cutoff validationSize holdoutSize)[i]? =
      some (if i ∈ heldOut dates cutoff validationSize holdoutSize then .holdout
        else if date < cutoff ∨ validationSize = 0 then .train else .validation) := by
  have hi : i < dates.length := (List.getElem?_eq_some_iff.mp hdate).1
  have hbase : ((dates.map fun date => decide (date < cutoff)).map fun train =>
      if train then Partition.train else .validation)[i]? =
      some (if date < cutoff then Partition.train else .validation) := by
    simp [List.getElem?_map, hdate]
  unfold labelDates heldOut
  dsimp only
  by_cases hcut : 0 < holdoutSize ∧ 0 <
    (nonTrainIndices (dates.map fun date => decide (date < cutoff))).length
  · simp only [hcut, and_self, if_true]
    by_cases hv : validationSize = 0
    · rw [if_pos hv, List.getElem?_map, getElem?_setAll _ _ _ _ (by simpa using hi), hbase]
      split_ifs <;> simp_all
    · rw [if_neg hv, getElem?_setAll _ _ _ _ (by simpa using hi), hbase]
      simp only [hv, or_false]
      split_ifs <;> rfl
  · simp only [hcut, if_false, List.not_mem_nil]
    by_cases hv : validationSize = 0
    · rw [if_pos hv, List.getElem?_map, hbase]
      split_ifs <;> simp_all
    · rw [if_neg hv, hbase]
      simp [hv]

/-- Dates are labelled one by one. -/
theorem length_labelDates (dates : List ℤ) (cutoff : ℤ) (validationSize holdoutSize : ℚ) :
    (labelDates dates cutoff validationSize holdoutSize).length = dates.length := by
  unfold labelDates
  dsimp only
  split_ifs <;> simp [length_setAll]

/-- **Where a dated row goes.** A row before the cutoff is a train row, and no validation row is
later than a holdout row. -/
theorem labelDates_spec (dates : List ℤ) (cutoff : ℤ) (validationSize holdoutSize : ℚ) :
    (∀ (i : ℕ) (date : ℤ), dates[i]? = some date → date < cutoff →
      (labelDates dates cutoff validationSize holdoutSize)[i]? = some .train) ∧
    ∀ (i j : ℕ) (d e : ℤ), dates[i]? = some d → dates[j]? = some e →
      (labelDates dates cutoff validationSize holdoutSize)[i]? = some .holdout →
      (labelDates dates cutoff validationSize holdoutSize)[j]? = some .validation → e ≤ d := by
  refine ⟨fun i date hdate hbefore => ?_, fun i j d e hd he hhold hval => ?_⟩
  · have hnot : i ∉ heldOut dates cutoff validationSize holdoutSize := by
      intro h
      obtain ⟨date', hdate', hpast⟩ := mem_nonTrain_of_heldOut h
      obtain rfl := Option.some.inj (hdate.symm.trans hdate')
      exact absurd hbefore (not_lt.mpr hpast)
    rw [getElem?_labelDates hdate, if_neg hnot, if_pos (.inl hbefore)]
  · rw [getElem?_labelDates hd] at hhold
    rw [getElem?_labelDates he] at hval
    have hi : i ∈ heldOut dates cutoff validationSize holdoutSize := by
      by_contra hnot
      rw [if_neg hnot] at hhold
      split_ifs at hhold <;> simp at hhold
    have hj : j ∉ heldOut dates cutoff validationSize holdoutSize := by
      intro hin
      rw [if_pos hin] at hval
      simp at hval
    have hpast : ¬ (e < cutoff ∨ validationSize = 0) := by
      intro hbefore
      rw [if_neg hj, if_pos hbefore] at hval
      simp at hval
    exact heldOut_latest hi hd hj he (not_lt.mp (not_or.mp hpast).1)

end Haute.Split
