import Haute.Split.Groups
import Haute.Split.Positions

/-!
# Rows in another order

The same rows in another order get the same labels (`splitMask_moved`). Labels that are drawn over
the canonical order are drawn over the same rows; the others go by a row's own value, by the number
of rows, or by the groups there are, none of which the order changes.
-/

namespace Haute.Split

open Data

variable {V : Type} {engine : Engine V} {n : ℕ} {move : ℕ → ℕ}

/-- `df'` holds row `i` of `df` at `move i`. -/
structure Moved (n : ℕ) (move : ℕ → ℕ) (df df' : Frame V) : Prop where
  perm : ((List.range n).map move).Perm (List.range n)
  height : df.height = n
  height' : df'.height = n
  columns : ∀ name, (df.column name).isSome = (df'.column name).isSome
  cells : ∀ name cells cells', df.column name = some cells → df'.column name = some cells' →
    ∀ i < n, cells'[move i]? = cells[i]?

theorem map_getElem?_range {α : Type} {xs : List α} (hn : xs.length = n) :
    (List.range n).map (fun i => xs[i]?) = xs.map some := by
  refine List.ext_getElem? fun i => ?_
  rw [List.getElem?_map, List.getElem?_map]
  by_cases hi : i < n
  · simp [List.getElem?_range hi, List.getElem?_eq_getElem (hn.symm ▸ hi)]
  · rw [List.getElem?_eq_none (by simpa using hi), List.getElem?_eq_none (by omega)]
    rfl

/-- A moved list is a rearranged one. -/
theorem perm_of_moved {α : Type} {xs ys : List α}
    (hperm : ((List.range n).map move).Perm (List.range n))
    (hx : xs.length = n) (hy : ys.length = n) (hmove : ∀ i < n, ys[move i]? = xs[i]?) :
    xs.Perm ys := by
  have hxs : (List.range n).map (fun i => ys[move i]?) = xs.map some := by
    rw [← map_getElem?_range hx]
    exact List.map_congr_left fun i hi => hmove i (List.mem_range.mp hi)
  have hys := hperm.map fun i => ys[i]?
  rw [List.map_map, map_getElem?_range hy] at hys
  have hsome : (xs.map some).Perm (ys.map some) := hxs ▸ hys
  simpa using (hsome.filterMap id)

/-- A moved frame has the same columns, each moved. -/
theorem Moved.column_cases {df df' : Frame V} (h : Moved n move df df') (name : String) :
    (df.column name = none ∧ df'.column name = none) ∨
      ∃ cells cells', df.column name = some cells ∧ df'.column name = some cells' ∧
        cells.length = n ∧ cells'.length = n ∧ cells.Perm cells' ∧
          ∀ i < n, cells'[move i]? = cells[i]? := by
  have hsome := h.columns name
  cases hc : df.column name with
  | none =>
    rw [hc] at hsome
    exact .inl ⟨rfl, Option.not_isSome_iff_eq_none.mp (by simpa using hsome.symm)⟩
  | some cells =>
    rw [hc] at hsome
    obtain ⟨cells', hc'⟩ := Option.isSome_iff_exists.mp hsome.symm
    have hn := (df.length_column name cells hc).trans h.height
    have hn' := (df'.length_column name cells' hc').trans h.height'
    have hmove := h.cells name cells cells' hc hc'
    exact .inr ⟨cells, cells', rfl, hc', hn, hn', perm_of_moved h.perm hn hn' hmove, hmove⟩

/-- The canonical order finds the same rows. -/
theorem Moved.gather {df df' : Frame V} (h : Moved n move df df') {order : List ℕ}
    (horder : ∀ i ∈ order, i < n) :
    (df'.gather (order.map move)).column = (df.gather order).column := by
  funext name
  simp only [Frame.gather, List.map_map]
  rcases h.column_cases name with ⟨hc, hc'⟩ | ⟨cells, cells', hc, hc', -, -, -, hmove⟩
  · rw [hc, hc']
    rfl
  · rw [hc, hc', Option.map_some, Option.map_some]
    refine congrArg some (List.map_congr_left fun i hi => ?_)
    rw [Function.comp_apply, hmove i (horder i hi)]

/-- A moved order is an order of the rows. -/
theorem order_move {order : List ℕ} (hperm : ((List.range n).map move).Perm (List.range n))
    (horder : order.Perm (List.range n)) : (order.map move).Perm (List.range n) :=
  (horder.map move).trans hperm

/-- Labels put back in a moved order move with the rows. -/
theorem inSourceOrder_moved {canonical : List Partition} {order : List ℕ}
    (hn : canonical.length = n)
    (hperm : ((List.range n).map move).Perm (List.range n)) (horder : order.Perm (List.range n)) :
    ∀ i < n, (inSourceOrder engine canonical (order.map move))[move i]? =
      (inSourceOrder engine canonical order)[i]? := by
  subst hn
  intro i hi
  obtain ⟨k, hk⟩ := exists_getElem?_order horder hi
  have hk' : (order.map move)[k]? = some (move i) := by rw [List.getElem?_map, hk, Option.map_some]
  rw [getElem?_inSourceOrder horder hk, getElem?_inSourceOrder (order_move hperm horder) hk']

/-! ### Masks that go by the values -/

theorem mapM_option_eq_some {α β : Type} {f : α → Option β} {xs : List α} {ys : List β}
    (h : xs.mapM f = some ys) : ys.map some = xs.map f := by
  induction xs generalizing ys with
  | nil =>
    obtain rfl := Option.some.inj h
    rfl
  | cons x xs ih =>
    rw [List.mapM_cons] at h
    obtain ⟨y, hy, h⟩ := Option.bind_eq_some_iff.mp h
    obtain ⟨rest, hrest, h⟩ := Option.bind_eq_some_iff.mp h
    obtain rfl := Option.some.inj h
    rw [List.map_cons, List.map_cons, hy, ih hrest]

theorem exists_mapM_option {α β : Type} {f : α → Option β} {xs : List α}
    (h : ∀ x ∈ xs, (f x).isSome) :
    ∃ ys, xs.mapM f = some ys := by
  induction xs with
  | nil => exact ⟨[], rfl⟩
  | cons x xs ih =>
    obtain ⟨y, hy⟩ := Option.isSome_iff_exists.mp (h x List.mem_cons_self)
    obtain ⟨ys, hys⟩ := ih fun x hx => h x (List.mem_cons_of_mem _ hx)
    exact ⟨y :: ys, by rw [List.mapM_cons, hy, hys]; rfl⟩

/-- What a temporal split labels: dates read from its column, against its cutoff. -/
theorem temporalMask_eq_ok {df : Frame V} {dateColumn cutoffDate : String}
    {validationSize holdoutSize : ℚ}
    {labels : List Partition}
    (h : temporalMask engine df dateColumn cutoffDate validationSize holdoutSize = .ok labels) :
    ∃ cells dates cutoff, df.column dateColumn = some cells ∧
      engine.toDate cutoffDate = some cutoff ∧
      cells.countP Option.isNone = 0 ∧ (cells.mapM fun cell => cell.bind engine.date) = some dates ∧
      labels = labelDates dates cutoff validationSize holdoutSize := by
  unfold temporalMask at h
  cases hcolumn : df.column dateColumn with
  | none => simp [hcolumn] at h
  | some cells =>
    simp only [hcolumn] at h
    split_ifs at h with hnull
    cases hcutoff : engine.toDate cutoffDate with
    | none => simp [hcutoff] at h
    | some cutoff =>
      cases hdates : cells.mapM fun cell => cell.bind engine.date with
      | none => simp [hcutoff, hdates] at h
      | some dates =>
        simp only [hcutoff, hdates, Except.ok.injEq] at h
        exact ⟨cells, dates, cutoff, rfl, rfl, not_not.mp hnull, hdates, h.symm⟩

/-- The dates are read row by row. -/
theorem getElem?_dates {cells : List (Option V)} {dates : List ℤ}
    (h : (cells.mapM fun cell => cell.bind engine.date) = some dates) (i : ℕ) :
    dates[i]? = cells[i]?.bind fun cell => cell.bind engine.date := by
  have hat := congrArg (fun xs : List (Option ℤ) => xs[i]?) (mapM_option_eq_some h)
  simp only [List.getElem?_map] at hat
  cases hc : cells[i]? with
  | none =>
    rw [hc] at hat
    simpa using hat
  | some cell =>
    rw [hc, Option.map_some] at hat
    obtain ⟨date, hdate, heq⟩ := Option.map_eq_some_iff.mp hat
    rw [hdate, heq, Option.bind_some]

theorem heldOut_eq_nil (dates : List ℤ) (cutoff : ℤ) (validationSize : ℚ) :
    heldOut dates cutoff validationSize 0 = [] := by
  simp [heldOut]

/-- A temporal split without a holdout labels moved rows alike. -/
theorem temporalMask_moved {df df' : Frame V} (h : Moved n move df df')
    {dateColumn cutoffDate : String}
    {validationSize : ℚ} {labels : List Partition}
    (hmask : temporalMask engine df dateColumn cutoffDate validationSize 0 = .ok labels) :
    ∃ labels', temporalMask engine df' dateColumn cutoffDate validationSize 0 = .ok labels' ∧
      ∀ i < n, labels'[move i]? = labels[i]? := by
  obtain ⟨held, dates, cutoff, hcolumn, hcutoff, hnull, hdates, rfl⟩ := temporalMask_eq_ok hmask
  rcases h.column_cases dateColumn with ⟨hc, -⟩ | ⟨cells, cells', hc, hc', hn, -, hperm, hmove⟩
  · rw [hc] at hcolumn
    cases hcolumn
  · obtain rfl := Option.some.inj (hc.symm.trans hcolumn)
    have hnull' : cells'.countP Option.isNone = 0 := hperm.countP_eq _ ▸ hnull
    have hread : ∀ cell ∈ cells', (cell.bind engine.date).isSome := by
      intro cell hcell
      obtain ⟨date, -, hdate⟩ := List.mem_map.mp
        (mapM_option_eq_some hdates ▸ List.mem_map_of_mem (hperm.mem_iff.mpr hcell) :
          cell.bind engine.date ∈ dates.map some)
      rw [← hdate]
      rfl
    obtain ⟨dates', hdates'⟩ := exists_mapM_option hread
    refine ⟨labelDates dates' cutoff validationSize 0, ?_, fun i hi => ?_⟩
    · simp only [temporalMask, hc', hnull', hcutoff, hdates', ne_eq, not_true_eq_false, if_false]
    · have hlength : dates.length = cells.length := by
        simpa using congrArg List.length (mapM_option_eq_some hdates)
      have hdate : dates[i]? = some dates[i] := List.getElem?_eq_getElem (by omega)
      have hdate' : dates'[move i]? = some dates[i] := by
        rw [getElem?_dates hdates', hmove i hi, ← getElem?_dates hdates, hdate]
      rw [getElem?_labelDates hdate, getElem?_labelDates hdate', heldOut_eq_nil, heldOut_eq_nil]
      simp

variable [DecidableEq V]

/-- The groups do not depend on the order of the rows. -/
theorem uniqueGroups_perm {cells cells' : List (Option V)} (h : cells.Perm cells') :
    uniqueGroups engine cells = uniqueGroups engine cells' :=
  sortOn_eq_of_perm (h.dedup.map engine.str) fun _ _ _ _ heq => heq

/-- A split by groups labels moved rows alike. -/
theorem groupMask_moved {df df' : Frame V} (h : Moved n move df df') {groupColumn : String}
    {validationSize holdoutSize : ℚ} {seed : ℤ} {labels : List Partition}
    (hmask : groupMask engine df groupColumn validationSize holdoutSize seed = .ok labels) :
    ∃ labels', groupMask engine df' groupColumn validationSize holdoutSize seed = .ok labels' ∧
      ∀ i < n, labels'[move i]? = labels[i]? := by
  unfold groupMask at hmask ⊢
  rcases h.column_cases groupColumn with ⟨hc, -⟩ | ⟨cells, cells', hc, hc', -, -, hperm, hmove⟩
  · simp [hc] at hmask
  · simp only [hc, Except.ok.injEq] at hmask
    subst hmask
    refine ⟨_, by rw [hc'], fun i hi => ?_⟩
    rw [List.getElem?_map, List.getElem?_map, hmove i hi, uniqueGroups_perm hperm]

/-! ### The mask -/

omit [DecidableEq V] in
/-- A temporal split depends on the height and the columns alone. -/
theorem temporalMask_congr {df df' : Frame V} (hheight : df.height = df'.height)
    (hcolumn : df.column = df'.column)
    (dateColumn cutoffDate : String) (validationSize holdoutSize : ℚ) :
    temporalMask engine df dateColumn cutoffDate validationSize holdoutSize =
      temporalMask engine df' dateColumn cutoffDate validationSize holdoutSize := by
  rw [temporalMask, temporalMask, hheight, hcolumn]

omit [DecidableEq V] in
/-- A temporal split labels every row. -/
theorem length_temporalMask {df : Frame V} {dateColumn cutoffDate : String}
    {validationSize holdoutSize : ℚ}
    {labels : List Partition}
    (h : temporalMask engine df dateColumn cutoffDate validationSize holdoutSize = .ok labels) :
    labels.length = df.height := by
  obtain ⟨cells, dates, cutoff, hcolumn, -, -, hdates, rfl⟩ := temporalMask_eq_ok h
  rw [length_labelDates, ← df.length_column _ _ hcolumn]
  simpa using congrArg List.length (mapM_option_eq_some hdates)

omit [DecidableEq V] in
/-- A temporal split made in an order of the rows labels moved rows alike. -/
theorem temporalInOrder_moved {df df' : Frame V} (h : Moved n move df df') {order : List ℕ}
    (hperm : order.Perm (List.range n)) {dateColumn cutoffDate : String}
    {validationSize holdoutSize : ℚ}
    {labels : List Partition}
    (hmask : temporalInOrder engine df order dateColumn cutoffDate validationSize holdoutSize =
      .ok labels) :
    ∃ labels', temporalInOrder engine df' (order.map move) dateColumn cutoffDate validationSize
      holdoutSize = .ok labels' ∧
      ∀ i < n, labels'[move i]? = labels[i]? := by
  have hlength : order.length = n := by rw [hperm.length_eq, List.length_range]
  have hin : ∀ i ∈ order, i < n := fun i hi => List.mem_range.mp (hperm.mem_iff.mp hi)
  have hin' : ∀ i ∈ order.map move, i < n := fun i hi =>
    List.mem_range.mp ((order_move h.perm hperm).mem_iff.mp hi)
  have hany : ¬ (order.any fun i => decide (df.height ≤ i)) = true := by
    rw [List.any_eq_true]
    rintro ⟨i, hi, hle⟩
    exact absurd (hin i hi) (not_lt.mpr (h.height ▸ of_decide_eq_true hle))
  have hany' : ¬ ((order.map move).any fun i => decide (df'.height ≤ i)) = true := by
    rw [List.any_eq_true]
    rintro ⟨i, hi, hle⟩
    exact absurd (hin' i hi) (not_lt.mpr (h.height' ▸ of_decide_eq_true hle))
  rw [temporalInOrder, if_neg hany] at hmask
  rw [temporalInOrder, if_neg hany', temporalMask_congr (List.length_map move) (h.gather hin)]
  cases hcanonical : temporalMask engine (df.gather order) dateColumn cutoffDate validationSize
    holdoutSize with
  | error e =>
    rw [hcanonical] at hmask
    cases hmask
  | ok canonical =>
    rw [hcanonical] at hmask
    obtain rfl := Except.ok.inj hmask
    have hn : canonical.length = n := (length_temporalMask hcanonical).trans hlength
    exact ⟨_, rfl, inSourceOrder_moved hn h.perm hperm⟩

/-- **The same rows in another order get the same labels**, the canonical order moved alike. -/
theorem splitMask_moved {df df' : Frame V} (h : Moved n move df df') {config : SplitConfig}
    (hconfig : config.postInit = .ok ()) {order : Option (List ℕ)}
    (horder : ∀ o ∈ order, o.Perm (List.range n)) {labels : List Partition}
    (hmask : splitMask engine n config (some df) order = .ok labels) :
    ∃ labels', splitMask engine n config (some df') (order.map (List.map move)) = .ok labels' ∧
      ∀ i < n, labels'[move i]? = labels[i]? := by
  unfold splitMask at hmask ⊢
  by_cases hzero : n = 0
  · simp [hzero] at hmask
  simp only [hzero, if_false] at hmask ⊢
  cases order with
  | none =>
    cases hneeds : needsRowOrder config with
    | true => simp [hneeds] at hmask
    | false =>
      -- the labels go by the rows' own values
      cases hstrategy : config.strategy with
      | random => simp [needsRowOrder, hstrategy] at hneeds
      | temporal =>
        have hnone : config.holdoutSize = 0 := by
          simp only [needsRowOrder, hstrategy, reduceCtorEq, true_and, false_or,
            decide_eq_false_iff_not, not_lt] at hneeds
          exact le_antisymm hneeds (SplitConfig.sizes hconfig).2.1
        cases hdate : config.dateColumn with
        | none => simp [hneeds, hstrategy, hdate] at hmask
        | some dateColumn =>
          cases hcutoff : config.cutoffDate with
          | none => simp [hneeds, hstrategy, hdate, hcutoff] at hmask
          | some cutoffDate =>
            simp only [hneeds, hstrategy, hdate, hcutoff, hnone] at hmask ⊢
            exact temporalMask_moved h hmask
      | group =>
        cases hgroup : config.groupColumn with
        | none => simp [hneeds, hstrategy, hgroup] at hmask
        | some groupColumn =>
          simp only [hneeds, hstrategy, hgroup] at hmask ⊢
          exact groupMask_moved h hmask
  | some order =>
    cases hneeds : needsRowOrder config with
    | false => simp [hneeds] at hmask
    | true =>
      -- the labels are drawn over the canonical order
      have hperm := horder order rfl
      have hlength : order.length = n := by rw [hperm.length_eq, List.length_range]
      simp only [hneeds, hlength, ne_eq, not_true_eq_false, if_false, Option.map_some,
        List.length_map] at hmask ⊢
      cases hstrategy : config.strategy with
      | random =>
        simp only [hstrategy, Except.ok.injEq] at hmask ⊢
        subst hmask
        exact ⟨_, rfl, inSourceOrder_moved (length_randomMask ..) h.perm hperm⟩
      | temporal =>
        simp only [hstrategy] at hmask ⊢
        cases hdate : config.dateColumn with
        | none => simp [hdate] at hmask
        | some dateColumn =>
          cases hcutoff : config.cutoffDate with
          | none => simp [hdate, hcutoff] at hmask
          | some cutoffDate =>
            simp only [hdate, hcutoff] at hmask ⊢
            exact temporalInOrder_moved h hperm hmask
      | group => simp [needsRowOrder, hstrategy] at hneeds

end Haute.Split
