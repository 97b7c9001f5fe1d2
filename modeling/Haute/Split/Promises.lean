import Haute.Split.Moved

/-!
# What a split promises

The strategies' promises together (`splitMask_promises`). A random split labels as many rows as its
sizes say, a temporal one keeps the partitions in the order of their dates, and either, like a
group split, labels the same rows alike in whatever order they come. A group split keeps its
promises for every hash, seed and sizes if and only if Polars casts each value of the group column
to the text Python makes of it: a Boolean's texts differ, `True` and `true`, and then every row is
a train row (`not_groupPromise_booleans`).
-/

namespace Haute.Split

open Data

variable {V : Type} {engine : Engine V} {n : ℕ}

/-- The date of a row. -/
def dateAt (engine : Engine V) (cells : List (Option V)) (i : ℕ) : Option ℤ :=
  cells[i]?.bind fun cell => cell.bind engine.date

theorem toNat_share {r : ℚ} (h : 0 ≤ r) : ((share n r : ℕ) : ℤ) = ⌊(n : ℚ) * r⌋ :=
  Int.toNat_of_nonneg (Int.floor_nonneg.mpr (mul_nonneg n.cast_nonneg h))

/-- The labels of dated rows at their source positions. -/
theorem temporalInOrder_spec {df : Frame V} (hheight : df.height = n) {order : List ℕ}
    (hperm : order.Perm (List.range n)) {dateColumn cutoffDate : String}
    {validationSize holdoutSize : ℚ}
    {labels : List Partition}
    (h : temporalInOrder engine df order dateColumn cutoffDate validationSize holdoutSize =
      .ok labels) :
    ∃ cells cutoff, df.column dateColumn = some cells ∧ engine.toDate cutoffDate = some cutoff ∧
      (∀ (i : ℕ) (date : ℤ), dateAt engine cells i = some date → date < cutoff →
        labels[i]? = some .train) ∧
      ∀ (i j : ℕ) (d e : ℤ), dateAt engine cells i = some d → dateAt engine cells j = some e →
        labels[i]? = some .holdout → labels[j]? = some .validation → e ≤ d := by
  unfold temporalInOrder at h
  split_ifs at h
  cases hmask : temporalMask engine (df.gather order) dateColumn cutoffDate validationSize
    holdoutSize with
  | error e =>
    rw [hmask] at h
    cases h
  | ok canonical =>
    rw [hmask] at h
    obtain rfl := Except.ok.inj h
    have hlength : canonical.length = n := by
      rw [length_temporalMask hmask]
      exact hperm.length_eq.trans List.length_range
    obtain ⟨gathered, dates, cutoff, hcolumn, hcutoff, -, hdates, rfl⟩ := temporalMask_eq_ok hmask
    obtain ⟨cells, hcells, rfl⟩ := Option.map_eq_some_iff.mp hcolumn
    have hn : cells.length = n := (df.length_column _ _ hcells).trans hheight
    -- a row's date is that of its place in canonical order
    have hat : ∀ (i : ℕ) (date : ℤ), dateAt engine cells i = some date →
        ∃ k : ℕ, dates[k]? = some date ∧
        (inSourceOrder engine (labelDates dates cutoff validationSize holdoutSize) order)[i]? =
          (labelDates dates cutoff validationSize holdoutSize)[k]? := by
      intro i date hdate
      obtain ⟨cell, hcell, hread⟩ := Option.bind_eq_some_iff.mp hdate
      have hi : i < n := hn ▸ (List.getElem?_eq_some_iff.mp hcell).1
      obtain ⟨k, hk⟩ := exists_getElem?_order hperm hi
      refine ⟨k, ?_, getElem?_inSourceOrder (hlength.symm ▸ hperm) hk⟩
      rw [getElem?_dates hdates, List.getElem?_map, hk, Option.map_some, Option.bind_some, hcell]
      exact hread
    obtain ⟨hbefore, hlatest⟩ := labelDates_spec dates cutoff validationSize holdoutSize
    refine ⟨cells, cutoff, hcells, hcutoff, fun i date hdate hlt =>
      ?_, fun i j d e hd he hi hj => ?_⟩
    · obtain ⟨k, hk, hlabel⟩ := hat i date hdate
      rw [hlabel]
      exact hbefore k date hk hlt
    · obtain ⟨k, hk, hlabel⟩ := hat i d hd
      obtain ⟨l, hl, hlabel'⟩ := hat j e he
      exact hlatest k l d e hk hl (hlabel ▸ hi) (hlabel' ▸ hj)

theorem temporalMask_spec {df : Frame V} {dateColumn cutoffDate : String}
    {validationSize holdoutSize : ℚ}
    {labels : List Partition}
    (h : temporalMask engine df dateColumn cutoffDate validationSize holdoutSize = .ok labels) :
    ∃ cells cutoff, df.column dateColumn = some cells ∧ engine.toDate cutoffDate = some cutoff ∧
      (∀ (i : ℕ) (date : ℤ), dateAt engine cells i = some date → date < cutoff →
        labels[i]? = some .train) ∧
      ∀ (i j : ℕ) (d e : ℤ), dateAt engine cells i = some d → dateAt engine cells j = some e →
        labels[i]? = some .holdout → labels[j]? = some .validation → e ≤ d := by
  obtain ⟨cells, dates, cutoff, hcells, hcutoff, -, hdates, rfl⟩ := temporalMask_eq_ok h
  have hat : ∀ i : ℕ, dates[i]? = dateAt engine cells i := getElem?_dates hdates
  obtain ⟨hbefore, hlatest⟩ := labelDates_spec dates cutoff validationSize holdoutSize
  refine ⟨cells, cutoff, hcells, hcutoff, fun i date hdate =>
    hbefore i date ((hat i).trans hdate), ?_⟩
  exact fun i j d e hd he => hlatest i j d e ((hat i).trans hd) ((hat j).trans he)

variable [DecidableEq V]

/-- What a random split promises. -/
theorem splitMask_random {seed : ℤ} (hdraw : (engine.permutation seed n).Perm (List.range n))
    (hn : 0 < n)
    {config : SplitConfig} (hconfig : config.postInit = .ok ())
    (hstrategy : config.strategy = .random)
    (hseed : config.seed = seed) (df : Option (Frame V)) {order : List ℕ}
    (horder : order.Perm (List.range n)) :
    ∃ labels, splitMask engine n config df (some order) = .ok labels ∧ labels.length = n ∧
      (labels.count .holdout : ℤ) = ⌊(n : ℚ) * config.holdoutSize⌋ ∧
      (labels.count .validation : ℤ) = ⌊(n : ℚ) * config.validationSize⌋ ∧
      labels.count .train + labels.count .validation + labels.count .holdout = n := by
  obtain ⟨hv, hh, hsum⟩ := SplitConfig.sizes hconfig
  have hlength : order.length = n := by rw [horder.length_eq, List.length_range]
  have hcanonical := length_randomMask engine n config.validationSize config.holdoutSize seed
  refine ⟨inSourceOrder engine (randomMask engine n config.validationSize config.holdoutSize seed)
    order, ?_, ?_⟩
  · simp [splitMask, hn.ne', needsRowOrder, hstrategy, hlength, hseed]
  · have hmoved :
        (inSourceOrder engine (randomMask engine n config.validationSize config.holdoutSize seed)
        order).Perm
        (randomMask engine n config.validationSize config.holdoutSize seed) :=
      inSourceOrder_perm (hcanonical.symm ▸ horder)
    have hperm := hmoved.trans (randomMask_perm hdraw hv hh hsum)
    have hshares : share n config.validationSize + share n config.holdoutSize ≤ n :=
      share_add_le hv hh hsum
    refine ⟨by rw [length_inSourceOrder, hcanonical], ?_, ?_, ?_⟩
    · rw [hperm.count_eq, ← toNat_share hh]
      simp [List.count_replicate]
    · rw [hperm.count_eq, ← toNat_share hv]
      simp [List.count_replicate]
    · rw [hperm.count_eq, hperm.count_eq, hperm.count_eq]
      simp only [List.count_append, List.count_replicate]
      simp
      omega

/-- What a temporal split promises. -/
theorem splitMask_temporal {config : SplitConfig} (hstrategy : config.strategy = .temporal)
    {df : Frame V}
    (hheight : df.height = n) {order : Option (List ℕ)}
    (horder : ∀ o ∈ order, o.Perm (List.range n))
    {labels : List Partition} (h : splitMask engine n config (some df) order = .ok labels) :
    ∃ dateColumn cutoffDate cells cutoff, config.dateColumn = some dateColumn ∧
      config.cutoffDate = some cutoffDate ∧ df.column dateColumn = some cells ∧
      engine.toDate cutoffDate = some cutoff ∧
      (∀ (i : ℕ) (date : ℤ), dateAt engine cells i = some date → date < cutoff →
        labels[i]? = some .train) ∧
      ∀ (i j : ℕ) (d e : ℤ), dateAt engine cells i = some d → dateAt engine cells j = some e →
        labels[i]? = some .holdout → labels[j]? = some .validation → e ≤ d := by
  unfold splitMask at h
  split_ifs at h
  cases hdate : config.dateColumn with
  | none =>
    cases order <;> cases hneeds : needsRowOrder config
    case some.true =>
      simp_all
      split_ifs at h
    all_goals simp_all
  | some dateColumn =>
    cases hcutoff : config.cutoffDate with
    | none =>
      cases order <;> cases hneeds : needsRowOrder config
      case some.true =>
        simp_all
        split_ifs at h
      all_goals simp_all
    | some cutoffDate =>
      cases order with
      | none =>
        cases hneeds : needsRowOrder config with
        | true => simp [hneeds] at h
        | false =>
          simp only [hneeds, hstrategy, hdate, hcutoff] at h
          obtain ⟨cells, cutoff, hspec⟩ := temporalMask_spec h
          exact ⟨dateColumn, cutoffDate, cells, cutoff, rfl, rfl, hspec⟩
      | some order =>
        have hperm := horder order rfl
        have hlength : order.length = n := by rw [hperm.length_eq, List.length_range]
        cases hneeds : needsRowOrder config with
        | false => simp [hneeds] at h
        | true =>
          simp only [hneeds, hlength, hstrategy, hdate, hcutoff, ne_eq,
            not_true_eq_false, if_false] at h
          obtain ⟨cells, cutoff, hspec⟩ := temporalInOrder_spec hheight hperm h
          exact ⟨dateColumn, cutoffDate, cells, cutoff, rfl, rfl, hspec⟩

theorem splitMask_group {config : SplitConfig} (hstrategy : config.strategy = .group)
    {groupColumn : String}
    (hgroup : config.groupColumn = some groupColumn) (hn : 0 < n) (df : Frame V) :
    splitMask engine n config (some df) none =
      groupMask engine df groupColumn config.validationSize config.holdoutSize config.seed := by
  have hneeds : needsRowOrder config = false := by simp [needsRowOrder, hstrategy]
  simp [splitMask, hn.ne', hneeds, hstrategy, hgroup]

/-- A group split keeps its promises, for every hash, seed and sizes, if and only if each value of
the group column has one text in Python and in Polars. -/
theorem groupPromise_iff {df : Frame V} {groupColumn : String} (hname : groupColumn ≠ "")
    {cells : List (Option V)}
    (hcolumn : df.column groupColumn = some cells) (hn : 0 < n) :
    (∀ (hash : String → Fin (2 ^ 32)) (config : SplitConfig), config.postInit = .ok () →
      config.strategy = .group → config.groupColumn = some groupColumn →
        ∃ labels, splitMask { engine with hash } n config (some df) none = .ok labels ∧
          GroupPromise { engine with hash } cells config.validationSize config.holdoutSize
            config.seed labels) ↔
      ∀ cell ∈ cells, engine.castText cell = engine.str cell := by
  constructor
  · intro h cell hcell
    by_contra hdiffer
    have hconfig : SplitConfig.postInit ⟨.group, 1 / 2, 0, 0, none, none, some groupColumn⟩ =
        .ok () := by
      norm_num [SplitConfig.postInit, hname]
      rfl
    obtain ⟨labels, hmask, hpromise⟩ :=
      h (firstHash (toString (0 : ℤ) ++ ":" ++ engine.str cell)) _ hconfig rfl rfl
    rw [splitMask_group rfl rfl hn] at hmask
    exact groupMask_lost hcolumn hcell hdiffer 0 hmask hpromise
  · intro htext hash config _ hstrategy hgroup
    have hkept :=
      @groupMask_kept V { engine with hash } _ df groupColumn cells hcolumn htext
        config.validationSize
      config.holdoutSize config.seed
    rw [splitMask_group hstrategy hgroup hn]
    exact hkept

/-- **Where each row goes.** What every strategy promises, and when a group split keeps its
promise. -/
theorem splitMask_promises (engine : Engine V)
    (hdraw : ∀ seed n, (engine.permutation seed n).Perm (List.range n)) (n : ℕ) (hn : 0 < n) :
    (∀ config : SplitConfig, config.postInit = .ok () → config.strategy = .random →
      ∀ (df : Option (Frame V)) (order : List ℕ), order.Perm (List.range n) →
        ∃ labels, splitMask engine n config df (some order) = .ok labels ∧ labels.length = n ∧
          (labels.count .holdout : ℤ) = ⌊(n : ℚ) * config.holdoutSize⌋ ∧
          (labels.count .validation : ℤ) = ⌊(n : ℚ) * config.validationSize⌋ ∧
          labels.count .train + labels.count .validation + labels.count .holdout = n) ∧
    (∀ (move : ℕ → ℕ) (df df' : Frame V), Moved n move df df' → ∀ config : SplitConfig,
      config.postInit = .ok () →
      ∀ order : Option (List ℕ), (∀ o ∈ order, o.Perm (List.range n)) →
        ∀ labels, splitMask engine n config (some df) order = .ok labels →
          ∃ labels', splitMask engine n config (some df') (order.map (List.map move)) =
            .ok labels' ∧
            ∀ i < n, labels'[move i]? = labels[i]?) ∧
    (∀ config : SplitConfig, config.strategy = .temporal → ∀ df : Frame V, df.height = n →
      ∀ order : Option (List ℕ), (∀ o ∈ order, o.Perm (List.range n)) →
        ∀ labels, splitMask engine n config (some df) order = .ok labels →
          ∃ dateColumn cutoffDate cells cutoff, config.dateColumn = some dateColumn ∧
            config.cutoffDate = some cutoffDate ∧ df.column dateColumn = some cells ∧
            engine.toDate cutoffDate = some cutoff ∧
            (∀ (i : ℕ) (date : ℤ), dateAt engine cells i = some date → date < cutoff →
              labels[i]? = some .train) ∧
            ∀ (i j : ℕ) (d e : ℤ), dateAt engine cells i = some d → dateAt engine cells j = some e →
              labels[i]? = some .holdout → labels[j]? = some .validation → e ≤ d) ∧
    ∀ (df : Frame V) (groupColumn : String) (cells : List (Option V)), groupColumn ≠ "" →
      df.column groupColumn = some cells →
      ((∀ (hash : String → Fin (2 ^ 32)) (config : SplitConfig), config.postInit = .ok () →
        config.strategy = .group → config.groupColumn = some groupColumn →
          ∃ labels, splitMask { engine with hash } n config (some df) none = .ok labels ∧
            GroupPromise { engine with hash } cells config.validationSize config.holdoutSize
              config.seed labels) ↔
        ∀ cell ∈ cells, engine.castText cell = engine.str cell) :=
  ⟨fun config hconfig hstrategy df _ horder =>
      splitMask_random (hdraw config.seed n) hn hconfig hstrategy rfl df horder,
    fun _ _ _ hmoved _ hconfig _ horder _ hmask => splitMask_moved hmoved hconfig horder hmask,
    fun _ hstrategy _ hheight _ horder _ hmask => splitMask_temporal hstrategy hheight horder hmask,
    fun _ _ _ hname hcolumn => groupPromise_iff hname hcolumn hn⟩

/-- A column of Booleans: Python writes `True` and `False`, Polars casts to `true` and `false`. -/
def booleanEngine : Engine Bool where
  permutation _ n := List.range n
  hash := firstHash ""
  str cell := (cell.map fun b => if b then "True" else "False").getD "None"
  castText cell := (cell.map fun b => if b then "true" else "false").getD "None"
  date _ := none
  toDate _ := none
  unwritten _ := .train

/-- Two rows, one of each Boolean. -/
def booleanFrame : Frame Bool where
  height := 2
  column name := if name = "g" then some [some true, some false] else none
  length_column name cells h := by
    split_ifs at h
    obtain rfl := Option.some.inj h
    rfl

/-- Half the groups for validation. -/
def halfGroups : SplitConfig := ⟨.group, 1 / 2, 0, 0, none, none, some "g"⟩

/-- A hash that puts the group of the true rows first. -/
def trueFirst : Engine Bool :=
  { booleanEngine with hash := firstHash (toString (0 : ℤ) ++ ":" ++ "True") }

/-- The group of the true rows is a validation group, and no row is a validation row. -/
theorem not_groupPromise_booleans : ∃ labels, splitMask trueFirst 2 halfGroups (some booleanFrame)
    none = .ok labels ∧
    ¬ GroupPromise trueFirst [some true, some false] (1 / 2) 0 0 labels := by
  have hmask : splitMask trueFirst 2 halfGroups (some booleanFrame) none =
      groupMask trueFirst booleanFrame "g" (1 / 2) 0 0 :=
        splitMask_group rfl rfl (by decide) booleanFrame
  have hcolumn : booleanFrame.column "g" = some [some true, some false] := rfl
  refine ⟨_, by rw [hmask, groupMask, hcolumn], ?_⟩
  have hlost :=
    @groupMask_lost Bool booleanEngine _ booleanFrame "g" [some true, some false] hcolumn
      (some true)
    (by simp) (by decide) 0
  exact hlost (by rw [groupMask, hcolumn]; rfl)

/-- A column of texts, which Python and Polars write alike. -/
def textEngine : Engine String where
  permutation _ n := List.range n
  hash := firstHash ""
  str cell := cell.getD "None"
  castText cell := cell.getD "None"
  date _ := none
  toDate _ := none
  unwritten _ := .train

/-- Two rows, one of each region. -/
def regionFrame : Frame String where
  height := 2
  column name := if name = "g" then some [some "north", some "south"] else none
  length_column name cells h := by
    split_ifs at h
    obtain rfl := Option.some.inj h
    rfl

/-- Half of two rows are drawn for validation, and half of two groups are. -/
theorem splitMask_promises_twoRows :
    (∃ labels, splitMask textEngine 2 ⟨.random, 1 / 2, 0, 0, none, none, none⟩ none
      (some [1, 0]) = .ok labels ∧
      labels.length = 2 ∧ (labels.count .holdout : ℤ) = ⌊((2 : ℕ) : ℚ) * 0⌋ ∧
      (labels.count .validation : ℤ) = ⌊((2 : ℕ) : ℚ) * (1 / 2)⌋ ∧
      labels.count .train + labels.count .validation + labels.count .holdout = 2) ∧
    ∃ labels, splitMask textEngine 2 halfGroups (some regionFrame) none = .ok labels ∧
      GroupPromise textEngine [some "north", some "south"] (1 / 2) 0 0 labels := by
  obtain ⟨hrandom, -, -, hgroup⟩ :=
    splitMask_promises textEngine (fun _ _ => List.Perm.refl _) 2 (by decide)
  refine ⟨hrandom ⟨.random, 1 / 2, 0, 0, none, none, none⟩ ?_ rfl none [1, 0] (by decide), ?_⟩
  · norm_num [SplitConfig.postInit]
    rfl
  · refine (hgroup regionFrame "g" _ (by decide) rfl).mpr (fun _ _ => rfl) (firstHash "") halfGroups
      ?_ rfl rfl
    norm_num [SplitConfig.postInit, halfGroups]
    rfl

end Haute.Split
