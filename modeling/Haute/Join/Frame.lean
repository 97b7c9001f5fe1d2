import Haute.Data.Assoc

/-!
# Frames and their joins

A join of two frames, as its documentation names the outputs: the left frame's columns, then the
right frame's, those with a left column's name under that name and a suffix, and without the key
columns that are coalesced into the left frame's. Which rows are joined, and in which order, is
the engine's to say, from the keys alone; so is everything about the kinds of join whose outputs
come from both frames at once.
-/

namespace Haute.Join

variable {V ε : Type}

/-! ### Frames -/

/-- Distinct columns, and rows with a value for each. -/
@[ext]
structure Frame (V : Type) where
  columns : List String
  rows : List (List (String × V))
  nodup : columns.Nodup
  aligned : ∀ row ∈ rows, Assoc.keys row = columns

namespace Frame

/-- A column's values. -/
def column (f : Frame V) (c : String) : List (Option V) := f.rows.map fun row => Assoc.get? row c

/-- The key of each row. -/
def keyTuples (f : Frame V) (keys : List String) : List (List (Option V)) :=
  f.rows.map fun row => keys.map (Assoc.get? row)

/-- The frame without the other columns. -/
def restrict (f : Frame V) (cs : Finset String) : Frame V where
  columns := f.columns.filter fun c => decide (c ∈ cs)
  rows := f.rows.map fun row => row.filter fun e => decide (e.1 ∈ cs)
  nodup := f.nodup.filter _
  aligned := by
    intro row hrow
    obtain ⟨row', hrow', rfl⟩ := List.mem_map.mp hrow
    rw [← f.aligned row' hrow', Assoc.keys, Assoc.keys, List.filter_map]
    rfl

theorem mem_columns_restrict {f : Frame V} {cs : Finset String} {c : String} :
    c ∈ (f.restrict cs).columns ↔ c ∈ f.columns ∧ c ∈ cs := by
  simp [restrict]

theorem get?_restrict {cs : Finset String} {c : String} (h : c ∈ cs) (row : List (String × V)) :
    Assoc.get? (row.filter fun e => decide (e.1 ∈ cs)) c = Assoc.get? row c := by
  rw [Assoc.get?_filter_key fun k => decide (k ∈ cs), if_pos (decide_eq_true h)]

theorem keyTuples_restrict {f : Frame V} {cs : Finset String} {keys : List String}
    (h : ∀ k ∈ keys, k ∈ cs) : (f.restrict cs).keyTuples keys = f.keyTuples keys := by
  unfold keyTuples restrict
  rw [List.map_map]
  refine List.map_congr_left fun row _ => ?_
  exact List.map_congr_left fun k hk => get?_restrict (h k hk) row

end Frame

/-! ### Joins -/

/-- The kinds of join. -/
inductive How where
  | inner
  | left
  | right
  | full
  | semi
  | anti
  | cross
  deriving DecidableEq

/-- A join's settings. -/
structure JoinNode where
  how : How
  leftOn : List String
  rightOn : List String
  suffix : String
  coalesce : Option Bool
  validate : Option String
  maintainOrder : String

/-- What is left to the engine: its null, whether the right keys are coalesced into the left ones,
which rows are joined, the other kinds of join, and what it raises. -/
structure Engine (V ε : Type) where
  null : V
  coalesces : JoinNode → Bool
  matching : JoinNode → List (List (Option V)) → List (List (Option V)) →
    Except ε (List (ℕ × Option ℕ))
  other : JoinNode → Frame V → Frame V → Except ε (Frame V)
  columnNotFound : ε
  duplicateColumn : ε

/-- Where an output column comes from. -/
inductive Source where
  | left (c : String)
  | right (c : String)
  deriving DecidableEq

/-- Whether only rows of the left frame are kept, with its columns. -/
def How.filters : How → Bool
  | .semi | .anti => true
  | _ => false

/-- Whether a join's outputs each come from one frame. -/
def How.mechanical : How → Bool
  | .inner | .left | .semi | .anti => true
  | _ => false

/-- The output columns, each with its source. -/
def outputs (E : Engine V ε) (node : JoinNode) (left right : List String) :
    List (String × Source) :=
  left.map (fun c => (c, .left c)) ++
    if node.how.filters then []
    else
      (right.filter fun c => !(E.coalesces node && decide (c ∈ node.rightOn))).map fun c =>
        (if c ∈ left then c ++ node.suffix else c, .right c)

/-- A joined row's value from a source. -/
def value (E : Engine V ε) (left right : Frame V) (pair : ℕ × Option ℕ) : Source → V
  | .left c => ((left.rows[pair.1]?).bind fun row => Assoc.get? row c).getD E.null
  | .right c =>
    ((pair.2.bind fun j => right.rows[j]?).bind fun row => Assoc.get? row c).getD E.null

/-- `LazyFrame.join`. -/
def join (E : Engine V ε) (node : JoinNode) (left right : Frame V) : Except ε (Frame V) :=
  if node.how.mechanical then
    if (∃ k ∈ node.leftOn, k ∉ left.columns) ∨ ∃ k ∈ node.rightOn, k ∉ right.columns then
      .error E.columnNotFound
    else if h : ((outputs E node left.columns right.columns).map Prod.fst).Nodup then
      match E.matching node (left.keyTuples node.leftOn) (right.keyTuples node.rightOn) with
      | .error e => .error e
      | .ok pairs => .ok {
          columns := (outputs E node left.columns right.columns).map Prod.fst
          rows := pairs.map fun pair => (outputs E node left.columns right.columns).map fun o =>
            (o.1, value E left right pair o.2)
          nodup := h
          aligned := by
            intro row hrow
            obtain ⟨pair, -, rfl⟩ := List.mem_map.mp hrow
            simp [Assoc.keys] }
    else .error E.duplicateColumn
  else E.other node left right

/-- What a join of such a kind gives. -/
theorem join_eq_ok_iff {E : Engine V ε} {node : JoinNode} {left right out : Frame V}
    (hhow : node.how.mechanical = true) : join E node left right = .ok out ↔
      (∀ k ∈ node.leftOn, k ∈ left.columns) ∧ (∀ k ∈ node.rightOn, k ∈ right.columns) ∧
      ((outputs E node left.columns right.columns).map Prod.fst).Nodup ∧
      ∃ pairs, E.matching node (left.keyTuples node.leftOn) (right.keyTuples node.rightOn) =
          .ok pairs ∧
        out.columns = (outputs E node left.columns right.columns).map Prod.fst ∧
        out.rows = pairs.map fun pair => (outputs E node left.columns right.columns).map fun o =>
          (o.1, value E left right pair o.2) := by
  rw [join, if_pos hhow]
  split_ifs with hkeys hnodup
  · refine iff_of_false (by simp) fun h => ?_
    rcases hkeys with ⟨k, hk, hnot⟩ | ⟨k, hk, hnot⟩
    · exact hnot (h.1 k hk)
    · exact hnot (h.2.1 k hk)
  · have hleft : ∀ k ∈ node.leftOn, k ∈ left.columns := by
      intro k hk
      by_contra hnot
      exact hkeys (.inl ⟨k, hk, hnot⟩)
    have hright : ∀ k ∈ node.rightOn, k ∈ right.columns := by
      intro k hk
      by_contra hnot
      exact hkeys (.inr ⟨k, hk, hnot⟩)
    cases hpairs : E.matching node (left.keyTuples node.leftOn) (right.keyTuples node.rightOn) with
    | error e => simp
    | ok pairs =>
      rw [Except.ok.injEq, Frame.ext_iff]
      constructor
      · rintro ⟨hcolumns, hrows⟩
        exact ⟨hleft, hright, hnodup, pairs, rfl, hcolumns.symm, hrows.symm⟩
      · rintro ⟨-, -, -, _, hsame, hcolumns, hrows⟩
        obtain rfl := Except.ok.inj hsame
        exact ⟨hcolumns.symm, hrows.symm⟩
  · exact iff_of_false (by simp) fun h => hnodup h.2.2.1

theorem exists_join {E : Engine V ε} {node : JoinNode} {left right : Frame V}
    {pairs : List (ℕ × Option ℕ)} (hhow : node.how.mechanical = true)
    (hl : ∀ k ∈ node.leftOn, k ∈ left.columns) (hr : ∀ k ∈ node.rightOn, k ∈ right.columns)
    (hnodup : ((outputs E node left.columns right.columns).map Prod.fst).Nodup)
    (hpairs : E.matching node (left.keyTuples node.leftOn) (right.keyTuples node.rightOn) =
      .ok pairs) : ∃ out, join E node left right = .ok out := by
  have hkeys : ¬((∃ k ∈ node.leftOn, k ∉ left.columns) ∨ ∃ k ∈ node.rightOn, k ∉ right.columns) :=
    by
    rintro (⟨k, hk, hnot⟩ | ⟨k, hk, hnot⟩)
    · exact hnot (hl k hk)
    · exact hnot (hr k hk)
  rw [join, if_pos hhow, if_neg hkeys, dif_pos hnodup, hpairs]
  exact ⟨_, rfl⟩

/-- A column's values are those its source has in the rows that are joined. -/
theorem column_eq {E : Engine V ε} {node : JoinNode} {left right out : Frame V}
    {pairs : List (ℕ × Option ℕ)}
    (hnodup : ((outputs E node left.columns right.columns).map Prod.fst).Nodup)
    (hrows : out.rows = pairs.map fun pair =>
      (outputs E node left.columns right.columns).map fun o =>
      (o.1, value E left right pair o.2))
    {c : String} {s : Source} (h : (c, s) ∈ outputs E node left.columns right.columns) :
    out.column c = pairs.map fun pair => some (value E left right pair s) := by
  rw [Frame.column, hrows, List.map_map]
  refine List.map_congr_left fun pair _ => ?_
  refine Assoc.get?_eq_some_of_mem ?_ (List.mem_map.mpr ⟨(c, s), h, rfl⟩)
  simpa [Assoc.keys, Function.comp_def] using hnodup

/-- A source that is kept has the same values. -/
theorem value_restrict {E : Engine V ε} {left right : Frame V} {ld rd : Finset String}
    {s : Source} (hl : ∀ c, s = .left c → c ∈ ld) (hr : ∀ c, s = .right c → c ∈ rd)
    (pair : ℕ × Option ℕ) :
    value E (left.restrict ld) (right.restrict rd) pair s = value E left right pair s := by
  have hread : ∀ (f : Frame V) (cs : Finset String) (c : String) (i : ℕ), c ∈ cs →
      ((f.restrict cs).rows[i]?).bind (fun row => Assoc.get? row c) =
        (f.rows[i]?).bind fun row => Assoc.get? row c := by
    intro f cs c i hc
    rw [Frame.restrict, List.getElem?_map]
    cases f.rows[i]? with
    | none => rfl
    | some row => exact Frame.get?_restrict hc row
  cases s with
  | left c => rw [value, value, hread left ld c pair.1 (hl c rfl)]
  | right c =>
    rw [value, value]
    cases pair.2 with
    | none => rfl
    | some j => exact congrArg (Option.getD · E.null) (hread right rd c j (hr c rfl))

end Haute.Join
