import Haute.Data.Firsts
import Mathlib.Data.List.Perm.Basic
import Mathlib.Data.Prod.Basic

/-!
# Pivoting

Entries, each a value at a row and a column, laid out as a grid with a blank where no entry is,
and the grid read back. `unpivot (pivot es)` has the entries of `es` whose value is no blank, in
row-major order (`unpivot_pivot_perm`); `pivot (unpivot g)` is `g` exactly when `g` is settled,
that is when its rows are distinct and each holds a value, and its columns stand in the order in
which the rows first give them a value (`pivot_unpivot_eq_iff`).
-/

namespace Haute.Data

variable {R C V : Type}

/-- Columns, and rows of one value a column. -/
@[ext]
structure PivotGrid (R C V : Type) where
  cols : List C
  rows : List (R × List V)

/-- Columns beside a value each. -/
theorem zip_map_self (cols : List C) (f : C → V) :
    cols.zip (cols.map f) = cols.map fun c => (c, f c) := by
  simpa using List.zip_map' (f := id) (g := f) (l := cols)

section Cells

variable [DecidableEq R] [DecidableEq C] (blank : V)

/-- The value of the last entry at a row and a column. -/
def cellAt (es : List (R × C × V)) (r : R) (c : C) : V :=
  es.foldl (fun v e => if e.1 = r ∧ e.2.1 = c then e.2.2 else v) blank

/-- The entries as a grid, rows and columns where they first appear. -/
def pivot (es : List (R × C × V)) : PivotGrid R C V where
  cols := firsts (es.map fun e => e.2.1)
  rows := (firsts (es.map Prod.fst)).map fun r =>
    (r, (firsts (es.map fun e => e.2.1)).map (cellAt blank es r))

variable {blank}

theorem cellAt_append (es fs : List (R × C × V)) (r : R) (c : C) :
    cellAt blank (es ++ fs) r c = cellAt (cellAt blank es r c) fs r c :=
  List.foldl_append

theorem cellAt_of_notMem {es : List (R × C × V)} {r : R} {c : C}
    (h : ∀ v, (r, c, v) ∉ es) : cellAt blank es r c = blank := by
  induction es with
  | nil => rfl
  | cons e es ih =>
    have he : ¬(e.1 = r ∧ e.2.1 = c) := by
      rintro ⟨rfl, rfl⟩
      exact h e.2.2 List.mem_cons_self
    rw [cellAt, List.foldl_cons, if_neg he]
    exact ih fun v hv => h v (List.mem_cons_of_mem e hv)

/-- An entry that is alone at its row and column gives their value. -/
theorem cellAt_of_mem {es : List (R × C × V)} (hnodup : (es.map fun e => (e.1, e.2.1)).Nodup)
    {r : R} {c : C} {v : V} (h : (r, c, v) ∈ es) : cellAt blank es r c = v := by
  obtain ⟨as, bs, rfl⟩ := List.append_of_mem h
  rw [List.map_append, List.map_cons, List.nodup_append, List.nodup_cons] at hnodup
  have hbs : ∀ w, (r, c, w) ∉ bs := fun w hw =>
    hnodup.2.1.1 (List.mem_map.mpr ⟨(r, c, w), hw, rfl⟩)
  have hcons : cellAt (cellAt blank as r c) ((r, c, v) :: bs) r c = cellAt v bs r c := by
    rw [cellAt, List.foldl_cons, if_pos ⟨rfl, rfl⟩]
    rfl
  rw [cellAt_append, hcons, cellAt_of_notMem hbs]

/-- What a cell holds that is no blank is an entry's value. -/
theorem mem_of_cellAt {es : List (R × C × V)} {r : R} {c : C}
    (h : cellAt blank es r c ≠ blank) : ∃ v, (r, c, v) ∈ es := by
  by_contra hnone
  exact h (cellAt_of_notMem fun v hv => hnone ⟨v, hv⟩)

end Cells

/-! ### There and back -/

section Back

variable [DecidableEq V] (blank : V)

/-- The entries of one row. -/
def rowEntries (cols : List C) (row : R × List V) : List (R × C × V) :=
  ((cols.zip row.2).filter fun cv => decide (cv.2 ≠ blank)).map fun cv => (row.1, cv)

/-- The grid's entries, row by row, a blank none. -/
def unpivot (g : PivotGrid R C V) : List (R × C × V) := g.rows.flatMap (rowEntries blank g.cols)

variable {blank}

theorem mem_unpivot {g : PivotGrid R C V} {e : R × C × V} :
    e ∈ unpivot blank g ↔ ∃ vs, (e.1, vs) ∈ g.rows ∧ e.2 ∈ g.cols.zip vs ∧ e.2.2 ≠ blank := by
  unfold unpivot rowEntries
  simp only [List.mem_flatMap, List.mem_map, List.mem_filter, decide_eq_true_eq]
  constructor
  · rintro ⟨row, hrow, cv, ⟨hcv, hv⟩, rfl⟩
    exact ⟨row.2, hrow, hcv, hv⟩
  · rintro ⟨vs, hrow, hcv, hv⟩
    exact ⟨(e.1, vs), hrow, e.2, ⟨hcv, hv⟩, rfl⟩

theorem nodup_unpivot {g : PivotGrid R C V} (hrows : (g.rows.map Prod.fst).Nodup)
    (hcols : g.cols.Nodup) (hwidth : ∀ row ∈ g.rows, g.cols.length ≤ row.2.length) :
    ((unpivot blank g).map fun e => (e.1, e.2.1)).Nodup := by
  have hrow : ∀ row : R × List V, ((rowEntries blank g.cols row).map fun e => (e.1, e.2.1)) =
      (((g.cols.zip row.2).filter fun cv => decide (cv.2 ≠ blank)).map Prod.fst).map
        (Prod.mk row.1) := by
    intro row
    simp [rowEntries, Function.comp_def]
  unfold unpivot
  rw [List.map_flatMap, List.nodup_flatMap]
  refine ⟨fun row hmem => ?_, ?_⟩
  · rw [hrow]
    refine List.Nodup.map (Prod.mk_right_injective row.1) ?_
    refine List.Nodup.sublist (List.filter_sublist.map Prod.fst) ?_
    rwa [List.map_fst_zip (hwidth row hmem)]
  · rw [List.nodup_iff_pairwise_ne, List.pairwise_map] at hrows
    refine hrows.imp fun {a b} hne => ?_
    intro x hx hx'
    dsimp only at hx hx'
    rw [hrow] at hx hx'
    obtain ⟨c, -, rfl⟩ := List.mem_map.mp hx
    obtain ⟨c', -, heq⟩ := List.mem_map.mp hx'
    exact hne (Prod.mk.inj heq).1.symm

theorem rows_unpivot (g : PivotGrid R C V) : (unpivot blank g).map Prod.fst =
    g.rows.flatMap fun row => List.replicate (rowEntries blank g.cols row).length row.1 := by
  unfold unpivot
  rw [List.map_flatMap]
  refine List.flatMap_congr fun row _ => ?_
  rw [List.eq_replicate_iff]
  refine ⟨List.length_map _, fun r hr => ?_⟩
  obtain ⟨e, he, rfl⟩ := List.mem_map.mp hr
  obtain ⟨cv, -, rfl⟩ := List.mem_map.mp he
  rfl

/-- A row has an entry when it holds a value. -/
theorem rowEntries_pos_iff {cols : List C} {row : R × List V} (h : cols.length = row.2.length) :
    0 < (rowEntries blank cols row).length ↔ ∃ v ∈ row.2, v ≠ blank := by
  have hsnd : (cols.zip row.2).map Prod.snd = row.2 := List.map_snd_zip (by omega)
  unfold rowEntries
  rw [List.length_map, List.length_pos_iff_exists_mem]
  constructor
  · rintro ⟨cv, hcv⟩
    rw [List.mem_filter, decide_eq_true_eq] at hcv
    exact ⟨cv.2, hsnd ▸ List.mem_map_of_mem hcv.1, hcv.2⟩
  · rintro ⟨v, hv, hne⟩
    rw [← hsnd] at hv
    obtain ⟨cv, hcv, rfl⟩ := List.mem_map.mp hv
    exact ⟨cv, List.mem_filter.mpr ⟨hcv, decide_eq_true hne⟩⟩

variable [DecidableEq R] [DecidableEq C]

theorem mem_unpivot_pivot {es : List (R × C × V)} {e : R × C × V} :
    e ∈ unpivot blank (pivot blank es) ↔
      e.2.2 = cellAt blank es e.1 e.2.1 ∧ e.2.2 ≠ blank := by
  have hrows : ∀ vs, (e.1, vs) ∈ (pivot blank es).rows ↔ e.1 ∈ es.map Prod.fst ∧
      vs = (pivot blank es).cols.map (cellAt blank es e.1) := by
    intro vs
    unfold pivot
    simp only [List.mem_map, mem_firsts, Prod.mk.injEq]
    constructor
    · rintro ⟨r, hr, rfl, rfl⟩
      exact ⟨hr, rfl⟩
    · rintro ⟨hr, rfl⟩
      exact ⟨e.1, hr, rfl, rfl⟩
  simp only [mem_unpivot, hrows]
  constructor
  · rintro ⟨vs, ⟨-, rfl⟩, hzip, hv⟩
    rw [zip_map_self, List.mem_map] at hzip
    obtain ⟨c, -, heq⟩ := hzip
    exact ⟨by rw [← heq], hv⟩
  · rintro ⟨hcell, hv⟩
    obtain ⟨v, hmem⟩ := mem_of_cellAt (hcell ▸ hv)
    refine ⟨_, ⟨List.mem_map.mpr ⟨_, hmem, rfl⟩, rfl⟩, ?_, hv⟩
    rw [zip_map_self, List.mem_map]
    refine ⟨e.2.1, ?_, Prod.ext rfl hcell.symm⟩
    exact mem_firsts.mpr (List.mem_map.mpr ⟨_, hmem, rfl⟩)

/-- **A grid has the entries it was made from**, those with a value. -/
theorem unpivot_pivot_perm (blank : V) {es : List (R × C × V)}
    (hnodup : (es.map fun e => (e.1, e.2.1)).Nodup) :
    (unpivot blank (pivot blank es)).Perm (es.filter fun e => decide (e.2.2 ≠ blank)) := by
  have hrows : ((pivot blank es).rows.map Prod.fst).Nodup := by
    simpa [pivot, Function.comp_def] using nodup_firsts (es.map Prod.fst)
  have hwidth : ∀ row ∈ (pivot blank es).rows, (pivot blank es).cols.length ≤ row.2.length := by
    intro row hrow
    obtain ⟨r, -, rfl⟩ := List.mem_map.mp hrow
    exact Nat.le_of_eq (List.length_map _).symm
  have hback : (unpivot blank (pivot blank es)).Nodup :=
    (nodup_unpivot hrows (nodup_firsts _) hwidth).of_map
  refine (List.perm_ext_iff_of_nodup hback (hnodup.of_map.filter _)).mpr fun e => ?_
  rw [mem_unpivot_pivot, List.mem_filter, decide_eq_true_eq]
  refine and_congr_left fun hv => ⟨fun hcell => ?_, fun he => (cellAt_of_mem hnodup he).symm⟩
  obtain ⟨v, hmem⟩ := mem_of_cellAt (hcell ▸ hv)
  have hv' : v = e.2.2 := (cellAt_of_mem hnodup hmem).symm.trans hcell.symm
  obtain ⟨r, c, w⟩ := e
  obtain rfl : v = w := hv'
  exact hmem

/-! ### Back and there -/

/-- The rows are distinct, each with a value for some column, and the columns stand in the order
in which the rows first give them one. -/
structure PivotGrid.Settled (blank : V) (g : PivotGrid R C V) : Prop where
  distinct : (g.rows.map Prod.fst).Nodup
  valued : ∀ row ∈ g.rows, ∃ v ∈ row.2, v ≠ blank
  inOrder : firsts ((unpivot blank g).map fun e => e.2.1) = g.cols

/-- The rows that hold a value come back, in their order. -/
theorem rows_pivot_unpivot (blank : V) {g : PivotGrid R C V}
    (hrows : (g.rows.map Prod.fst).Nodup) (hwidth : ∀ row ∈ g.rows, g.cols.length = row.2.length) :
    (pivot blank (unpivot blank g)).rows.map Prod.fst =
      (g.rows.filter fun row => decide (∃ v ∈ row.2, v ≠ blank)).map Prod.fst := by
  calc (pivot blank (unpivot blank g)).rows.map Prod.fst
      = firsts ((unpivot blank g).map Prod.fst) := by simp [pivot, Function.comp_def]
    _ = (g.rows.filter fun row => decide (0 < (rowEntries blank g.cols row).length)).map
          Prod.fst := by rw [rows_unpivot, firsts_flatMap_replicate hrows]
    _ = _ := by
      congr 1
      refine List.filter_congr fun row hrow => ?_
      exact decide_eq_decide.mpr (rowEntries_pos_iff (hwidth row hrow))

/-- Where rows and columns are distinct, a cell is read back as it stands. -/
theorem cellAt_unpivot {g : PivotGrid R C V} (hrows : (g.rows.map Prod.fst).Nodup)
    (hcols : g.cols.Nodup) (hwidth : ∀ row ∈ g.rows, g.cols.length = row.2.length)
    {row : R × List V} (hrow : row ∈ g.rows) {cv : C × V} (hcv : cv ∈ g.cols.zip row.2) :
    cellAt blank (unpivot blank g) row.1 cv.1 = cv.2 := by
  by_cases hv : cv.2 = blank
  · -- a blank has no entry: one at its row and column would be of the same cell
    rw [hv]
    refine cellAt_of_notMem fun v hmem => ?_
    obtain ⟨vs, hvs, hzip, hne⟩ := mem_unpivot.mp hmem
    obtain ⟨-, rfl⟩ := Prod.mk.inj (List.inj_on_of_nodup_map hrows hvs hrow rfl)
    have hfst : ((g.cols.zip row.2).map Prod.fst).Nodup := by
      rwa [List.map_fst_zip (Nat.le_of_eq (hwidth row hrow))]
    have hsame := List.inj_on_of_nodup_map hfst hzip hcv rfl
    exact hne ((congrArg Prod.snd hsame).trans hv)
  · exact cellAt_of_mem (nodup_unpivot hrows hcols fun row h => Nat.le_of_eq (hwidth row h))
      (mem_unpivot.mpr ⟨row.2, hrow, hcv, hv⟩)

theorem map_eq_self {α : Type} {f : α → α} {xs : List α} (h : ∀ x ∈ xs, f x = x) :
    xs.map f = xs := by
  rw [List.map_congr_left h, List.map_id']

/-- **A grid comes back from its entries exactly when it is settled.** -/
theorem pivot_unpivot_eq_iff {g : PivotGrid R C V}
    (hwidth : ∀ row ∈ g.rows, g.cols.length = row.2.length) :
    pivot blank (unpivot blank g) = g ↔ g.Settled blank := by
  constructor
  · intro h
    have hrows : (g.rows.map Prod.fst).Nodup := by
      rw [← h]
      simpa [pivot, Function.comp_def] using nodup_firsts ((unpivot blank g).map Prod.fst)
    refine ⟨hrows, fun row hrow => ?_, congrArg PivotGrid.cols h⟩
    have hkept := rows_pivot_unpivot blank hrows hwidth
    rw [h] at hkept
    have hmem := hkept ▸ List.mem_map_of_mem (f := Prod.fst) hrow
    obtain ⟨row', hrow', heq⟩ := List.mem_map.mp hmem
    rw [List.mem_filter, decide_eq_true_eq] at hrow'
    obtain rfl := List.inj_on_of_nodup_map hrows hrow'.1 hrow heq
    exact hrow'.2
  · rintro ⟨hrows, hvalued, hcols⟩
    have hnodup : g.cols.Nodup := hcols ▸ nodup_firsts _
    have hkept := rows_pivot_unpivot blank hrows hwidth
    rw [List.filter_eq_self.mpr fun row hrow => decide_eq_true (hvalued row hrow)] at hkept
    have hfirst : firsts ((unpivot blank g).map Prod.fst) = g.rows.map Prod.fst := by
      simpa [pivot, Function.comp_def] using hkept
    refine PivotGrid.ext hcols ?_
    unfold pivot
    simp only [hcols, hfirst, List.map_map]
    refine map_eq_self fun row hrow => Prod.ext rfl ?_
    calc g.cols.map (cellAt blank (unpivot blank g) row.1)
        = (g.cols.zip row.2).map fun cv => cellAt blank (unpivot blank g) row.1 cv.1 := by
          conv_lhs => rw [← List.map_fst_zip (Nat.le_of_eq (hwidth row hrow)), List.map_map]
          rfl
      _ = (g.cols.zip row.2).map Prod.snd := by
          exact List.map_congr_left fun cv hcv => cellAt_unpivot hrows hnodup hwidth hrow hcv
      _ = row.2 := List.map_snd_zip (Nat.le_of_eq (hwidth row hrow).symm)

end Back

end Haute.Data
