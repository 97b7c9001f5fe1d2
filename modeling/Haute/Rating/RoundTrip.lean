import Haute.Rating.Grid

/-!
# A grid read back
-/

namespace Haute.Rating

open Haute.Data

variable {F : Type}

/-! ### What is laid out -/

theorem toJson_sortKeys (c : Cell F) : c.toJson.sortKeys = c.toJson := by
  cases c <;> rfl

theorem toJson_injective : Function.Injective (Cell.toJson : Cell F → Json F) := by
  intro c d h
  cases c <;> cases d <;> simp_all [Cell.toJson]

theorem levelKey_injective (T : FloatText F) :
    Function.Injective fun c : Cell F => levelKey T c.toJson := by
  intro c d h
  have hkeys := (Json.dumps_eq_iff T).mp h
  rw [toJson_sortKeys, toJson_sortKeys] at hkeys
  exact toJson_injective hkeys

theorem levelsKey_injective (T : FloatText F) :
    Function.Injective fun cs : List (Cell F) => levelKey T (.arr (cs.map Cell.toJson)) := by
  intro cs ds h
  have hkeys := Json.sortKeys_arr_inj.mp ((Json.dumps_eq_iff T).mp h)
  simp only [List.map_map, Function.comp_def, toJson_sortKeys] at hkeys
  exact List.map_injective_iff.mpr toJson_injective hkeys

theorem setDefault_map {α : Type} [DecidableEq α] {key : α → String}
    (hinj : Function.Injective key) (xs : List α) (y : α) :
    setDefault (xs.map fun x => (key x, x)) (key y) y =
      (register xs y).map fun x => (key x, x) := by
  have hmem : key y ∈ Assoc.keys (xs.map fun x => (key x, x)) ↔ y ∈ xs := by
    simp [Assoc.keys, hinj.eq_iff]
  unfold setDefault register
  simp only [hmem]
  split_ifs <;> simp

variable [DecidableEq F]

section Layout

variable (T : FloatText F) (said : List (List (Cell F) × Cell F × Cell F))

theorem layout_keys (cols : List (Cell F)) (rows : List (List (Cell F)))
    (cells : List ((String × String) × Cell F)) :
    let p := said.foldl (Layout.put T) ⟨cols.map fun c => (levelKey T c.toJson, c),
      rows.map fun r => (levelKey T (.arr (r.map Cell.toJson)), r), cells⟩
    p.columns = ((said.map fun e => e.2.1).foldl register cols).map
        (fun c => (levelKey T c.toJson, c)) ∧
      p.rows = ((said.map Prod.fst).foldl register rows).map
        (fun r => (levelKey T (.arr (r.map Cell.toJson)), r)) := by
  induction said generalizing cols rows cells with
  | nil => exact ⟨rfl, rfl⟩
  | cons e said ih =>
    rw [List.foldl_cons, Layout.put, setDefault_map (levelKey_injective T),
      setDefault_map (levelsKey_injective T)]
    exact ih _ _ _

theorem layout_cells (p : Layout F) (r : List (Cell F)) (c : Cell F) :
    (Assoc.get? (said.foldl (Layout.put T) p).cells
        (levelKey T (.arr (r.map Cell.toJson)), levelKey T c.toJson)).getD .null =
      cellAt ((Assoc.get? p.cells
        (levelKey T (.arr (r.map Cell.toJson)), levelKey T c.toJson)).getD .null) said r c := by
  induction said generalizing p with
  | nil => rfl
  | cons e said ih =>
    have hkey : (levelKey T (.arr (r.map Cell.toJson)), levelKey T c.toJson) =
        (levelKey T (.arr (e.1.map Cell.toJson)), levelKey T e.2.1.toJson) ↔
          e.1 = r ∧ e.2.1 = c := by
      rw [Prod.mk.injEq, (levelsKey_injective T).eq_iff, (levelKey_injective T).eq_iff]
      exact and_congr eq_comm eq_comm
    rw [List.foldl_cons, ih, cellAt, cellAt, List.foldl_cons]
    congr 1
    rw [Layout.put, Assoc.set, Assoc.get?_upsert]
    simp only [hkey]
    split_ifs <;> rfl

/-- **What is laid out is the library's pivot.** -/
theorem layout_spec : let p := said.foldl (Layout.put T) ⟨[], [], []⟩
    p.columns.map Prod.snd = (pivot .null said).cols ∧
      p.grid = (pivot .null said).rows.map fun row => row.1 ++ row.2 := by
  have hkeys := layout_keys T said [] [] []
  simp only [List.map_nil] at hkeys
  obtain ⟨hcols, hrows⟩ := hkeys
  refine ⟨by simp [hcols, pivot, firsts, Function.comp_def], ?_⟩
  simp only [Layout.grid, hrows, hcols, Assoc.keys, List.map_map]
  unfold pivot
  rw [List.map_map]
  refine List.map_congr_left fun r _ => ?_
  simp only [Function.comp_apply]
  congr 1
  refine List.map_congr_left fun c _ => ?_
  exact layout_cells T said ⟨[], [], []⟩ r c

end Layout

/-! ### What is read -/

omit [DecidableEq F] in
theorem dict_eq_self {items : List (String × Cell F)} (h : (items.map Prod.fst).Nodup) :
    dict items = items := by
  have hfold : ∀ d : Entry F, (Assoc.keys (d ++ items)).Nodup →
      items.foldl (fun d i => Assoc.set d i.1 i.2) d = d ++ items := by
    clear h
    induction items with
    | nil => simp
    | cons i items ih =>
      intro d hd
      have hi : i.1 ∉ Assoc.keys d := by
        rw [Assoc.keys_append, Assoc.keys_cons] at hd
        exact fun hmem => List.disjoint_of_nodup_append hd hmem List.mem_cons_self
      have hput : Assoc.set d i.1 i.2 = d ++ [i] := Assoc.upsert_of_notMem hi _
      rw [List.foldl_cons, hput, ih _ (by simpa using hd), List.append_assoc, List.singleton_append]
  exact hfold [] h

omit [DecidableEq F] in
theorem item_of_mem {e : Entry F} (h : (Assoc.keys e).Nodup) {key : String} {c : Cell F}
    (hmem : (key, c) ∈ e) : item e key = .ok c := by
  rw [item, Assoc.get?_eq_some_of_mem h hmem]

/-- The factors a table can have: distinct columns, none under the rate's key. -/
structure Usable (factors : List String) : Prop where
  nonempty : factors ≠ []
  nodup : factors.Nodup
  rate : rateKey ∉ factors

/-- The entry that says so. -/
def entryOf (leading : List String) (last : String) (s : List (Cell F) × Cell F × Cell F) :
    Entry F := dict (leading.zip s.1 ++ [(last, s.2.1), (rateKey, s.2.2)])

omit [DecidableEq F] in
theorem keys_entryOf {leading : List String} (last : String)
    {s : List (Cell F) × Cell F × Cell F} (hlen : leading.length = s.1.length) :
    (leading.zip s.1 ++ [(last, s.2.1), (rateKey, s.2.2)]).map Prod.fst =
      leading ++ [last] ++ [rateKey] := by
  simp [List.map_fst_zip (Nat.le_of_eq hlen)]

omit [DecidableEq F] in
theorem readEntry_entryOf {leading : List String} {last : String} (h : Usable (leading ++ [last]))
    {s : List (Cell F) × Cell F × Cell F} (hlen : leading.length = s.1.length) :
    readEntry leading last (entryOf leading last s) = .ok s := by
  have hkeys : ((leading.zip s.1 ++ [(last, s.2.1), (rateKey, s.2.2)]).map Prod.fst).Nodup := by
    rw [keys_entryOf last hlen]
    exact List.nodup_append_comm.mp (List.nodup_cons.mpr ⟨h.rate, h.nodup⟩)
  unfold entryOf
  rw [dict_eq_self hkeys]
  have hlevels : leading.mapM (item (leading.zip s.1 ++ [(last, s.2.1), (rateKey, s.2.2)])) =
      .ok s.1 := by
    refine mapM_of_forall₂ (List.forall₂_iff_zip.mpr ⟨hlen, fun {k c} hmem => ?_⟩)
    exact item_of_mem hkeys (List.mem_append_left _ hmem)
  rw [readEntry, item_of_mem hkeys (c := s.2.1) (by simp), hlevels,
    item_of_mem hkeys (c := s.2.2) (by simp)]
  rfl

/-- Columns and rows as a grid, so many levels first in each row. -/
def asGrid (levels : ℕ) (columns : List (Cell F)) (rows : List (List (Cell F))) :
    PivotGrid (List (Cell F)) (Cell F) (Cell F) :=
  ⟨columns, rows.map fun row => (row.take levels, row.drop levels)⟩

theorem readRows_eq_ok_iff {table : ℕ} {leading : List String} {last : String}
    {columns : List (Cell F)} {i : ℕ} {rows : List (List (Cell F))} {entries : List (Entry F)} :
    readRows table leading last columns i rows = .ok entries ↔
      (∀ row ∈ rows, row.length = leading.length + columns.length) ∧
        entries = (unpivot .null (asGrid leading.length columns rows)).map
          (entryOf leading last) := by
  induction rows generalizing i entries with
  | nil =>
    simp only [readRows, asGrid, unpivot, List.map_nil, List.flatMap_nil, Except.ok.injEq,
      List.not_mem_nil, false_imp_iff, implies_true, true_and]
    exact eq_comm
  | cons row rows ih =>
    have hrow : rowItems leading last columns row =
        (rowEntries .null columns (row.take leading.length, row.drop leading.length)).map
          (entryOf leading last) := by
      rw [rowItems, rowEntries, List.map_map]
      rfl
    rw [readRows]
    split_ifs with hwidth
    · exact iff_of_false (by simp) fun h => hwidth (h.1 row List.mem_cons_self)
    · rw [bind_eq_ok]
      simp only [ih, List.forall_mem_cons, not_not.mp hwidth, true_and, hrow, asGrid, unpivot,
        List.map_cons, List.flatMap_cons, List.map_append, Except.ok.injEq]
      constructor
      · rintro ⟨rest, ⟨hwidths, rfl⟩, rfl⟩
        exact ⟨hwidths, rfl⟩
      · rintro ⟨hwidths, rfl⟩
        exact ⟨_, ⟨hwidths, rfl⟩, rfl⟩

theorem readPairs_eq_ok_iff {table : ℕ} {factor : String} {i : ℕ} {rows : List (List (Cell F))}
    {entries : List (Entry F)} :
    readPairs table factor i rows = .ok entries ↔
      ∃ pairs : List (Cell F × Cell F), rows = pairs.map (fun p => [p.1, p.2]) ∧
        entries = (pairs.filter fun p => decide (p.2 ≠ .null)).map fun p =>
          dict [(factor, p.1), (rateKey, p.2)] := by
  induction rows generalizing i entries with
  | nil =>
    rw [readPairs]
    constructor
    · rintro ⟨⟩
      exact ⟨[], rfl, rfl⟩
    · rintro ⟨pairs, hrows, rfl⟩
      rw [List.map_eq_nil_iff.mp hrows.symm]
      rfl
  | cons row rows ih =>
    constructor
    · intro h
      match row with
      | [] | [_] | _ :: _ :: _ :: _ => cases h
      | [level, rate] =>
        obtain ⟨rest, hrest, hentries⟩ := bind_eq_ok.mp h
        obtain ⟨pairs, rfl, rfl⟩ := ih.mp hrest
        refine ⟨(level, rate) :: pairs, rfl, ?_⟩
        obtain rfl := Except.ok.inj hentries
        by_cases hrate : rate = .null <;> simp [hrate]
    · rintro ⟨pairs, hrows, rfl⟩
      match pairs with
      | [] => cases hrows
      | (level, rate) :: pairs =>
        obtain ⟨rfl, rfl⟩ := List.cons.inj hrows
        refine bind_eq_ok.mpr ⟨_, ih.mpr ⟨pairs, rfl, rfl⟩, ?_⟩
        by_cases hrate : rate = .null <;> simp [hrate]

end Haute.Rating
