import Haute.Fingerprint.Identity
import Haute.Rating.RoundTrip

/-!
# Grids and entries
-/

namespace Haute.Rating

open Haute.Data Haute.Fingerprint

variable {F : Type}

/-- A table's mapping: at each combination of levels, in the order of the factors, its rate. -/
def mapping (factors : List String) (entries : List (Entry F)) :
    List (List (Option (Cell F)) × Option (Cell F)) :=
  entries.map fun e => (factors.map (Assoc.get? e), Assoc.get? e rateKey)

/-- An entry's item is read exactly when the entry has its key. -/
theorem item_eq_ok_iff {e : Entry F} {key : String} {c : Cell F} :
    item e key = .ok c ↔ Assoc.get? e key = some c := by
  unfold item
  split <;> simp_all

/-- Entries with no key but the factors and the rate pass. -/
theorem checkKeys_eq_ok {factors : List String} {entries : List (Entry F)}
    (h : ∀ e ∈ entries, ∀ key ∈ Assoc.keys e, key ∈ factors ∨ key = rateKey) :
    checkKeys factors entries = .ok () := by
  induction entries with
  | nil => rfl
  | cons e entries ih =>
    have hextra : extraKeys factors e = [] := by
      rw [extraKeys, List.filter_eq_nil_iff.mpr, List.mergeSort_nil]
      intro key hkey
      rcases h e List.mem_cons_self key hkey with hk | hk <;> simp [hk]
    rw [checkKeys, hextra]
    exact ih fun e he => h e (List.mem_cons_of_mem _ he)

theorem dropLast_append_getLastD {factors : List String} (h : factors ≠ []) :
    factors.dropLast ++ [factors.getLastD ""] = factors := by
  rw [List.getLastD_eq_getLast?, List.getLast?_eq_some_getLast h, Option.getD_some,
    List.dropLast_append_getLast]

/-- How many levels stand first in each row of a grid. -/
def levelCount (factors : List String) : ℕ := max 1 (factors.length - 1)

/-- The combination of levels of each row. -/
def combinations (grid : Table F) : List (List (Cell F)) :=
  (grid.rows.getD []).map (List.take (levelCount grid.factors))

variable [DecidableEq F]

/-- Whether a row holds a rate. -/
def HasRate (factors : List String) (row : List (Cell F)) : Prop :=
  ∃ v ∈ row.drop (levelCount factors), v ≠ .null

instance (factors : List String) (row : List (Cell F)) : Decidable (HasRate factors row) :=
  inferInstanceAs (Decidable (∃ v ∈ row.drop (levelCount factors), v ≠ .null))

/-- Whether writing again what was read from a grid gives it back: every row has a rate and, where
there are columns, the rows' combinations are distinct and the columns stand in the order in which
the rows first give them a rate. -/
def Rewritten (grid : Table F) : Prop :=
  match grid.columns with
  | none => ∀ row ∈ grid.rows.getD [], HasRate grid.factors row
  | some columns =>
    (asGrid (levelCount grid.factors) columns (grid.rows.getD [])).Settled .null

/-- How a grid written again compares with the grid it was read from. -/
structure Regridded (grid grid' : Table F) : Prop where
  /-- It is the grid exactly when the grid stands as it is written. -/
  same_iff : grid' = grid ↔ Rewritten grid
  /-- The rows that have a rate come back in their order. -/
  combinations : (combinations grid).Nodup → combinations grid' =
    ((grid.rows.getD []).filter fun row => decide (HasRate grid.factors row)).map
      (List.take (levelCount grid.factors))
  /-- The columns come back in the order in which the rows first give them a rate. -/
  columns : grid'.columns = grid.columns.map fun columns => firsts ((unpivot .null
    (asGrid (levelCount grid.factors) columns (grid.rows.getD []))).map fun s => s.2.1)

/-! ### More than one factor -/

section Many

variable {T : FloatText F} {index : ℕ} {table grid : Table F}

/-- Several factors are made a grid by pivoting the entries said. -/
theorem gridFromEntries_many (hmany : 2 ≤ table.factors.length) {entries : List (Entry F)}
    (hentries : table.entries = some entries) :
    gridFromEntries T table = .ok grid ↔ checkKeys table.factors entries = .ok () ∧
      ∃ said, entries.mapM (readEntry table.factors.dropLast (table.factors.getLastD "")) =
          .ok said ∧
        grid = { table with
          entries := none
          columns := some (pivot .null said).cols
          rows := some ((pivot .null said).rows.map fun row => row.1 ++ row.2) } := by
  obtain ⟨factors, settings, _, columns, rows⟩ := table
  obtain rfl : _ = some entries := hentries
  match factors, hmany with
  | a :: b :: rest, _ =>
    simp only [gridFromEntries, bind_eq_ok, Except.ok.injEq, layout_spec T _]
    constructor
    · rintro ⟨⟨⟩, hcheck, said, hsaid, rfl⟩
      exact ⟨hcheck, said, hsaid, rfl⟩
    · rintro ⟨hcheck, said, hsaid, rfl⟩
      exact ⟨(), hcheck, said, hsaid, rfl⟩

/-- A grid of several factors is made entries by unpivoting its rows. -/
theorem entriesFromGrid_many (hmany : 2 ≤ grid.factors.length) {rows : List (List (Cell F))}
    (hrows : grid.rows = some rows) :
    entriesFromGrid index grid = .ok table ↔ grid.entries = none ∧
      ∃ columns, grid.columns = some columns ∧
        (∀ row ∈ rows, row.length = levelCount grid.factors + columns.length) ∧
        table = { grid with
          entries := some ((unpivot .null (asGrid (levelCount grid.factors) columns rows)).map
            (entryOf grid.factors.dropLast (grid.factors.getLastD "")))
          columns := none
          rows := none } := by
  obtain ⟨factors, settings, entries, columns, _⟩ := grid
  obtain rfl : _ = some rows := hrows
  match factors, hmany with
  | a :: b :: rest, _ =>
    have hcount : levelCount (a :: b :: rest) = (a :: b :: rest).dropLast.length := by
      simp [levelCount]
    rw [hcount]
    unfold entriesFromGrid
    cases entries with
    | some entries => simp
    | none =>
      cases columns with
      | none => simp
      | some columns =>
        simp only [Option.isSome_none, Bool.false_eq_true, if_false, bind_eq_ok,
          readRows_eq_ok_iff, Except.ok.injEq, true_and, Option.some.injEq, exists_eq_left']
        constructor
        · rintro ⟨_, ⟨hwidth, rfl⟩, rfl⟩
          exact ⟨hwidth, rfl⟩
        · rintro ⟨hwidth, rfl⟩
          exact ⟨_, ⟨hwidth, rfl⟩, rfl⟩

omit [DecidableEq F] in
/-- The mapping of entries is what they say. -/
theorem mapping_of_said {leading : List String} {last : String} {entries : List (Entry F)}
    {said : List (List (Cell F) × Cell F × Cell F)}
    (h : List.Forall₂ (fun e s => readEntry leading last e = .ok s) entries said) :
    mapping (leading ++ [last]) entries =
      said.map fun s => ((s.1 ++ [s.2.1]).map some, some s.2.2) := by
  induction h with
  | nil => rfl
  | @cons e s _ _ he _ ih =>
    obtain ⟨column, hcolumn, he⟩ := bind_eq_ok.mp he
    obtain ⟨levels, hlevels, he⟩ := bind_eq_ok.mp he
    obtain ⟨rate, hrate, he⟩ := bind_eq_ok.mp he
    obtain rfl := Except.ok.inj he
    have hread : leading.map (Assoc.get? e) = levels.map some := by
      rw [← List.forall₂_eq_eq_eq, List.forall₂_map_left_iff, List.forall₂_map_right_iff]
      exact (forall₂_of_mapM hlevels).imp fun k c hk => item_eq_ok_iff.mp hk
    rw [List.map_cons, ← ih, mapping, List.map_cons, List.map_append, hread, List.map_append,
      item_eq_ok_iff.mp hrate, List.map_cons, item_eq_ok_iff.mp hcolumn]
    rfl

omit [DecidableEq F] in
/-- An entry says one level for each leading factor. -/
theorem length_of_said {leading : List String} {last : String} {entries : List (Entry F)}
    {said : List (List (Cell F) × Cell F × Cell F)}
    (h : List.Forall₂ (fun e s => readEntry leading last e = .ok s) entries said) :
    ∀ s ∈ said, leading.length = s.1.length := by
  induction h with
  | nil => simp
  | cons he _ ih =>
    obtain ⟨column, -, he⟩ := bind_eq_ok.mp he
    obtain ⟨levels, hlevels, he⟩ := bind_eq_ok.mp he
    obtain ⟨rate, -, he⟩ := bind_eq_ok.mp he
    obtain rfl := Except.ok.inj he
    exact List.forall_mem_cons.mpr ⟨(forall₂_of_mapM hlevels).length_eq, ih⟩

omit [DecidableEq F] in
/-- Entries written from what is said say it. -/
theorem said_of_entries {leading : List String} {last : String} (h : Usable (leading ++ [last]))
    {said : List (List (Cell F) × Cell F × Cell F)}
    (hlen : ∀ s ∈ said, leading.length = s.1.length) :
    List.Forall₂ (fun e s => readEntry leading last e = .ok s)
      (said.map (entryOf leading last)) said := by
  rw [List.forall₂_map_left_iff, List.forall₂_same]
  exact fun s hs => readEntry_entryOf h (hlen s hs)

omit [DecidableEq F] in
/-- Entries written from what is said have no other key. -/
theorem checkKeys_entries {leading : List String} {last : String}
    (h : Usable (leading ++ [last])) {said : List (List (Cell F) × Cell F × Cell F)}
    (hlen : ∀ s ∈ said, leading.length = s.1.length) :
    checkKeys (leading ++ [last]) (said.map (entryOf leading last)) = .ok () := by
  refine checkKeys_eq_ok fun e he key hkey => ?_
  obtain ⟨s, hs, rfl⟩ := List.mem_map.mp he
  have hkeys := keys_entryOf last (hlen s hs)
  have hnodup : ((leading.zip s.1 ++ [(last, s.2.1), (rateKey, s.2.2)]).map Prod.fst).Nodup := by
    rw [hkeys]
    exact List.nodup_append_comm.mp (List.nodup_cons.mpr ⟨h.rate, h.nodup⟩)
  rw [entryOf, dict_eq_self hnodup, Assoc.keys, hkeys, List.mem_append,
    List.mem_singleton] at hkey
  exact hkey

/-- What a grid says has so many levels each. -/
theorem length_of_unpivot {levels : ℕ} {columns : List (Cell F)} {rows : List (List (Cell F))}
    (hwidth : ∀ row ∈ rows, row.length = levels + columns.length) :
    ∀ s ∈ unpivot .null (asGrid levels columns rows), levels = s.1.length := by
  intro s hs
  obtain ⟨vs, hvs, -⟩ := mem_unpivot.mp hs
  obtain ⟨row, hrow, heq⟩ := List.mem_map.mp hvs
  rw [← (Prod.mk.inj heq).1, List.length_take, hwidth row hrow]
  omega

/-- Each row of a pivot has one level for each leading factor. -/
theorem length_of_pivot {levels : ℕ} {columns : List (Cell F)} {rows : List (List (Cell F))}
    (hwidth : ∀ row ∈ rows, row.length = levels + columns.length) :
    ∀ row ∈ (pivot .null (unpivot .null (asGrid levels columns rows))).rows,
      levels = row.1.length := by
  intro row hrow
  obtain ⟨r, hr, rfl⟩ := List.mem_map.mp hrow
  obtain ⟨s, hs, rfl⟩ := List.mem_map.mp (mem_firsts.mp hr)
  exact length_of_unpivot hwidth s hs

omit [DecidableEq F] in
/-- Each row of a grid has one cell for each column. -/
theorem width_of_asGrid {levels : ℕ} {columns : List (Cell F)} {rows : List (List (Cell F))}
    (hwidth : ∀ row ∈ rows, row.length = levels + columns.length) :
    ∀ row ∈ (asGrid levels columns rows).rows, columns.length = row.2.length := by
  intro row hrow
  obtain ⟨row', hrow', rfl⟩ := List.mem_map.mp hrow
  rw [List.length_drop, hwidth row' hrow']
  omega

/-- A grid's rows are those of what it says, pivoted, exactly when it is settled. -/
theorem rows_eq_iff {levels : ℕ} {columns : List (Cell F)} {rows : List (List (Cell F))}
    (hwidth : ∀ row ∈ rows, row.length = levels + columns.length) :
    let g := asGrid levels columns rows
    ((pivot .null (unpivot .null g)).cols = columns ∧
      (pivot .null (unpivot .null g)).rows.map (fun row => row.1 ++ row.2) = rows) ↔
      g.Settled .null := by
  intro g
  rw [← pivot_unpivot_eq_iff (width_of_asGrid hwidth)]
  constructor
  · rintro ⟨hcols, hrows⟩
    refine PivotGrid.ext hcols ?_
    calc (pivot .null (unpivot .null g)).rows
        = ((pivot .null (unpivot .null g)).rows.map fun row => row.1 ++ row.2).map
            fun row => (row.take levels, row.drop levels) := by
          rw [List.map_map]
          refine (map_eq_self fun row hrow => ?_).symm
          simp [length_of_pivot hwidth row hrow]
      _ = g.rows := by rw [hrows]; rfl
  · intro h
    refine ⟨congrArg PivotGrid.cols h, ?_⟩
    rw [h]
    simp [asGrid, Function.comp_def]

/-- Read and written again, a grid with more than one factor. -/
theorem regridded_many (hmany : 2 ≤ grid.factors.length) (husable : Usable grid.factors)
    {rows : List (List (Cell F))} (hrows : grid.rows = some rows)
    (h : entriesFromGrid index grid = .ok table) :
    ∃ grid', gridFromEntries T table = .ok grid' ∧ Regridded grid grid' := by
  obtain ⟨hentries, columns, hcolumns, hwidth, rfl⟩ := (entriesFromGrid_many hmany hrows).mp h
  have hfactors := dropLast_append_getLastD husable.nonempty
  have hcount : levelCount grid.factors = grid.factors.dropLast.length := by
    rw [levelCount, List.length_dropLast]
    omega
  have hlen : ∀ s ∈ unpivot .null (asGrid (levelCount grid.factors) columns rows),
      grid.factors.dropLast.length = s.1.length :=
    fun s hs => hcount.symm.trans (length_of_unpivot hwidth s hs)
  refine ⟨_, (gridFromEntries_many (by exact hmany) rfl).mpr ⟨?_, _, mapM_of_forall₂
    (said_of_entries (hfactors.symm ▸ husable) hlen), rfl⟩, ?_, ?_, ?_⟩
  · have := checkKeys_entries (hfactors.symm ▸ husable) hlen
    rwa [hfactors] at this
  · rw [Rewritten, hcolumns, hrows]
    refine Iff.trans ?_ (rows_eq_iff hwidth)
    rw [Table.ext_iff]
    simp [hentries, hcolumns, hrows]
  · intro hnodup
    simp only [combinations, hrows, Option.getD_some] at hnodup ⊢
    have hfst : ((asGrid (levelCount grid.factors) columns rows).rows.map Prod.fst).Nodup := by
      simpa [asGrid, Function.comp_def] using hnodup
    calc ((pivot .null _).rows.map fun row => row.1 ++ row.2).map (List.take _)
        = (pivot .null (unpivot .null (asGrid (levelCount grid.factors) columns rows))).rows.map
            Prod.fst := by
          rw [List.map_map]
          refine List.map_congr_left fun row hrow => ?_
          simp [length_of_pivot hwidth row hrow]
      _ = _ := by
          rw [rows_pivot_unpivot _ hfst (width_of_asGrid hwidth), asGrid, List.filter_map,
            List.map_map]
          rfl
  · simp [hcolumns, hrows, pivot]

/-- **The grid of entries has their mapping**, but for those without a rate. -/
theorem mapping_many (hmany : 2 ≤ table.factors.length) (husable : Usable table.factors)
    {entries : List (Entry F)} (hentries : table.entries = some entries)
    (hcolumns : table.columns = none) (hrows : table.rows = none)
    (hdistinct : ((mapping table.factors entries).map Prod.fst).Nodup)
    (h : gridFromEntries T table = .ok grid) :
    ∃ entries', entriesFromGrid index grid = .ok { table with entries := some entries' } ∧
      (mapping table.factors entries').Perm
        ((mapping table.factors entries).filter fun e => decide (e.2 ≠ some .null)) := by
  obtain ⟨-, said, hsaid, rfl⟩ := (gridFromEntries_many hmany hentries).mp h
  have hfactors := dropLast_append_getLastD husable.nonempty
  have hcount : levelCount table.factors = table.factors.dropLast.length := by
    rw [levelCount, List.length_dropLast]
    omega
  have hread := forall₂_of_mapM hsaid
  have hlevels : ∀ row ∈ (pivot .null said).rows, levelCount table.factors = row.1.length := by
    intro row hrow
    obtain ⟨r, hr, rfl⟩ := List.mem_map.mp hrow
    obtain ⟨s, hs, rfl⟩ := List.mem_map.mp (mem_firsts.mp hr)
    exact hcount.trans (length_of_said hread s hs)
  have hgrid : asGrid (levelCount table.factors) (pivot .null said).cols
      ((pivot .null said).rows.map fun row => row.1 ++ row.2) = pivot .null said := by
    refine PivotGrid.ext rfl ?_
    rw [asGrid, List.map_map]
    refine map_eq_self fun row hrow => ?_
    simp [hlevels row hrow]
  refine ⟨(unpivot .null (pivot .null said)).map
      (entryOf table.factors.dropLast (table.factors.getLastD "")),
    (entriesFromGrid_many (by exact hmany) rfl).mpr ⟨rfl, _, rfl, ?_, ?_⟩, ?_⟩
  · intro row hrow
    obtain ⟨row', hrow', rfl⟩ := List.mem_map.mp hrow
    obtain ⟨r, -, rfl⟩ := List.mem_map.mp hrow'
    rw [List.length_append, hlevels _ hrow', List.length_map]
    rfl
  · rw [hgrid, hcolumns, hrows]
  · have hsame := mapping_of_said hread
    rw [hfactors] at hsame
    have hkeys : (said.map fun s => (s.1, s.2.1)).Nodup := by
      rw [hsame, List.map_map] at hdistinct
      refine List.Nodup.of_map (fun k => (k.1 ++ [k.2]).map some) ?_
      rwa [List.map_map]
    -- two entries of one cell would have left the last alone
    have hback := unpivot_pivot_perm (.null : Cell F) hkeys
    have hlen : ∀ s ∈ unpivot .null (pivot .null said),
        table.factors.dropLast.length = s.1.length := by
      intro s hs
      exact length_of_said hread s (List.mem_of_mem_filter (hback.mem_iff.mp hs))
    have hsame' := mapping_of_said (said_of_entries (hfactors.symm ▸ husable) hlen)
    rw [hfactors] at hsame'
    rw [hsame', hsame, List.filter_map]
    refine (hback.map _).trans (List.Perm.of_eq ?_)
    congr 1
    refine List.filter_congr fun s _ => ?_
    simp

end Many

/-! ### One factor -/

section One

variable {T : FloatText F} {index : ℕ} {table grid : Table F} {factor : String}

omit [DecidableEq F] in
/-- One factor is made a grid by listing the entries said. -/
theorem gridFromEntries_one (hone : table.factors = [factor]) {entries : List (Entry F)}
    (hentries : table.entries = some entries) :
    gridFromEntries T table = .ok grid ↔ checkKeys [factor] entries = .ok () ∧
      ∃ said, entries.mapM (readEntry [] factor) = .ok said ∧
        grid = { table with
          entries := none
          rows := some (said.map fun s => [s.2.1, s.2.2]) } := by
  obtain ⟨_, settings, _, columns, rows⟩ := table
  obtain rfl : _ = [factor] := hone
  obtain rfl : _ = some entries := hentries
  have hrow : (fun e : Entry F => do
      let level ← item e factor
      let rate ← item e rateKey
      .ok [level, rate]) = fun e => (readEntry [] factor e).map fun s => [s.2.1, s.2.2] := by
    funext e
    unfold readEntry
    cases item e factor with
    | error x => rfl
    | ok level => cases item e rateKey <;> rfl
  unfold gridFromEntries
  simp only [bind_eq_ok, hrow, mapM_map]
  constructor
  · rintro ⟨⟨⟩, hcheck, rows, hrows, hgrid⟩
    cases hsaid : entries.mapM (readEntry [] factor) with
    | error e => simp [hsaid, Except.map] at hrows
    | ok said =>
      simp only [hsaid, Except.map, Except.ok.injEq] at hrows
      exact ⟨hcheck, said, rfl, hrows ▸ (Except.ok.inj hgrid).symm⟩
  · rintro ⟨hcheck, said, hsaid, rfl⟩
    exact ⟨(), hcheck, _, by rw [hsaid]; rfl, rfl⟩

/-- A grid of one factor is made entries by its rows that have a rate. -/
theorem entriesFromGrid_one (hone : grid.factors = [factor]) {rows : List (List (Cell F))}
    (hrows : grid.rows = some rows) :
    entriesFromGrid index grid = .ok table ↔ grid.entries = none ∧ grid.columns = none ∧
      ∃ pairs : List (Cell F × Cell F), rows = pairs.map (fun p => [p.1, p.2]) ∧
        table = { grid with
          entries := some ((pairs.filter fun p => decide (p.2 ≠ .null)).map fun p =>
            entryOf [] factor ([], p.1, p.2))
          columns := none
          rows := none } := by
  obtain ⟨_, settings, entries, columns, _⟩ := grid
  obtain rfl : _ = [factor] := hone
  obtain rfl : _ = some rows := hrows
  unfold entriesFromGrid
  cases entries with
  | some entries => simp
  | none =>
    cases columns with
    | some columns => simp
    | none =>
      simp only [Option.isSome_none, Bool.false_eq_true, if_false, bind_eq_ok,
        readPairs_eq_ok_iff, Except.ok.injEq, true_and]
      constructor
      · rintro ⟨_, ⟨pairs, hpairs, rfl⟩, rfl⟩
        exact ⟨pairs, hpairs, rfl⟩
      · rintro ⟨pairs, hpairs, rfl⟩
        exact ⟨_, ⟨pairs, hpairs, rfl⟩, rfl⟩

/-- A grid of one factor comes back from its entries. -/
theorem regridded_one (hone : grid.factors = [factor]) (husable : Usable grid.factors)
    {rows : List (List (Cell F))} (hrows : grid.rows = some rows)
    (h : entriesFromGrid index grid = .ok table) :
    ∃ grid', gridFromEntries T table = .ok grid' ∧ Regridded grid grid' := by
  obtain ⟨hentries, hcolumns, pairs, rfl, rfl⟩ := (entriesFromGrid_one hone hrows).mp h
  have hcount : levelCount grid.factors = 1 := by rw [hone]; rfl
  have hrate : ∀ p : Cell F × Cell F, HasRate grid.factors [p.1, p.2] ↔ p.2 ≠ .null := by
    intro p
    simp [HasRate, hcount]
  rw [hone] at husable
  have husable : Usable ([] ++ [factor]) := husable
  have hlen : ∀ s ∈ (pairs.filter fun p => decide (p.2 ≠ .null)).map
      (fun p => (([] : List (Cell F)), p.1, p.2)), ([] : List String).length = s.1.length := by
    intro s hs
    obtain ⟨p, -, rfl⟩ := List.mem_map.mp hs
    rfl
  have hsaid := said_of_entries husable hlen
  have hcheck := checkKeys_entries husable hlen
  rw [List.map_map] at hsaid hcheck
  refine ⟨_, (gridFromEntries_one (by exact hone) rfl).mpr ⟨hcheck, _,
    mapM_of_forall₂ hsaid, rfl⟩, ?_, ?_, ?_⟩
  · rw [Rewritten, hcolumns, hrows, Table.ext_iff]
    simp only [hentries, hcolumns, hrows, List.map_map, Option.some.injEq, true_and,
      Option.getD_some, List.forall_mem_map, hrate]
    have hinj : Function.Injective fun p : Cell F × Cell F => [p.1, p.2] := by
      intro p q heq
      simpa [Prod.ext_iff] using heq
    constructor
    · intro heq
      have hself := List.map_injective_iff.mpr hinj heq
      exact fun p hp => of_decide_eq_true (List.filter_eq_self.mp hself p hp)
    · intro hall
      rw [List.filter_eq_self.mpr fun p hp => decide_eq_true (hall p hp)]
      rfl
  · intro _
    simp only [combinations, hrows, Option.getD_some, List.map_map, List.filter_map]
    congr 1
    refine List.filter_congr fun p _ => ?_
    exact (decide_eq_decide.mpr (hrate p)).symm
  · simp [hcolumns]

/-- The entries of one factor come back from their grid as the same mapping. -/
theorem mapping_one (hone : table.factors = [factor]) (husable : Usable table.factors)
    {entries : List (Entry F)} (hentries : table.entries = some entries)
    (hcolumns : table.columns = none) (hrows : table.rows = none)
    (h : gridFromEntries T table = .ok grid) :
    ∃ entries', entriesFromGrid index grid = .ok { table with entries := some entries' } ∧
      mapping table.factors entries' =
        (mapping table.factors entries).filter fun e => decide (e.2 ≠ some .null) := by
  obtain ⟨-, said, hsaid, rfl⟩ := (gridFromEntries_one hone hentries).mp h
  have hread := forall₂_of_mapM hsaid
  obtain ⟨pairs, rfl⟩ : ∃ pairs : List (Cell F × Cell F), said = pairs.map fun p => ([], p) := by
    refine ⟨said.map Prod.snd, ?_⟩
    have hnone : ∀ s ∈ said, ([], s.2) = s := fun s hs =>
      Prod.ext (List.length_eq_zero_iff.mp (length_of_said hread s hs).symm).symm rfl
    rw [List.map_map]
    exact (map_eq_self hnone).symm
  rw [hone] at husable
  have husable : Usable ([] ++ [factor]) := husable
  have hlen : ∀ s ∈ (pairs.filter fun p => decide (p.2 ≠ .null)).map
      (fun p => (([] : List (Cell F)), p.1, p.2)), ([] : List String).length = s.1.length := by
    intro s hs
    obtain ⟨p, -, rfl⟩ := List.mem_map.mp hs
    rfl
  refine ⟨(pairs.filter fun p => decide (p.2 ≠ .null)).map fun p =>
    entryOf [] factor ([], p.1, p.2),
    (entriesFromGrid_one (by exact hone) rfl).mpr ⟨rfl, hcolumns, pairs, ?_, ?_⟩, ?_⟩
  · rw [List.map_map]
    rfl
  · rw [hcolumns, hrows]
  · have hsame := mapping_of_said hread
    have hsame' := mapping_of_said (said_of_entries husable hlen)
    rw [List.nil_append] at hsame hsame'
    rw [List.map_map] at hsame'
    rw [hone, hsame, List.filter_map, List.filter_map]
    refine hsame'.trans ?_
    rw [List.map_map, List.map_map]
    congr 1
    refine List.filter_congr fun p _ => ?_
    simp

end One

/-! ### There and back -/

/-- Usable factors are one or several. -/
theorem Usable.one_or_many {factors : List String} (h : Usable factors) :
    (∃ factor, factors = [factor]) ∨ 2 ≤ factors.length := by
  match factors with
  | [] => exact absurd rfl h.nonempty
  | [factor] => exact .inl ⟨factor, rfl⟩
  | a :: b :: rest => exact .inr (by simp)

/-- A grid has the factors of its table. -/
theorem factors_of_grid {T : FloatText F} {table grid : Table F} (husable : Usable table.factors)
    {entries : List (Entry F)} (hentries : table.entries = some entries)
    (h : gridFromEntries T table = .ok grid) :
    grid.factors = table.factors ∧ grid.rows.isSome := by
  obtain ⟨factor, hone⟩ | hmany := husable.one_or_many
  · obtain ⟨-, said, -, rfl⟩ := (gridFromEntries_one hone hentries).mp h
    exact ⟨rfl, rfl⟩
  · obtain ⟨-, said, -, rfl⟩ := (gridFromEntries_many hmany hentries).mp h
    exact ⟨rfl, rfl⟩

/-- **Grids and entries.** The grid of a table's entries, each at its own combination of levels,
reads back as entries with the same mapping, those without a rate apart. What a grid reads as is
written as a grid with the rows in their order and the columns in the order in which the rows
first give them a rate, which is the same grid exactly when that is how it stands. -/
theorem grids_and_entries (T : FloatText F) (index : ℕ) :
    (∀ (table grid : Table F) (entries : List (Entry F)), Usable table.factors →
      table.entries = some entries → table.columns = none → table.rows = none →
      ((mapping table.factors entries).map Prod.fst).Nodup →
      gridFromEntries T table = .ok grid →
      ∃ entries' grid', entriesFromGrid index grid = .ok { table with entries := some entries' } ∧
        (mapping table.factors entries').Perm
          ((mapping table.factors entries).filter fun e => decide (e.2 ≠ some .null)) ∧
        gridFromEntries T { table with entries := some entries' } = .ok grid' ∧
        Regridded grid grid') ∧
    ∀ grid table : Table F, Usable grid.factors → grid.rows.isSome →
      entriesFromGrid index grid = .ok table →
      ∃ grid', gridFromEntries T table = .ok grid' ∧ Regridded grid grid' := by
  have hagain : ∀ grid table : Table F, Usable grid.factors → grid.rows.isSome →
      entriesFromGrid index grid = .ok table →
      ∃ grid', gridFromEntries T table = .ok grid' ∧ Regridded grid grid' := by
    intro grid table husable hrows hread
    obtain ⟨rows, hrows⟩ := Option.isSome_iff_exists.mp hrows
    obtain ⟨factor, hone⟩ | hmany := husable.one_or_many
    · exact regridded_one hone husable hrows hread
    · exact regridded_many hmany husable hrows hread
  refine ⟨?_, hagain⟩
  intro table grid entries husable hentries hcolumns hrows hdistinct hwrite
  have hread : ∃ entries', entriesFromGrid index grid =
      .ok { table with entries := some entries' } ∧ (mapping table.factors entries').Perm
        ((mapping table.factors entries).filter fun e => decide (e.2 ≠ some .null)) := by
    obtain ⟨factor, hone⟩ | hmany := husable.one_or_many
    · obtain ⟨entries', hread, hsame⟩ := mapping_one hone husable hentries hcolumns hrows hwrite
      exact ⟨entries', hread, List.Perm.of_eq hsame⟩
    · exact mapping_many hmany husable hentries hcolumns hrows hdistinct hwrite
  obtain ⟨entries', hread, hsame⟩ := hread
  obtain ⟨hfactors, hsome⟩ := factors_of_grid husable hentries hwrite
  obtain ⟨grid', hagain', hcompare⟩ := hagain grid _ (hfactors ▸ husable) hsome hread
  exact ⟨entries', grid', hread, hsame, hagain', hcompare⟩

/-! A table whose first row has no rate for the second column. -/

section Skewed

/-- One entry. -/
def rated (age region : String) (rate : ℤ) : Entry ℤ :=
  [("age", .str age), ("region", .str region), (rateKey, .scalar (.int rate))]

/-- A table of ages and regions. -/
def rating (entries : Option (List (Entry ℤ))) (columns : Option (List (Cell ℤ)))
    (rows : Option (List (List (Cell ℤ)))) : Table ℤ :=
  ⟨["age", "region"], [], entries, columns, rows⟩

/-- The entries as they were given. -/
def skewed : List (Entry ℤ) :=
  [rated "young" "north" 1, rated "old" "south" 2, rated "young" "west" 3]

/-- The entries row by row. -/
def straightened : List (Entry ℤ) :=
  [rated "young" "north" 1, rated "young" "west" 3, rated "old" "south" 2]

/-- The grid of the entries as they were given. -/
def skewedGrid : Table ℤ := rating none (some [.str "north", .str "south", .str "west"])
  (some [[.str "young", .scalar (.int 1), .null, .scalar (.int 3)],
    [.str "old", .null, .scalar (.int 2), .null]])

/-- The grid of the entries row by row. -/
def straightGrid : Table ℤ := rating none (some [.str "north", .str "west", .str "south"])
  (some [[.str "young", .scalar (.int 1), .scalar (.int 3), .null],
    [.str "old", .null, .null, .scalar (.int 2)]])

theorem rated_usable : Usable ["age", "region"] := ⟨by decide, by decide, by decide⟩

theorem skewed_written :
    gridFromEntries wholeFloats (rating (some skewed) none none) = .ok skewedGrid := by
  refine (gridFromEntries_many (by decide) rfl).mpr ⟨checkKeys_eq_ok (by decide), _, rfl, ?_⟩
  exact Table.ext rfl rfl rfl (by decide) (by decide)

theorem straightened_written :
    gridFromEntries wholeFloats (rating (some straightened) none none) = .ok straightGrid := by
  refine (gridFromEntries_many (by decide) rfl).mpr ⟨checkKeys_eq_ok (by decide), _, rfl, ?_⟩
  exact Table.ext rfl rfl rfl (by decide) (by decide)

/-- Written, read and written again, a grid with another order of columns. -/
theorem skewed_reordered : ((mapping ["age", "region"] skewed).map Prod.fst).Nodup ∧
    gridFromEntries wholeFloats (rating (some skewed) none none) = .ok skewedGrid ∧
    entriesFromGrid 0 skewedGrid = .ok (rating (some straightened) none none) ∧
    gridFromEntries wholeFloats (rating (some straightened) none none) = .ok straightGrid ∧
    straightGrid ≠ skewedGrid := by
  refine ⟨by decide, skewed_written, ?_, straightened_written, ?_⟩
  · rfl
  · intro h
    exact absurd (congrArg Table.columns h) (by decide)

theorem skewed_compared : (∃ entries' grid', entriesFromGrid 0 skewedGrid =
      .ok (rating (some entries') none none) ∧
      (mapping ["age", "region"] entries').Perm
        ((mapping ["age", "region"] skewed).filter fun e => decide (e.2 ≠ some .null)) ∧
      gridFromEntries wholeFloats (rating (some entries') none none) = .ok grid' ∧
      Regridded skewedGrid grid') ∧
    ∃ grid', gridFromEntries wholeFloats (rating (some straightened) none none) = .ok grid' ∧
      Regridded skewedGrid grid' :=
  ⟨(grids_and_entries wholeFloats 0).1 (rating (some skewed) none none) skewedGrid skewed
      rated_usable rfl rfl rfl (by decide) skewed_written,
    (grids_and_entries wholeFloats 0).2 skewedGrid (rating (some straightened) none none)
      rated_usable rfl rfl⟩

end Skewed

end Haute.Rating
