import Haute.Shred.Conservation
import Haute.Shred.Ranges

/-!
# Shredding in parallel

A large JSON Lines file is shredded range by range, each in a process of its own, and the
results are put together: each table's parts in file order, the counts added up. The serial
shred reads the file in one pass. `parallel_eq_serial` says that the two give each table the
same rows in the same order, and the same counts.

What a table gets out of a record depends on the record alone: not on its number, which only
the places of losses carry (`tableTrace_alike`), and not on the order in which a process
iterates its sets. So a table's rows over a file are its rows over the pieces (`tableRows_append`),
wherever the file is cut.

`orjson.loads` is a parameter. The check that every root record was emitted or counted is left
out: `shred_conserves` says that it holds of every shred.
-/

namespace Haute.Shred

open Yielded

/-! ### The code -/

/-- A byte that `bytes.strip` strips. -/
def isByteSpace (b : UInt8) : Bool := b = 32 || (9 ≤ b && b ≤ 13)

/-- `bytes.strip`. -/
def stripBytes (bs : Bytes) : Bytes :=
  ((bs.dropWhile isByteSpace).reverse.dropWhile isByteSpace).reverse

/-- What a line holds. -/
inductive LineRecord where
  | blank
  | skipped
  | record (value : Value)

/-- The record of a line, if it has one. -/
def LineRecord.value? : LineRecord → Option Value
  | record value => some value
  | _ => none

/-- The line's value is not an object. -/
def LineRecord.isSkipped : LineRecord → Bool
  | skipped => true
  | _ => false

section Code

variable (loads : Bytes → Except PyError Value) (limit : ℕ) (specs : List EmittingTableSpec)

/-- `_jsonl_record`. -/
def jsonlRecord (rawLine : Bytes) : Except PyError LineRecord :=
  if stripBytes rawLine = [] then .ok .blank
  else (loads (stripBytes rawLine)).map fun value => if value.isDict then .record value
    else .skipped

/-- What a shred leaves: each table's rows, the skip statistics and the number of records. -/
structure ChunkResult where
  tables : OrdDict String (List (List Value))
  stats : ShredSkipStats
  recordCount : ℕ

/-- The statistics of the lines alone. -/
def lineStats (records : List LineRecord) : ShredSkipStats :=
  records.foldl (fun stats r => if r.isSkipped then stats.countRecordSkip else stats) .empty

/-- `_shred_records_into`. -/
def shredRecordsInto (order : Level → List Descent) (records : List LineRecord) :
    Except PyError ChunkResult :=
  (shredEvents specs order (records.filterMap LineRecord.value?)).toExcept.map fun events =>
    { tables := events.foldl ShredEvent.buffer (emptyBuffers specs)
      stats := events.foldl ShredEvent.count (lineStats records)
      recordCount := (records.filterMap LineRecord.value?).length }

/-- The records of some lines, shredded. -/
def shredLines (order : Level → List Descent) (rawLines : List Bytes) :
    Except PyError ChunkResult := do
  let records ← rawLines.mapM (jsonlRecord loads)
  shredRecordsInto specs order records

/-- `_write_tables_streaming`: the file in one pass. -/
def writeTablesStreaming (order : Level → List Descent) (data : Bytes) :
    Except PyError ChunkResult := do
  let rawLines ← iterLines limit data
  shredLines loads specs order rawLines

/-- `_shred_chunk`. -/
def shredChunk (order : Level → List Descent) (data : Bytes) (range : ℕ × ℕ) :
    Except PyError ChunkResult := do
  let rawLines ← iterRangeLines limit data range
  shredLines loads specs order rawLines

/-- Add one chunk's statistics. -/
def ChunkResult.mergeInto (combined : ShredSkipStats) (result : ChunkResult) : ShredSkipStats where
  skippedRecords := combined.skippedRecords + result.stats.skippedRecords
  skippedRowsByTable := result.stats.skippedRowsByTable.entries.foldl
    (fun rows e => rows.upsert e.1 fun count => count.getD 0 + e.2) combined.skippedRowsByTable

/-- `_merge_chunk_skip_stats`. -/
def mergeChunkSkipStats (results : List ChunkResult) : ShredSkipStats :=
  results.foldl ChunkResult.mergeInto .empty

/-- A table's parts in chunk order. -/
def partsOf (results : List ChunkResult) (label : String) : Except PyError (List (List Value)) :=
  (results.zipIdx.mapM fun result => expect (result.1.tables.get? label)
    (.runtime ("parallel json shred chunk " ++ toString result.2 ++ " wrote no part for table " ++
      pyRepr label ++ " — worker and parent table specs diverged"))).map List.flatten

/-- `_ShredTables`: each table's rows in file order, and the statistics. -/
structure ShredTables where
  files : List (String × List (List Value))
  stats : ShredSkipStats
  recordCount : ℕ

/-- `_write_tables_in_parallel`, each chunk with the set order of its own process. -/
def writeTablesInParallel (orders : ℕ → Level → List Descent) (data : Bytes)
    (ranges : List (ℕ × ℕ)) :
    Except PyError ShredTables := do
  let results ← ranges.zipIdx.mapM fun task =>
      shredChunk loads limit specs (orders task.2) data task.1
  let files ← specs.mapM fun spec => (partsOf results spec.label).map fun rows => (spec.label, rows)
  pure ⟨files, mergeChunkSkipStats results, (results.map ChunkResult.recordCount).sum⟩

/-- The file cut into ranges and shredded in parallel. -/
def shredInParallel (orders : ℕ → Level → List Descent) (chunk : ℕ) (data : Bytes) :
    Except PyError ShredTables := do
  let ranges ← jsonlByteRanges limit chunk data
  writeTablesInParallel loads limit specs orders data ranges

end Code

/-! ### The number of a record -/

/-- The walks raise alike, and do alike but for the numbers of records. -/
structure Alike (y z : Yielded ShredEvent) : Prop where
  raised : y.raised = none ↔ z.raised = none
  cells : y.values.filterMap ShredEvent.cells? = z.values.filterMap ShredEvent.cells?
  skips : y.values.countP ShredEvent.isSkip = z.values.countP ShredEvent.isSkip

namespace Alike

theorem refl (y : Yielded ShredEvent) : Alike y y := ⟨.rfl, rfl, rfl⟩

/-- Two skips are alike but for the record's number. -/
theorem skip {label : String} {m n : ℕ} {place : Level} {expected : Expected} :
    Alike ⟨[.skip label m place expected], none⟩ ⟨[.skip label n place expected], none⟩ :=
  ⟨.rfl, rfl, rfl⟩

/-- Alike events stay alike one after the other. -/
theorem append {y y' z z' : Yielded ShredEvent} (hy : Alike y y') (hz : Alike z z') :
    Alike (y.append z) (y'.append z') := by
  cases h : y.raised with
  | none =>
    have h' := hy.raised.mp h
    refine ⟨by rw [raised_append_iff, raised_append_iff, hy.raised, hz.raised], ?_, ?_⟩
    · rw [values_append h, values_append h', List.filterMap_append, List.filterMap_append, hy.cells,
        hz.cells]
    · rw [values_append h, values_append h', List.countP_append, List.countP_append,
        hy.skips, hz.skips]
  | some e =>
    cases h' : y'.raised with
    | none => exact absurd (hy.raised.mpr h') (by simp [h])
    | some e' =>
      have hleft : y.append z = y := by simp [Yielded.append, h]
      have hleft' : y'.append z' = y' := by simp [Yielded.append, h']
      rw [hleft, hleft']
      exact hy

/-- Loops of alike passes are alike. -/
theorem forEach {α : Type} {f g : α → Yielded ShredEvent} (h : ∀ x, Alike (f x) (g x))
    (xs : List α) :
    Alike (Yielded.forEach xs f) (Yielded.forEach xs g) := by
  induction xs with
  | nil => exact refl _
  | cons x xs ih => exact (h x).append ih

end Alike

variable {spec : EmittingTableSpec}

/-- **What a table does with a record does not depend on the record's number.** -/
theorem tableTrace_alike (m n : ℕ) (ps steps : List Step) (value : Value) (ancestors : List Value) :
    Alike (tableTrace spec m ps steps value ancestors)
      (tableTrace spec n ps steps value ancestors) := by
  induction steps generalizing ps value ancestors with
  | nil =>
    rw [tableTrace, tableTrace, emitTable, emitTable]
    split_ifs
    · exact .refl _
    · exact .skip
  | cons step steps ih =>
    cases value with
    | dict fields =>
      rw [tableTrace, tableTrace]
      cases followObjects fields [] step.1 with
      | inl inner =>
        dsimp only
        cases Value.getKey inner step.2 with
        | list items =>
          refine .forEach (fun item => ?_) items
          split_ifs
          · exact .refl _
          · exact .refl _
          · exact ih _ _ _
        | none | bool | int | float | str | date | dict =>
          rw [traceArray, traceArray]
          · split_ifs
            · exact .refl _
            · exact .skip
          all_goals exact fun _ h => by cases h
      | inr reached =>
        dsimp only
        split_ifs
        · exact .refl _
        · exact .skip
    | none | bool | int | float | str | date | list => exact .skip

/-- A table's walk over values, no record numbered. -/
def plainEvents (spec : EmittingTableSpec) (values : List Value) : Yielded ShredEvent :=
  .forEach values fun value => tableTrace spec 0 [] spec.steps value []

/-- The events of a table do not depend on the records' numbers. -/
theorem tableEvents_alike (values : List Value) :
    Alike (tableEvents spec values) (plainEvents spec values) := by
  have hfrom : ∀ n,
      Alike (.forEach (values.zipIdx n) fun r => tableTrace spec r.2 [] spec.steps r.1 [])
      (plainEvents spec values) := by
    induction values with
    | nil => exact fun _ => .refl _
    | cons value values ih => exact fun n => (tableTrace_alike n 0 _ _ _ _).append (ih (n + 1))
  exact hfrom 0

/-- A table's rows over values. -/
def tableRows (spec : EmittingTableSpec) (values : List Value) : List (List Value) :=
  (plainEvents spec values).values.filterMap ShredEvent.cells?

/-- A table's losses over values. -/
def tableSkips (spec : EmittingTableSpec) (values : List Value) : ℕ :=
  (plainEvents spec values).values.countP ShredEvent.isSkip

theorem yielded_append_assoc (x y z : Yielded ShredEvent) :
    (x.append y).append z = x.append (y.append z) := by
  cases hx : x.raised <;> cases hy : y.raised <;> simp [Yielded.append, hx, hy]

/-- The events of records in two parts are those of all. -/
theorem plainEvents_append (xs ys : List Value) :
    plainEvents spec (xs ++ ys) = (plainEvents spec xs).append (plainEvents spec ys) := by
  induction xs with
  | nil => exact (done_append _).symm
  | cons x xs ih =>
    change (tableTrace spec 0 [] spec.steps x []).append (plainEvents spec (xs ++ ys)) = _
    rw [ih, ← yielded_append_assoc]
    rfl

/-- Records raise in two parts exactly when they raise as one. -/
theorem raised_plainEvents_append {xs ys : List Value} :
    (plainEvents spec (xs ++ ys)).raised = none ↔
    (plainEvents spec xs).raised = none ∧ (plainEvents spec ys).raised = none := by
  rw [plainEvents_append, raised_append_iff]

/-- **A table's rows over a file are its rows over the pieces.** -/
theorem tableRows_append {xs ys : List Value} (h : (plainEvents spec xs).raised = none) :
    tableRows spec (xs ++ ys) = tableRows spec xs ++ tableRows spec ys ∧
      tableSkips spec (xs ++ ys) = tableSkips spec xs + tableSkips spec ys := by
  rw [tableRows, tableSkips, plainEvents_append, values_append h, List.filterMap_append,
    List.countP_append]
  exact ⟨rfl, rfl⟩

/-! ### What a shred leaves -/

variable {loads : Bytes → Except PyError Value} {limit : ℕ} {specs : List EmittingTableSpec}

/-- The values of records. -/
def valuesOf (records : List LineRecord) : List Value := records.filterMap LineRecord.value?

/-- No table raises on the records. -/
def Sound (specs : List EmittingTableSpec) (records : List LineRecord) : Prop :=
  ∀ spec ∈ specs, (plainEvents spec (valuesOf records)).raised = none

/-- What a shred of records leaves. -/
structure Shreds (specs : List EmittingTableSpec) (records : List LineRecord)
    (result : ChunkResult) :
    Prop where
  tables : ∀ spec ∈ specs,
    result.tables.get? spec.label = some (tableRows spec (valuesOf records))
  rowSkips : ∀ spec ∈ specs,
    result.stats.rowSkips spec.label = tableSkips spec (valuesOf records)
  skippedRecords : result.stats.skippedRecords = records.countP LineRecord.isSkipped
  recordCount : result.recordCount = (valuesOf records).length

/-- Lines are counted as skipped one by one, and no table's row is. -/
theorem lineStats_spec (records : List LineRecord) :
    (lineStats records).skippedRecords = records.countP LineRecord.isSkipped ∧
      (lineStats records).skippedRowsByTable = .empty := by
  have hfold : ∀ stats : ShredSkipStats,
      let after := records.foldl
        (fun stats r => if r.isSkipped then stats.countRecordSkip else stats) stats
      after.skippedRecords = stats.skippedRecords + records.countP LineRecord.isSkipped ∧
        after.skippedRowsByTable = stats.skippedRowsByTable := by
    induction records with
    | nil => exact fun _ => ⟨rfl, rfl⟩
    | cons r records ih =>
      intro stats
      rw [List.foldl_cons, List.countP_cons]
      obtain ⟨hcount, hrows⟩ := ih (if r.isSkipped then stats.countRecordSkip else stats)
      cases hr : r.isSkipped with
      | true =>
        rw [hr] at hcount hrows
        refine ⟨hcount.trans ?_, hrows⟩
        simp [ShredSkipStats.countRecordSkip]
        omega
      | false =>
        rw [hr] at hcount hrows
        exact ⟨by simpa using hcount, hrows⟩
  obtain ⟨hcount, hrows⟩ := hfold .empty
  exact ⟨by simpa [ShredSkipStats.empty, lineStats] using hcount, hrows⟩

/-- What shredding gives for records: their tables, counts and skips. -/
theorem shredRecordsInto_spec (hspecs : ValidSpecs specs) {order : Level → List Descent}
    (horder : Iterates specs order) {records : List LineRecord} {result : ChunkResult}
    (h : shredRecordsInto specs order records = .ok result) :
    Sound specs records ∧ Shreds specs records result := by
  obtain ⟨events, hevents, rfl⟩ := map_eq_ok_iff.mp h
  obtain ⟨hraised, rfl⟩ := toExcept_eq_ok_iff.mp hevents
  have hwalk := shredEvents_projects hspecs horder (valuesOf records)
  have hof : ∀ spec ∈ specs, eventsOf spec.label (shredEvents specs order (valuesOf records)).values
      = (tableEvents spec (valuesOf records)).values := hwalk.values hraised
  obtain ⟨hskipped, hempty⟩ := lineStats_spec records
  refine ⟨fun spec hspec => (tableEvents_alike _).raised.mp (hwalk.raised.mp hraised spec hspec),
    fun spec hspec => ?_, fun spec hspec => ?_, ?_, rfl⟩
  · refine (get?_foldl_buffer _ ((keys_emptyBuffers hspecs.nodupLabels).2 spec hspec)).trans ?_
    rw [List.nil_append]
    exact congrArg some ((congrArg _ (hof spec hspec)).trans (tableEvents_alike _).cells)
  · refine (rowSkips_foldl_count _ _ _).trans ?_
    rw [ShredSkipStats.rowSkips, hempty]
    exact (Nat.zero_add _).trans
      ((congrArg _ (hof spec hspec)).trans (tableEvents_alike _).skips)
  · exact (skippedRecords_foldl_count _ _).trans hskipped

instance (records : List LineRecord) : Decidable (Sound specs records) :=
  inferInstanceAs (Decidable (∀ spec ∈ specs, (plainEvents spec (valuesOf records)).raised = none))

/-- Sound records are shredded without an error. -/
theorem exists_shredRecordsInto (hspecs : ValidSpecs specs) {order : Level → List Descent}
    (horder : Iterates specs order) {records : List LineRecord} (h : Sound specs records) :
    ∃ result, shredRecordsInto specs order records = .ok result := by
  have hwalk := shredEvents_projects hspecs horder (valuesOf records)
  have hraised : (shredEvents specs order (valuesOf records)).raised = none :=
    hwalk.raised.mpr fun spec hspec => (tableEvents_alike _).raised.mpr (h spec hspec)
  exact ⟨_, map_eq_ok_iff.mpr ⟨_, toExcept_eq_ok_iff.mpr ⟨hraised, rfl⟩, rfl⟩⟩

/-- The records of some lines shred to a result. -/
def Shredded (loads : Bytes → Except PyError Value) (specs : List EmittingTableSpec)
    (rawLines : List Bytes) (result : ChunkResult) : Prop :=
  ∃ records, rawLines.mapM (jsonlRecord loads) = .ok records ∧ Sound specs records ∧
    Shreds specs records result

/-- What shredding gives for lines: that of the records they hold. -/
theorem shredLines_spec (hspecs : ValidSpecs specs) {order : Level → List Descent}
    (horder : Iterates specs order) {rawLines : List Bytes} {result : ChunkResult}
    (h : shredLines loads specs order rawLines = .ok result) :
    Shredded loads specs rawLines result := by
  obtain ⟨records, hrecords, hinto⟩ := bind_eq_ok_iff.mp h
  exact ⟨records, hrecords, shredRecordsInto_spec hspecs horder hinto⟩

/-- Lines of sound records are shredded without an error. -/
theorem exists_shredLines (hspecs : ValidSpecs specs) {order : Level → List Descent}
    (horder : Iterates specs order) {rawLines : List Bytes} {records : List LineRecord}
    (hrecords : rawLines.mapM (jsonlRecord loads) = .ok records) (h : Sound specs records) :
    ∃ result, shredLines loads specs order rawLines = .ok result := by
  obtain ⟨result, hresult⟩ := exists_shredRecordsInto hspecs horder h
  exact ⟨result, bind_eq_ok_iff.mpr ⟨records, hrecords, hresult⟩⟩

/-! ### Putting chunks together -/

theorem valuesOf_append (xs ys : List LineRecord) :
    valuesOf (xs ++ ys) = valuesOf xs ++ valuesOf ys :=
  List.filterMap_append

/-- Records are sound in two parts exactly when they are as one. -/
theorem sound_append {xs ys : List LineRecord} :
    Sound specs (xs ++ ys) ↔ Sound specs xs ∧ Sound specs ys := by
  simp only [Sound, valuesOf_append, raised_plainEvents_append, forall_and]

/-- A list is mapped in two parts exactly when it is as one. -/
theorem mapM_append_eq_ok_iff {α β : Type} {f : α → Except PyError β}
    {xs ys : List α} {zs : List β} :
    (xs ++ ys).mapM f = .ok zs ↔
      ∃ us vs, xs.mapM f = .ok us ∧ ys.mapM f = .ok vs ∧ zs = us ++ vs := by
  rw [List.mapM_append, bind_eq_ok_iff]
  constructor
  · rintro ⟨us, hus, h⟩
    obtain ⟨vs, hvs, h⟩ := bind_eq_ok_iff.mp h
    cases h
    exact ⟨us, vs, hus, hvs, rfl⟩
  · rintro ⟨us, vs, hus, hvs, rfl⟩
    exact ⟨us, hus, bind_eq_ok_iff.mpr ⟨vs, hvs, rfl⟩⟩

/-- Counts of one dict added to another. -/
theorem getD_foldl_upsert (entries : List (String × ℕ)) (hnodup : (Assoc.keys entries).Nodup)
    (rows : OrdDict String ℕ) (label : String) :
    ((entries.foldl (fun rows e => rows.upsert e.1 fun count => count.getD 0 + e.2) rows).get?
      label).getD 0 = (rows.get? label).getD 0 + (Assoc.get? entries label).getD 0 := by
  induction entries generalizing rows with
  | nil => rfl
  | cons e entries ih =>
    obtain ⟨key, count⟩ := e
    obtain ⟨hnew, hnodup⟩ := List.nodup_cons.mp hnodup
    rw [List.foldl_cons, ih hnodup, OrdDict.get?_upsert, Assoc.get?_cons]
    by_cases hlabel : label = key
    · subst hlabel
      rw [if_pos rfl, if_pos rfl, Assoc.get?_eq_none_iff.mpr hnew]
      rfl
    · rw [if_neg hlabel, if_neg (Ne.symm hlabel)]

/-- Merging a chunk adds its skipped rows. -/
theorem rowSkips_mergeInto (combined : ShredSkipStats) (result : ChunkResult) (label : String) :
    (result.mergeInto combined).rowSkips label
      = combined.rowSkips label + result.stats.rowSkips label :=
  getD_foldl_upsert _ result.stats.skippedRowsByTable.nodupKeys _ _

/-- The merged statistics are the sums of the chunks' own. -/
theorem mergeChunkSkipStats_spec (results : List ChunkResult) :
    (∀ label, (mergeChunkSkipStats results).rowSkips label
      = (results.map fun r => r.stats.rowSkips label).sum) ∧
    (mergeChunkSkipStats results).skippedRecords =
      (results.map fun r => r.stats.skippedRecords).sum := by
  have hfold : ∀ combined : ShredSkipStats,
      (∀ label, (results.foldl ChunkResult.mergeInto combined).rowSkips label
        = combined.rowSkips label + (results.map fun r => r.stats.rowSkips label).sum) ∧
      (results.foldl ChunkResult.mergeInto combined).skippedRecords
        = combined.skippedRecords + (results.map fun r => r.stats.skippedRecords).sum := by
    induction results with
    | nil => exact fun _ => ⟨fun _ => rfl, rfl⟩
    | cons r results ih =>
      intro combined
      obtain ⟨hrows, hrecords⟩ := ih (r.mergeInto combined)
      refine ⟨fun label => ?_, ?_⟩
      · rw [List.foldl_cons, hrows, rowSkips_mergeInto, List.map_cons, List.sum_cons, Nat.add_assoc]
      · rw [List.foldl_cons, hrecords, List.map_cons, List.sum_cons, ← Nat.add_assoc]
        rfl
  obtain ⟨hrows, hrecords⟩ := hfold .empty
  exact ⟨fun label => (hrows label).trans (Nat.zero_add _), hrecords.trans (Nat.zero_add _)⟩

/-- A table's parts are there when every chunk wrote one. -/
theorem partsOf_eq_ok_iff {results : List ChunkResult} {label : String} {rows : List (List Value)} :
    partsOf results label = .ok rows ↔ ∃ parts,
      List.Forall₂ (fun result part => result.tables.get? label = some part) results parts ∧
        parts.flatten = rows := by
  unfold partsOf
  rw [map_eq_ok_iff]
  refine exists_congr fun parts => and_congr_left fun _ => ?_
  simp only [mapM_eq_ok_iff, expect_eq_ok_iff]
  rw [← List.forall₂_map_left_iff (f := Prod.fst)
    (R := fun (result : ChunkResult) part => result.tables.get? label = some part),
    List.zipIdx_map_fst]

/-- What chunks hold together, against the records of all of them. -/
structure Totals (specs : List EmittingTableSpec) (records : List LineRecord)
    (results : List ChunkResult) : Prop where
  parts : ∀ spec ∈ specs, partsOf results spec.label = .ok (tableRows spec (valuesOf records))
  rowSkips : ∀ spec ∈ specs, (results.map fun r => r.stats.rowSkips spec.label).sum
    = tableSkips spec (valuesOf records)
  skippedRecords : (results.map fun r => r.stats.skippedRecords).sum
    = records.countP LineRecord.isSkipped
  recordCount : (results.map ChunkResult.recordCount).sum = (valuesOf records).length

/-- **Chunks put together are the shred of all their lines.** -/
theorem totals_of_shredded {pieces : List (List Bytes)} {results : List ChunkResult}
    (h : List.Forall₂ (Shredded loads specs) pieces results) :
    ∃ records, pieces.flatten.mapM (jsonlRecord loads) = .ok records ∧ Sound specs records ∧
      Totals specs records results := by
  induction h with
  | nil =>
    exact ⟨[], rfl, fun _ _ => rfl, fun _ _ => partsOf_eq_ok_iff.mpr ⟨[], .nil, rfl⟩,
      fun _ _ => rfl, rfl, rfl⟩
  | @cons piece result pieces results hpiece _ ih =>
    obtain ⟨first, hfirst, hsound, hshreds⟩ := hpiece
    obtain ⟨rest, hrest, hsound', htotals⟩ := ih
    refine ⟨first ++ rest, mapM_append_eq_ok_iff.mpr ⟨first, rest, hfirst, hrest, rfl⟩,
      sound_append.mpr ⟨hsound, hsound'⟩, fun spec hspec => ?_, fun spec hspec => ?_, ?_, ?_⟩
    · obtain ⟨parts, hparts, hflatten⟩ := partsOf_eq_ok_iff.mp (htotals.parts spec hspec)
      rw [valuesOf_append, (tableRows_append (hsound spec hspec)).1, ← hflatten]
      exact partsOf_eq_ok_iff.mpr ⟨tableRows spec (valuesOf first) :: parts,
        .cons (hshreds.tables spec hspec) hparts, rfl⟩
    · rw [List.map_cons, List.sum_cons, hshreds.rowSkips spec hspec, htotals.rowSkips spec hspec,
        valuesOf_append, (tableRows_append (hsound spec hspec)).2]
    · rw [List.map_cons, List.sum_cons, hshreds.skippedRecords, htotals.skippedRecords,
        List.countP_append]
    · rw [List.map_cons, List.sum_cons, hshreds.recordCount, htotals.recordCount, valuesOf_append,
        List.length_append]

/-- Two lists that go with one list element by element go with each other. -/
theorem forall₂_join {α β γ : Type} {R : α → β → Prop} {S : α → γ → Prop} {T : β → γ → Prop}
    (hT : ∀ x y z, R x y → S x z → T y z) : ∀ {xs : List α} {ys : List β} {zs : List γ},
      List.Forall₂ R xs ys → List.Forall₂ S xs zs → List.Forall₂ T ys zs
  | _, _, _, .nil, .nil => .nil
  | _, _, _, .cons hxy hxs, .cons hxz hxs' => .cons (hT _ _ _ hxy hxz) (forall₂_join hT hxs hxs')

/-! ### Parallel and serial -/

/-- The parallel shred leaves what the serial one does. -/
structure SameShred (specs : List EmittingTableSpec) (parallel : ShredTables)
    (serial : ChunkResult) :
    Prop where
  files : List.Forall₂ (fun spec file => file.1 = spec.label ∧
    serial.tables.get? spec.label = some file.2) specs parallel.files
  rowSkips : ∀ spec ∈ specs,
    parallel.stats.rowSkips spec.label = serial.stats.rowSkips spec.label
  skippedRecords : parallel.stats.skippedRecords = serial.stats.skippedRecords
  recordCount : parallel.recordCount = serial.recordCount

/-- Chunks that total what one pass shreds give the same files, counts and skips. -/
theorem sameShred_of_totals {records : List LineRecord} {results : List ChunkResult}
    {serial : ChunkResult} {files : List (String × List (List Value))}
    (htotals : Totals specs records results) (hserial : Shreds specs records serial)
    (hfiles : (specs.mapM fun spec => (partsOf results spec.label).map fun rows =>
      (spec.label, rows))
      = .ok files) :
    SameShred specs ⟨files, mergeChunkSkipStats results, (results.map ChunkResult.recordCount).sum⟩
      serial := by
  obtain ⟨hrows, hrecords⟩ := mergeChunkSkipStats_spec results
  refine ⟨?_, fun spec hspec => ?_, ?_, ?_⟩
  · have hall := mapM_eq_ok_iff.mp hfiles
    refine (List.forall₂_iff_zip.mpr ⟨hall.length_eq, fun {spec file} hmem => ?_⟩)
    have hfile := (List.forall₂_iff_zip.mp hall).2 hmem
    have hspec := (List.of_mem_zip hmem).1
    rw [htotals.parts spec hspec] at hfile
    cases hfile
    exact ⟨rfl, hserial.tables spec hspec⟩
  · exact (hrows _).trans ((htotals.rowSkips spec hspec).trans (hserial.rowSkips spec hspec).symm)
  · exact hrecords.trans (htotals.skippedRecords.trans hserial.skippedRecords.symm)
  · exact htotals.recordCount.trans hserial.recordCount.symm

/-- What the chunks of a file's pieces are. -/
theorem shredded_of_chunks (hspecs : ValidSpecs specs) {orders : ℕ → Level → List Descent}
    (horders : ∀ i, Iterates specs (orders i)) {data : Bytes} {ranges : List (ℕ × ℕ)}
    {pieces : List (List Bytes)} {results : List ChunkResult}
    (hpieces : List.Forall₂ (fun range piece => ∀ ls, iterRangeLines limit data range = .ok ls ↔
      WithinLimit limit piece ∧ ls = piece) ranges pieces)
    (hresults : (ranges.zipIdx.mapM fun task =>
      shredChunk loads limit specs (orders task.2) data task.1) = .ok results) :
    WithinLimit limit pieces.flatten ∧ List.Forall₂ (Shredded loads specs) pieces results := by
  have hchunks : List.Forall₂ (fun range result => ∃ i,
      shredChunk loads limit specs (orders i) data range = .ok result) ranges results := by
    have hfst : ranges = ranges.zipIdx.map Prod.fst := (List.zipIdx_map_fst 0 ranges).symm
    rw [hfst, List.forall₂_map_left_iff]
    exact (mapM_eq_ok_iff.mp hresults).imp fun task result h => ⟨task.2, h⟩
  have hjoin : List.Forall₂ (fun piece result => WithinLimit limit piece ∧
      Shredded loads specs piece result) pieces results := by
    refine forall₂_join (fun range piece result hpiece hchunk => ?_) hpieces hchunks
    obtain ⟨i, hchunk⟩ := hchunk
    obtain ⟨ls, hls, hshred⟩ := bind_eq_ok_iff.mp hchunk
    obtain ⟨hwithin, rfl⟩ := (hpiece ls).mp hls
    exact ⟨hwithin, shredLines_spec hspecs (horders i) hshred⟩
  obtain ⟨hwithin, hshredded⟩ := (List.forall₂_and_left _ _).mp hjoin
  exact ⟨withinLimit_flatten.mpr hwithin, hshredded⟩

/-- Chunks whose lines shred, shred. -/
theorem exists_chunks (hspecs : ValidSpecs specs) {orders : ℕ → Level → List Descent}
    (horders : ∀ i, Iterates specs (orders i)) {data : Bytes} {ranges : List (ℕ × ℕ)}
    {pieces : List (List Bytes)}
    (hpieces : List.Forall₂ (fun range piece => ∀ ls, iterRangeLines limit data range = .ok ls ↔
      WithinLimit limit piece ∧ ls = piece) ranges pieces)
    (hwithin : WithinLimit limit pieces.flatten) {records : List LineRecord}
    (hrecords : pieces.flatten.mapM (jsonlRecord loads) = .ok records)
    (hsound : Sound specs records) :
    ∃ results, (ranges.zipIdx.mapM fun task =>
      shredChunk loads limit specs (orders task.2) data task.1) = .ok results := by
  have hchunk : ∀ range ∈ ranges, ∀ i, ∃ result,
      shredChunk loads limit specs (orders i) data range = .ok result := by
    induction hpieces generalizing records with
    | nil => exact fun _ h => by cases h
    | @cons range piece ranges pieces hpiece _ ih =>
      obtain ⟨first, rest, hfirst, hrest, rfl⟩ := mapM_append_eq_ok_iff.mp hrecords
      obtain ⟨hfirst', hrest'⟩ := sound_append.mp hsound
      refine List.forall_mem_cons.mpr ⟨fun i => ?_, ih
        (fun l hl => hwithin l (List.mem_append_right _ hl)) hrest hrest'⟩
      obtain ⟨result, hresult⟩ := exists_shredLines hspecs (horders i) hfirst hfirst'
      refine ⟨result, bind_eq_ok_iff.mpr ⟨piece, (hpiece piece).mpr ⟨?_, rfl⟩, hresult⟩⟩
      exact fun l hl => hwithin l (List.mem_append_left _ hl)
  refine exists_mapM_eq_ok fun task htask => hchunk task.1 ?_ task.2
  exact List.mem_of_getElem? (List.mem_zipIdx_iff_getElem?.mp htask)

/-- The ranges together have the lines of a single pass. -/
theorem rangeLines_iff {chunk : ℕ} (hchunk : 0 < chunk) {data : Bytes} {ls : List Bytes} :
    (∃ ranges pieces, jsonlByteRanges limit chunk data = .ok ranges ∧
      ranges.mapM (iterRangeLines limit data) = .ok pieces ∧ pieces.flatten = ls) ↔
    iterLines limit data = .ok ls := by
  rw [iterLines_eq_ok_iff]
  constructor
  · rintro ⟨ranges, read, hranges, hread, rfl⟩
    obtain ⟨pieces, hflatten, hpieces⟩ := jsonlByteRanges_pieces hranges
    have hjoin : List.Forall₂ (fun piece ls => WithinLimit limit piece ∧ ls = piece) pieces read :=
      forall₂_join (fun _ _ _ hpiece hls => (hpiece _).mp hls) hpieces (mapM_eq_ok_iff.mp hread)
    obtain ⟨hwithin, hsame⟩ := (List.forall₂_and_left _ _).mp hjoin
    have hread : read = pieces := by
      rw [← List.forall₂_eq_eq_eq]
      exact hsame.flip
    rw [hread, hflatten]
    exact ⟨hflatten ▸ withinLimit_flatten.mpr hwithin, rfl⟩
  · rintro ⟨hwithin, rfl⟩
    cases hranges : jsonlByteRanges limit chunk data with
    | error e => exact absurd hwithin (not_withinLimit_of_error hchunk hranges)
    | ok ranges =>
      obtain ⟨pieces, hflatten, hpieces⟩ := jsonlByteRanges_pieces hranges
      refine ⟨ranges, pieces, rfl, mapM_eq_ok_iff.mpr ?_, hflatten⟩
      refine (List.forall₂_iff_zip.mpr ⟨hpieces.length_eq, fun {range piece} hmem => ?_⟩)
      have hpiece := withinLimit_flatten.mp (hflatten.symm ▸ hwithin) piece (List.of_mem_zip hmem).2
      exact ((List.forall₂_iff_zip.mp hpieces).2 hmem piece).mpr ⟨hpiece, rfl⟩

/-- **Parallel shredding is serial shredding.** The ranges of a file, read apart and put
together, have the lines of a single pass, and refuse a file it refuses; and the parallel shred
succeeds where the serial one does, with each table's rows in the same order and the same
counts, in whatever order each process iterates its sets. -/
theorem parallel_eq_serial {chunk : ℕ} (hchunk : 0 < chunk) {config : List (String × Value)}
    (hspecs : emittingTableSpecs config = .ok specs) {order : Level → List Descent}
    (horder : Iterates specs order) {orders : ℕ → Level → List Descent}
    (horders : ∀ i, Iterates specs (orders i)) (data : Bytes) :
    (∀ ls, (∃ ranges pieces, jsonlByteRanges limit chunk data = .ok ranges ∧
      ranges.mapM (iterRangeLines limit data) = .ok pieces ∧ pieces.flatten = ls) ↔
      iterLines limit data = .ok ls) ∧
    (∀ parallel, shredInParallel loads limit specs orders chunk data = .ok parallel →
      ∃ serial, writeTablesStreaming loads limit specs order data = .ok serial ∧
        SameShred specs parallel serial) ∧
    ∀ serial, writeTablesStreaming loads limit specs order data = .ok serial →
      ∃ parallel, shredInParallel loads limit specs orders chunk data = .ok parallel ∧
        SameShred specs parallel serial := by
  have hvalid := validSpecs_of_emittingTableSpecs hspecs
  refine ⟨fun ls => rangeLines_iff hchunk, fun parallel hparallel => ?_, fun serial hserial => ?_⟩
  · obtain ⟨ranges, hranges, hwrite⟩ := bind_eq_ok_iff.mp hparallel
    obtain ⟨results, hresults, hwrite⟩ := bind_eq_ok_iff.mp hwrite
    obtain ⟨files, hfiles, hpure⟩ := bind_eq_ok_iff.mp hwrite
    cases hpure
    obtain ⟨pieces, hflatten, hpieces⟩ := jsonlByteRanges_pieces hranges
    obtain ⟨hwithin, hshredded⟩ := shredded_of_chunks hvalid horders hpieces hresults
    obtain ⟨records, hrecords, hsound, htotals⟩ := totals_of_shredded hshredded
    rw [hflatten] at hwithin hrecords
    obtain ⟨serial, hserial⟩ := exists_shredLines hvalid horder hrecords hsound
    obtain ⟨records', hrecords', -, hshreds⟩ := shredLines_spec hvalid horder hserial
    obtain rfl : records = records' := Except.ok.inj (hrecords.symm.trans hrecords')
    refine ⟨serial, bind_eq_ok_iff.mpr ⟨lines data, ?_, hserial⟩,
      sameShred_of_totals htotals hshreds hfiles⟩
    exact iterLines_eq_ok_iff.mpr ⟨hwithin, rfl⟩
  · obtain ⟨ls, hls, hshred⟩ := bind_eq_ok_iff.mp hserial
    obtain ⟨hwithin, rfl⟩ := iterLines_eq_ok_iff.mp hls
    obtain ⟨records, hrecords, hsound, hshreds⟩ := shredLines_spec hvalid horder hshred
    -- ranges are refused only for a line that the serial read refuses as well
    cases hranges : jsonlByteRanges limit chunk data with
    | error e => exact absurd hwithin (not_withinLimit_of_error hchunk hranges)
    | ok ranges =>
      obtain ⟨pieces, hflatten, hpieces⟩ := jsonlByteRanges_pieces hranges
      rw [← hflatten] at hwithin hrecords
      obtain ⟨results, hresults⟩ := exists_chunks hvalid horders hpieces hwithin hrecords hsound
      obtain ⟨-, hshredded⟩ := shredded_of_chunks hvalid horders hpieces hresults
      obtain ⟨records', hrecords', -, htotals⟩ := totals_of_shredded hshredded
      obtain rfl : records = records' := Except.ok.inj (hrecords.symm.trans hrecords')
      have hfiles : ∃ files, (specs.mapM fun spec =>
          (partsOf results spec.label).map fun rows => (spec.label, rows)) = .ok files :=
        exists_mapM_eq_ok fun spec hspec =>
          ⟨_, map_eq_ok_iff.mpr ⟨_, htotals.parts spec hspec, rfl⟩⟩
      obtain ⟨files, hfiles⟩ := hfiles
      refine ⟨_, bind_eq_ok_iff.mpr ⟨ranges, hranges, bind_eq_ok_iff.mpr ⟨results, hresults,
        bind_eq_ok_iff.mpr ⟨files, hfiles, rfl⟩⟩⟩, sameShred_of_totals htotals hshreds hfiles⟩

/-- `orjson.loads` where it reads `{}` and `5`. -/
def loadsSmall (bs : Bytes) : Except PyError Value :=
  if bs = [123, 125] then .ok (.dict [])
  else if bs = [53] then .ok (.int 5)
  else .error (.jsonDecode "unexpected character" 0)

/-- Two empty objects, a blank line and a number between them, no newline at the end. -/
def smallFile : Bytes := [123, 125, 10, 10, 53, 10, 123, 125]

/-- Cut at every byte, the file has its lines and shreds to what one pass gives. -/
theorem parallel_eq_serial_small :
    (∃ ranges pieces, jsonlByteRanges 100 1 smallFile = .ok ranges ∧
      ranges.mapM (iterRangeLines 100 smallFile) = .ok pieces ∧ pieces.flatten = lines smallFile) ∧
    ∃ parallel serial, shredInParallel loadsSmall 100 tagSpecs (fun _ => firstRegistered tagSpecs) 1
        smallFile = .ok parallel ∧
      writeTablesStreaming loadsSmall 100 tagSpecs (firstRegistered tagSpecs) smallFile =
        .ok serial ∧
      SameShred tagSpecs parallel serial := by
  have hspecs : emittingTableSpecs tagConfig = .ok tagSpecs := by decide +kernel
  have horder := iterates_firstRegistered tagSpecs
  have hsame := @parallel_eq_serial loadsSmall 100 tagSpecs 1 (by decide) tagConfig hspecs _ horder
    (fun _ => firstRegistered tagSpecs) (fun _ => horder) smallFile
  have hwithin : WithinLimit 100 (lines smallFile) := by
    intro l hl
    have hlines : lines smallFile = [[123, 125, 10], [10], [53, 10], [123, 125]] := by decide
    rw [hlines] at hl
    revert l
    decide
  have hlines : iterLines 100 smallFile = .ok (lines smallFile) :=
    iterLines_eq_ok_iff.mpr ⟨hwithin, rfl⟩
  have hrecords : (lines smallFile).mapM (jsonlRecord loadsSmall)
      = .ok [.record (.dict []), .blank, .skipped, .record (.dict [])] := rfl
  obtain ⟨serial, hserial⟩ := exists_shredLines (validSpecs_of_emittingTableSpecs hspecs) horder
    hrecords (by decide +kernel)
  have hpass : writeTablesStreaming loadsSmall 100 tagSpecs (firstRegistered tagSpecs) smallFile
      = .ok serial := bind_eq_ok_iff.mpr ⟨_, hlines, hserial⟩
  obtain ⟨parallel, hparallel, hequal⟩ := hsame.2.2 serial hpass
  exact ⟨(hsame.1 _).mpr hlines, parallel, serial, hparallel, hpass, hequal⟩

end Haute.Shred
