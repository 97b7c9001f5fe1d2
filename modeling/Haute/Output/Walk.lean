import Haute.Output.Objects

/-!
# The walk, in general terms

The assembler groups rows through dictionaries and looks them up in indexes. Here the same
walk is stated over plain lists: a level's rows in a scope are the rows that agree with it
(`scopedRows_eq_filter`), and the objects are the first rows of each identity among them
(`build_succ`). A successful assembly is opened into the mapped fields, which do not depend
on the row limit, and the rows collected for each level.
-/

namespace Haute

open NestedDict Grouping

/-! ### Grouping and indexing -/

/-- The rows that stand for a group are the first rows of each identity. -/
theorem map_headD_groupRows (rows : List Row) (keys : List String) :
    (groupRows rows keys).map (·.headD []) = firstsBy (rowIdentity keys) rows := by
  rw [groupRows, entries_groupBy, List.map_map, List.map_map]
  conv_rhs => rw [← List.map_id (firstsBy (rowIdentity keys) rows)]
  refine List.map_congr_left fun row hrow => ?_
  have hhead := head?_filter_of_mem_firstsBy hrow
  simp only [Function.comp_apply, List.headD_eq_head?_getD, hhead]
  rfl

/-- Whether a row agrees with every key in scope. -/
def agrees (scope row : Row) : Bool :=
  (Assoc.keys scope).all fun key => decide (identity (row.get key) = identity (scope.get key))

theorem agrees_iff {scope row : Row} :
    agrees scope row = true ↔
      ∀ key ∈ Assoc.keys scope, identity (row.get key) = identity (scope.get key) := by
  simp [agrees]

theorem rowIdentity_eq_iff {keys : List String} {row other : Row} :
    rowIdentity keys row = rowIdentity keys other ↔
      ∀ key ∈ keys, identity (row.get key) = identity (other.get key) := by
  simp [rowIdentity]

namespace Assembly

variable (a : Assembly)

/-- **The rows of a level in a scope are the rows that agree with it.** -/
theorem scopedRows_eq_filter (level : Level) (scope : Row) :
    a.scopedRows level scope = (a.levelRows level).filter (agrees scope) := by
  cases scope with
  | nil => exact (List.filter_eq_self.mpr fun _ _ => rfl).symm
  | cons e scope =>
    have hindex : a.scopedRows level (e :: scope)
        = (a.levelRows level).filter fun row =>
            decide (rowIdentity ((Assoc.keys (e :: scope)).insertionSort (· ≤ ·)) row
              = rowIdentity ((Assoc.keys (e :: scope)).insertionSort (· ≤ ·)) (e :: scope)) :=
      getD_get?_groupBy _ _ _
    rw [hindex]
    refine List.filter_congr fun row _ => ?_
    rw [Bool.eq_iff_iff, agrees_iff, decide_eq_true_iff, rowIdentity_eq_iff]
    simp only [List.mem_insertionSort]

/-- Whether each row of a level is its own object. -/
def perRow (level : Level) : Bool :=
  a.topLevelPerRow && level.isEmpty && (portAt? a.ports level).isSome

/-- The rows a level's objects stand for. -/
def objectRows (level : Level) (scope : Row) : List Row :=
  if a.perRow level then (a.levelRows level).filter (agrees scope)
  else firstsBy (rowIdentity ((ownPaths a.ports level).map ParsedPath.raw))
    ((a.levelRows level).filter (agrees scope))

theorem map_headD_groupedRows (level : Level) (scope : Row) :
    (a.groupedRows level scope).map (·.headD []) = a.objectRows level scope := by
  rw [groupedRows, objectRows, perRow, scopedRows_eq_filter]
  split_ifs
  · rw [List.map_map]
    exact List.map_id _
  · exact map_headD_groupRows _ _

/-- The object of a row: its own leaves and its children's arrays. -/
def objectOf (fuel : ℕ) (level : Level) (scope row : Row) : Value :=
  .dict <| writeAll <| objectWrites a.ports level row fun child =>
    a.build fuel child (a.childScope level child scope row)

/-- **One object for each object row.** -/
theorem build_succ (fuel : ℕ) (level : Level) (scope : Row) :
    a.build (fuel + 1) level scope
      = (a.objectRows level scope).map (a.objectOf fuel level scope) := by
  rw [build, ← map_headD_groupedRows, List.map_map]
  rfl

theorem objectRows_sublist (level : Level) (scope : Row) :
    (a.objectRows level scope).Sublist ((a.levelRows level).filter (agrees scope)) := by
  rw [objectRows]
  split_ifs
  · exact List.Sublist.refl _
  · exact firstsBy_sublist _ _

theorem mem_levelRows_of_mem_objectRows {level : Level} {scope row : Row}
    (h : row ∈ a.objectRows level scope) : row ∈ a.levelRows level ∧ agrees scope row = true :=
  List.mem_filter.mp ((a.objectRows_sublist level scope).subset h)

end Assembly

/-! ### Opening a successful assembly -/

/-- A frame's paths and its field frame. -/
abbrev Field := String × List ParsedPath × Frame

/-- The frames' paths. -/
def portsOf (fields : List Field) : PortPaths := fields.map fun f => (f.1, f.2.1)

/-- The columns a frame's entries select. -/
def aliases (entries : List (MappingEntry × ParsedPath)) : List Alias :=
  entries.map fun e => ⟨e.1.sourceColumn, e.1.outputPath⟩

/-- A field is its entries' columns, selected from the source frame. -/
structure FieldOf (frames : List (String × Frame))
    (p : String × List (MappingEntry × ParsedPath)) (f : Field) : Prop where
  port : f.1 = p.1
  paths : f.2.1 = p.2.map Prod.snd
  selected : ∃ source, Assoc.get? frames p.1 = some source ∧ source.select (aliases p.2) = .ok f.2.2

/-- The fields of a mapping over its source frames. -/
structure MappedFields (frames : List (String × Frame)) (mapping : List MappingEntry)
    (fields : List Field) : Prop where
  valid : validateV2OutputMapping mapping = .ok ()
  fromEntries : ∃ parsed, parseEntries mapping = .ok parsed ∧
    List.Forall₂ (FieldOf frames) (entriesByPort parsed) fields

/-- The frames in the order they are collected. -/
def collectOrder (fields : List Field) : List Field :=
  fields.insertionSort fun f g => (emitPrefix f.2.1).length ≤ (emitPrefix g.2.1).length

private theorem parseColumns_aliases {entries : List (MappingEntry × ParsedPath)}
    (h : ∀ e ∈ entries, parseOutputPath e.1.outputPath = .ok e.2) :
    parseColumns ((aliases entries).map Alias.name) = .ok (entries.map Prod.snd) := by
  induction entries with
  | nil => rfl
  | cons e entries ih =>
    have htail := ih fun e' he' => h e' (by simp [he'])
    simp only [aliases, List.map_cons] at htail ⊢
    rw [parseColumns, h e (by simp), htail]
    rfl

private theorem columns_of_select {frame out : Frame} {as : List Alias}
    (h : frame.select as = .ok out) : out.columns = as.map Alias.name :=
  keys_selectSchema (Frame.select_eq_ok h).1

private theorem fieldFrames_eq_ok {frames : List (String × Frame)}
    {entries : List (String × List (MappingEntry × ParsedPath))}
    (hparsed : ∀ p ∈ entries, ∀ e ∈ p.2, parseOutputPath e.1.outputPath = .ok e.2)
    {fields : List Field} :
    ((fieldFrames frames entries).bind parseFrames) = .ok fields ↔
      List.Forall₂ (FieldOf frames) entries fields := by
  induction entries generalizing fields with
  | nil =>
    rw [List.forall₂_nil_left_iff]
    exact ⟨fun h => (Except.ok.inj h).symm, fun h => h ▸ rfl⟩
  | cons p entries ih =>
    obtain ⟨port, es⟩ := p
    have hes := hparsed _ List.mem_cons_self
    have ih := @ih fun p hp => hparsed p (List.mem_cons_of_mem _ hp)
    constructor
    · intro h
      obtain ⟨selected, hselected, h⟩ := bind_eq_ok_iff.mp h
      obtain ⟨source, hsource, hselected⟩ := bind_eq_ok_iff.mp hselected
      obtain ⟨field, hfield, hselected⟩ := bind_eq_ok_iff.mp hselected
      obtain ⟨more, hmore, hselected⟩ := bind_eq_ok_iff.mp hselected
      obtain rfl : (port, field) :: more = selected := Except.ok.inj hselected
      obtain ⟨paths, hpaths, h⟩ := bind_eq_ok_iff.mp h
      obtain ⟨rest, hrest, h⟩ := bind_eq_ok_iff.mp h
      obtain rfl : (port, paths, field) :: rest = fields := Except.ok.inj h
      -- a selection names its columns by the paths it was given
      rw [columns_of_select hfield] at hpaths
      obtain rfl : es.map Prod.snd = paths :=
        Except.ok.inj ((parseColumns_aliases hes).symm.trans hpaths)
      refine List.Forall₂.cons ⟨rfl, rfl, source, by simpa using hsource, hfield⟩ (ih.mp ?_)
      exact bind_eq_ok_iff.mpr ⟨more, hmore, hrest⟩
    · intro h
      cases h with
      | @cons _ f _ rest hf hrest =>
        obtain ⟨port', paths, field⟩ := f
        obtain ⟨hport, hpaths, source, hsource, hfield⟩ := hf
        obtain rfl : port' = port := hport
        obtain rfl : paths = es.map Prod.snd := hpaths
        obtain ⟨more, hmore, hparse⟩ := bind_eq_ok_iff.mp (ih.mpr hrest)
        refine bind_eq_ok_iff.mpr ⟨(port', field) :: more, ?_, ?_⟩
        · refine bind_eq_ok_iff.mpr ⟨source, by simpa using hsource, ?_⟩
          refine bind_eq_ok_iff.mpr ⟨field, hfield, ?_⟩
          exact bind_eq_ok_iff.mpr ⟨more, hmore, rfl⟩
        · refine bind_eq_ok_iff.mpr ⟨es.map Prod.snd, ?_, ?_⟩
          · rw [columns_of_select hfield]
            exact parseColumns_aliases hes
          · exact bind_eq_ok_iff.mpr ⟨rest, hparse, rfl⟩

/-- The fields' paths are the mapping's: a selection names no path twice. -/
private theorem portsOf_eq_map {frames : List (String × Frame)}
    {entries : List (String × List (MappingEntry × ParsedPath))}
    (hraw : ∀ p ∈ entries, ∀ e ∈ p.2, e.2.raw = e.1.outputPath) {fields : List Field}
    (h : List.Forall₂ (FieldOf frames) entries fields) :
    portsOf fields = entries.map fun p => (p.1, firstsBy ParsedPath.raw (p.2.map Prod.snd)) := by
  rw [portsOf]
  induction h with
  | nil => rfl
  | @cons p f ps fs hf _ ih =>
    rw [List.map_cons, List.map_cons, ih fun q hq => hraw q (List.mem_cons_of_mem _ hq)]
    obtain ⟨source, -, hselect⟩ := hf.selected
    have hnodup := (Frame.select_eq_ok hselect).2.1
    have hdistinct : firstsBy ParsedPath.raw (p.2.map Prod.snd) = p.2.map Prod.snd := by
      refine firstsBy_eq_self (List.pairwise_map.mpr ?_)
      rw [aliases, List.map_map, List.Nodup, List.pairwise_map] at hnodup
      refine hnodup.imp_of_mem fun {e e'} he he' hne => ?_
      rw [hraw p List.mem_cons_self e he, hraw p List.mem_cons_self e' he']
      exact hne
    rw [hdistinct, hf.port, hf.paths]

namespace MappedFields

variable {frames : List (String × Frame)} {mapping : List MappingEntry} {fields : List Field}

theorem mappingPorts_eq (h : MappedFields frames mapping fields) :
    mappingPorts mapping = .ok (portsOf fields) := by
  obtain ⟨parsed, hparse, hfields⟩ := h.fromEntries
  rw [mappingPorts, hparse, portsOf_eq_map (fun p hp e he =>
    (parseEntries_spec hparse e ((mem_entriesByPort hp).2 e he).1).1) hfields]
  rfl

theorem validPorts (h : MappedFields frames mapping fields) : ValidPorts (portsOf fields) :=
  validPorts_of_validate h.valid h.mappingPorts_eq

end MappedFields

private theorem checkOneFrame_eq_ok {taken : List (Level × String × String)} {ports : PortPaths}
    (hfresh : ∀ p ∈ ports, emitPrefix p.2 ∉ Assoc.keys taken)
    (h : ports.Pairwise fun p q => emitPrefix p.2 ≠ emitPrefix q.2) :
    checkOneFrame taken ports = .ok () := by
  induction ports generalizing taken with
  | nil => rfl
  | cons p ports ih =>
    obtain ⟨hp, hrest⟩ := List.pairwise_cons.mp h
    rw [checkOneFrame, Assoc.get?_eq_none (hfresh p List.mem_cons_self)]
    refine ih (fun q hq => ?_) hrest
    rw [Assoc.set, Assoc.mem_keys_upsert, not_or]
    exact ⟨(hp q hq).symm, hfresh q (List.mem_cons_of_mem _ hq)⟩

/-- The validator has found every nesting key carried. -/
private theorem nestingKeyError_of_validate {mapping : List MappingEntry}
    (h : validateV2OutputMapping mapping = .ok ()) {ports : PortPaths}
    (hports : mappingPorts mapping = .ok ports) : nestingKeyError ports = none := by
  obtain ⟨parsed, hparse, rfl⟩ := map_eq_ok_iff.mp hports
  obtain ⟨parsed', hparse', h⟩ := bind_eq_ok_iff.mp h
  obtain rfl : parsed = parsed' := Except.ok.inj (hparse.symm.trans hparse')
  obtain ⟨⟨⟩, -, h⟩ := bind_eq_ok_iff.mp h
  obtain ⟨⟨⟩, -, h⟩ := bind_eq_ok_iff.mp h
  obtain ⟨⟨⟩, -, hnesting⟩ := bind_eq_ok_iff.mp h
  exact raiseSome_eq_ok_iff.mp hnesting

private theorem bind_of_ok {α β : Type} {x : Except PyError α} {f : α → Except PyError β} {a : α}
    (h : x = .ok a) : (x >>= f) = f a := by
  rw [h]
  rfl

/-- **An assembly of mapped fields** collects them, and walks the rows collected. -/
theorem assembleOutputFromMapping_of_mapped {lib : KeyLibrary} {frames : List (String × Frame)}
    {mapping : List MappingEntry} {rowLimit : Option ℕ} {topLevelPerRow : Bool}
    {fields : List Field}
    (hmapped : MappedFields frames mapping fields) :
    assembleOutputFromMapping lib frames mapping rowLimit topLevelPerRow =
      (collectLevels lib (portsOf fields) (if emitsRoot (portsOf fields) then rowLimit else none) []
        (collectOrder fields) >>= fun collected =>
          pure (Assembly.document ⟨portsOf fields, rowsByPrefix collected, topLevelPerRow⟩)) := by
  obtain ⟨parsed, hparse, hforall⟩ := hmapped.fromEntries
  obtain ⟨selected, hselected, hfields⟩ := bind_eq_ok_iff.mp
    ((fieldFrames_eq_ok fun p hp e he => by
      obtain ⟨hraw, hout⟩ := parseEntries_spec hparse e ((mem_entriesByPort hp).2 e he).1
      rw [← hraw]
      exact hout).mpr hforall)
  have hports := hmapped.validPorts
  refine (bind_of_ok hmapped.valid).trans ?_
  refine (bind_of_ok hparse).trans ?_
  refine (bind_of_ok hselected).trans ?_
  refine (bind_of_ok hfields).trans ?_
  refine (bind_of_ok (a := ()) (raiseSome_eq_ok_iff.mpr hports.locations)).trans ?_
  refine (bind_of_ok (checkOneFrame_eq_ok (by simp) hports.oneFrame)).trans ?_
  exact bind_of_ok (a := ()) (raiseSome_eq_ok_iff.mpr
    (nestingKeyError_of_validate hmapped.valid hmapped.mappingPorts_eq))

/-- **A successful assembly** is the walk over the mapped fields and the rows collected. -/
theorem assembleOutputFromMapping_eq_ok_iff {lib : KeyLibrary}
    {frames : List (String × Frame)} {mapping : List MappingEntry} {rowLimit : Option ℕ}
    {topLevelPerRow : Bool} {document : List Value} :
    assembleOutputFromMapping lib frames mapping rowLimit topLevelPerRow = .ok document ↔
      ∃ fields, MappedFields frames mapping fields ∧ ∃ collected,
        collectLevels lib (portsOf fields) (if emitsRoot (portsOf fields) then rowLimit
          else none) []
          (collectOrder fields) = .ok collected ∧
        Assembly.document ⟨portsOf fields, rowsByPrefix collected, topLevelPerRow⟩ = document := by
  constructor
  · intro h
    obtain ⟨⟨⟩, hvalid, h⟩ := bind_eq_ok_iff.mp h
    obtain ⟨parsed, hparse, h⟩ := bind_eq_ok_iff.mp h
    obtain ⟨selected, hselected, h⟩ := bind_eq_ok_iff.mp h
    obtain ⟨fields, hfields, h⟩ := bind_eq_ok_iff.mp h
    obtain ⟨⟨⟩, -, h⟩ := bind_eq_ok_iff.mp h
    obtain ⟨⟨⟩, -, h⟩ := bind_eq_ok_iff.mp h
    obtain ⟨⟨⟩, -, h⟩ := bind_eq_ok_iff.mp h
    obtain ⟨rows, hrows, h⟩ := bind_eq_ok_iff.mp h
    refine ⟨fields, ⟨hvalid, parsed, hparse, ?_⟩, rows, hrows, Except.ok.inj h⟩
    refine (fieldFrames_eq_ok fun p hp e he => ?_).mp
      (bind_eq_ok_iff.mpr ⟨selected, hselected, hfields⟩)
    obtain ⟨hraw, hout⟩ := parseEntries_spec hparse e ((mem_entriesByPort hp).2 e he).1
    rw [← hraw]
    exact hout
  · rintro ⟨fields, hmapped, collected, hcollected, rfl⟩
    rw [assembleOutputFromMapping_of_mapped hmapped, hcollected]
    rfl

/-! ### The rows collected -/

theorem rowsFromDataframe_eq_ok_iff {port : String} {keys : List String} {rows out : List Row} :
    rowsFromDataframe port keys rows = .ok out ↔
      out = rows ∧ ∀ row ∈ rows, ∀ key ∈ keys, row.get key ≠ .none := by
  induction rows generalizing out with
  | nil =>
    rw [rowsFromDataframe]
    constructor
    · intro h
      exact ⟨(Except.ok.inj h).symm, by simp⟩
    · rintro ⟨rfl, -⟩
      rfl
  | cons row rows ih =>
    rw [rowsFromDataframe]
    rcases hfind : keys.find? fun key => decide (row.get key = .none) with _ | key
    · have hrow : ∀ key ∈ keys, row.get key ≠ .none := by
        simpa using List.find?_eq_none.mp hfind
      simp only [map_eq_ok_iff, ih]
      constructor
      · rintro ⟨rest, ⟨rfl, hrest⟩, rfl⟩
        exact ⟨rfl, List.forall_mem_cons.mpr ⟨hrow, hrest⟩⟩
      · rintro ⟨rfl, hall⟩
        exact ⟨rows, ⟨rfl, (List.forall_mem_cons.mp hall).2⟩, rfl⟩
    · have hkey := List.mem_of_find?_eq_some hfind
      have hnull : row.get key = .none := by simpa using List.find?_some hfind
      simp only [reduceCtorEq, false_iff, not_and]
      intro _ hall
      exact hall row List.mem_cons_self key hkey hnull

/-- One turn of the collection: the frame's rows, limited, whose nesting keys are not null. -/
theorem collectLevels_cons_eq_ok_iff {lib : KeyLibrary} {ports : PortPaths} {limit : Option ℕ}
    {collected : List (Level × Frame)} {f : Field} {fields : List Field}
    {out : List (Level × Frame)} :
    collectLevels lib ports limit collected (f :: fields) = .ok out ↔
      ∃ frame, levelPlan lib ports limit collected f.2.1 f.2.2 = .ok frame ∧
        (∀ row ∈ frame.rows, ∀ key ∈ nonnullKeys ports f.2.1, row.get key ≠ .none) ∧
        collectLevels lib ports limit (collected ++ [(emitPrefix f.2.1, frame)]) fields =
          .ok out := by
  simp only [collectLevels, bind_eq_ok_iff, rowsFromDataframe_eq_ok_iff, List.mem_insertionSort]
  constructor
  · rintro ⟨frame, hframe, rows, ⟨rfl, hrows⟩, hrest⟩
    exact ⟨frame, hframe, hrows, hrest⟩
  · rintro ⟨frame, hframe, hrows, hrest⟩
    exact ⟨frame, hframe, _, ⟨rfl, hrows⟩, hrest⟩

/-- A limit reads rows of the frame, in order. -/
theorem limitLevel_rows_sublist {lib : KeyLibrary} {ports : PortPaths}
    {collected : List (Level × Frame)}
    {n : ℕ} {paths : List ParsedPath} {frame limited : Frame}
    (h : limitLevel lib ports collected n paths frame = .ok limited) :
    limited.rows.Sublist frame.rows := by
  rw [limitLevel] at h
  split_ifs at h
  · obtain rfl := Except.ok.inj h
    exact List.take_sublist _ _
  · split at h
    · obtain rfl := Except.ok.inj h
      exact List.Sublist.refl _
    · obtain ⟨_, -, h⟩ := bind_eq_ok_iff.mp h
      obtain rfl := Except.ok.inj h
      split_ifs
      · exact List.Sublist.refl _
      · exact List.filter_sublist

/-- Every level's rows are rows of its frame, in order. -/
theorem collectLevels_sublist {lib : KeyLibrary} {ports : PortPaths} {limit : Option ℕ}
    {collected : List (Level × Frame)} {fields : List Field} {out : List (Level × Frame)}
    (h : collectLevels lib ports limit collected fields = .ok out) :
    ∃ kept, out = collected ++ kept ∧
      List.Forall₂ (fun f r => r.1 = emitPrefix f.2.1 ∧ r.2.rows.Sublist f.2.2.rows)
        fields kept := by
  induction fields generalizing collected with
  | nil => exact ⟨[], by simpa using (Except.ok.inj h).symm, List.Forall₂.nil⟩
  | cons f fields ih =>
    obtain ⟨frame, hframe, -, h⟩ := collectLevels_cons_eq_ok_iff.mp h
    obtain ⟨kept, rfl, hkept⟩ := ih h
    refine ⟨_ :: kept, by rw [List.append_assoc]; rfl, List.Forall₂.cons ⟨rfl, ?_⟩ hkept⟩
    cases limit with
    | none =>
      obtain rfl := Except.ok.inj hframe
      exact List.Sublist.refl _
    | some n => exact limitLevel_rows_sublist hframe

/-- **The rows of a level are rows of the frames at or below it.** -/
theorem exists_field_of_mem_levelRows {lib : KeyLibrary} {fields : List Field}
    {limit : Option ℕ} {collected : List (Level × Frame)}
    (h : collectLevels lib (portsOf fields) limit [] (collectOrder fields) = .ok collected)
    {topLevelPerRow : Bool} {level : Level} {row : Row}
    (hrow : row ∈
      (Assembly.mk (portsOf fields) (rowsByPrefix collected) topLevelPerRow).levelRows level) :
    ∃ f ∈ fields, row ∈ f.2.2.rows ∧ level <+: emitPrefix f.2.1 := by
  obtain ⟨kept, rfl, hkept⟩ := collectLevels_sublist h
  have hread : ∀ at_ : Level, row ∈ (Assoc.get? (rowsByPrefix collected) at_).getD [] →
      ∃ f ∈ fields, row ∈ f.2.2.rows ∧ at_ = emitPrefix f.2.1 := by
    intro at_ hmem
    rcases hget : Assoc.get? (rowsByPrefix collected) at_ with _ | rs
    · simp [hget] at hmem
    · rw [hget, Option.getD_some] at hmem
      obtain ⟨e, he, hsame⟩ := List.mem_map.mp (Assoc.mem_of_get?_eq_some hget)
      obtain ⟨rfl, rfl⟩ := Prod.mk.inj hsame
      obtain ⟨f, hf, hlevel, hsub⟩ := hkept.exists_of_mem_right he
      exact ⟨f, (List.mem_insertionSort _).mp hf, hsub.subset hmem, hlevel⟩
  rw [Assembly.levelRows] at hrow
  split at hrow
  · obtain ⟨f, hf, hmem, rfl⟩ := hread level hrow
    exact ⟨f, hf, hmem, List.prefix_rfl⟩
  · obtain ⟨p, hp, hmem⟩ := List.mem_flatMap.mp hrow
    obtain ⟨f, hf, hfrow, hlevel⟩ := hread _ hmem
    have hbelow : level <+: emitPrefix p.2 ∧ level ≠ emitPrefix p.2 := by
      simpa using (List.mem_filter.mp hp).2
    exact ⟨f, hf, hfrow, hlevel ▸ hbelow.1⟩

end Haute
