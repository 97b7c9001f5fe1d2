import Haute.Output.Prune

/-!
# The published document schema

`outputDocumentSchema` derives the document's schema from the mapping and the source
schemas: the same walk of the array-prefix tree as the assembler's, writing a dtype where
the assembler writes a value. `document_conforms` is the agreement of the two walks: every
object of an assembled document has its keys among the declared ones, in the declared
order, at every nesting, with an array exactly where the schema declares one.

The assembler leaves out the arrays that have no elements, and pruning leaves out more.
Neither moves a key: an object's leaves are always written first, and its children's
arrays come sorted (`fills_objectWrites`).
-/

namespace Haute

open NestedDict Grouping

/-! ### Deriving the schema -/

/-- A place of the derived schema: a leaf, an array level, or an object. -/
inductive SchemaNode where
  | leaf (dtype : DType)
  | list (item : List (String × SchemaNode))
  | dict (fields : List (String × SchemaNode))

instance : Inhabited SchemaNode := ⟨.dict []⟩

instance : NestedDict String SchemaNode where
  dict := .dict
  dict?
    | .dict fs => some fs
    | _ => none
  dict?_dict _ := rfl

mutual

/-- The dtype of a derived node. -/
def documentDtype : SchemaNode → DType
  | .leaf dtype => dtype
  | .list item => .list (.struct (documentFields item))
  | .dict fields => .struct (documentFields fields)

/-- The dtypes of a node's fields. -/
def documentFields : List (String × SchemaNode) → List (String × DType)
  | [] => []
  | (key, node) :: fields => (key, documentDtype node) :: documentFields fields

end

/-- A list of names as an error shows it. -/
def pyReprNames (names : List String) : String :=
  "[" ++ String.intercalate ", " (names.map pyRepr) ++ "]"

mutual

/-- A dtype as an error shows it. -/
def DType.repr : DType → String
  | .scalar .int => "Int64"
  | .scalar .float => "Float64"
  | .scalar .str => "String"
  | .scalar .bool => "Boolean"
  | .scalar .date => "Date"
  | .list item => "List(" ++ item.repr ++ ")"
  | .struct fields => "Struct(\x7b" ++ String.intercalate ", " (DType.reprFields fields) ++ "\x7d)"

/-- A struct's fields as an error shows them. -/
def DType.reprFields : List (String × DType) → List String
  | [] => []
  | (key, dtype) :: fields => (pyRepr key ++ ": " ++ dtype.repr) :: DType.reprFields fields

end

/-- One frame's leaf dtypes, added to those found so far. -/
def collectLeafDtypes (port : String) (schema : List (String × DType)) :
    List (String × DType) → List (MappingEntry × ParsedPath) →
      Except PyError (List (String × DType))
  | dtypes, [] => .ok dtypes
  | dtypes, (entry, path) :: entries => do
    let dtype ← expect (Assoc.get? schema entry.sourceColumn)
      (.outputMapping ("OUTPUT mapping reads column " ++ pyRepr entry.sourceColumn ++
          " for output path " ++ pyRepr path.raw ++ ", which source frame " ++ pyRepr port ++
          " does not provide; available columns: " ++ pyReprNames (Assoc.keys schema) ++ ".")
        [("source_port", .str port), ("output_path", .str path.raw)])
    let first := (Assoc.get? dtypes path.raw).getD dtype
    require (decide (first = dtype))
      (.outputMapping ("output path " ++ pyRepr path.raw ++ " is mapped from source columns of " ++
          "different types (" ++ first.repr ++ " and " ++ dtype.repr ++
          "); a shared path must carry one type.")
        [("source_port", .str port), ("output_path", .str path.raw)])
    collectLeafDtypes port schema (Assoc.set dtypes path.raw dtype) entries

/-- Every frame's leaf dtypes. -/
def collectAllDtypes (sources : List (String × List (String × DType))) :
    List (String × DType) → List (String × List (MappingEntry × ParsedPath)) →
      Except PyError (List (String × DType))
  | dtypes, [] => .ok dtypes
  | dtypes, (port, entries) :: rest => do
    let schema ← expect (Assoc.get? sources port)
      (.outputMapping ("OUTPUT mapping references source frame " ++ pyRepr port ++
          ", which no incoming frame provides; available frames: " ++
          pyReprNames ((Assoc.keys sources).insertionSort (· ≤ ·)) ++ ".")
        [("source_port", .str port)])
    let dtypes ← collectLeafDtypes port schema dtypes entries
    collectAllDtypes sources dtypes rest

/-- A path's leaf dtype. -/
def leafDtype (dtypes : List (String × DType)) (path : ParsedPath) : DType :=
  (Assoc.get? dtypes path.raw).getD default

/-- What `_set_nested` is called with for one level, in order. -/
def schemaWrites (ports : PortPaths) (dtypes : List (String × DType)) (level : Level)
    (items : Level → List (String × SchemaNode)) : List (List String × SchemaNode) :=
  (ownPaths ports level).map (fun path => (path.ownSubpath, .leaf (leafDtype dtypes path))) ++
    (childrenOf ports level).map fun child => (childHop level child, .list (items child))

/-- The fields of a level. -/
def schemaLevel (ports : PortPaths) (dtypes : List (String × DType)) :
    ℕ → Level → List (String × SchemaNode)
  | 0, _ => []
  | fuel + 1, level => writeAll (schemaWrites ports dtypes level (schemaLevel ports dtypes fuel))

/-- The document's schema, from the mapping and the source schemas. -/
def outputDocumentSchema (sources : List (String × List (String × DType)))
    (mapping : List MappingEntry) : Except PyError (List (String × DType)) := do
  validateV2OutputMapping mapping
  let parsed ← parseEntries mapping
  let dtypes ← collectAllDtypes sources [] (entriesByPort parsed)
  let ports := distinctByPort parsed
  pure (documentFields (schemaLevel ports dtypes (treeFuel ports) []))

/-! ### Conformance -/

mutual

/-- Whether a value conforms to a dtype: it is null, or a scalar of the type, or an array
whose elements conform, or an object whose keys are declared, in the declared order, with
values that conform. -/
def DType.conforms : DType → Value → Bool
  | .scalar type, v => type.holds v
  | .list item, v =>
    match v with
    | .none => true
    | .list xs => xs.all fun x => item.conforms x
    | _ => false
  | .struct fields, v =>
    match v with
    | .none => true
    | .dict fs => (Assoc.keys fs).isSublist (Assoc.keys fields) && DType.conformsFields fields fs
    | _ => false

/-- Whether the values at each declared key conform. -/
def DType.conformsFields : List (String × DType) → List (String × Value) → Bool
  | [], _ => true
  | (key, dtype) :: fields, fs =>
    (fs.all fun e => decide (e.1 ≠ key) || dtype.conforms e.2) && DType.conformsFields fields fs

end

namespace DType

theorem conformsFields_iff {fields : List (String × DType)} {fs : List (String × Value)} :
    conformsFields fields fs = true ↔
      ∀ key dtype v, (key, dtype) ∈ fields → (key, v) ∈ fs → dtype.conforms v = true := by
  induction fields with
  | nil => simp [conformsFields]
  | cons f fields ih =>
    obtain ⟨key, dtype⟩ := f
    rw [conformsFields, Bool.and_eq_true, ih, List.all_eq_true]
    constructor
    · rintro ⟨hhead, htail⟩ k d v hd hv
      rcases List.mem_cons.mp hd with hd | hd
      · obtain ⟨rfl, rfl⟩ : k = key ∧ d = dtype := by simpa using hd
        simpa using hhead _ hv
      · exact htail k d v hd hv
    · refine fun h => ⟨fun e he => ?_, fun k d v hd hv => h k d v (List.mem_cons_of_mem _ hd) hv⟩
      by_cases hk : e.1 = key
      · subst hk
        simp [h e.1 dtype e.2 List.mem_cons_self he]
      · simp [hk]

/-- An object conforms when its keys come in the declared order with conforming values. -/
theorem conforms_struct_dict {fields : List (String × DType)} {fs : List (String × Value)} :
    (struct fields).conforms (.dict fs) = true ↔ (Assoc.keys fs).Sublist (Assoc.keys fields) ∧
      ∀ key dtype v, (key, dtype) ∈ fields → (key, v) ∈ fs → dtype.conforms v = true := by
  rw [conforms, Bool.and_eq_true, conformsFields_iff, List.isSublist_iff_sublist]

theorem conforms_list_list {item : DType} {xs : List Value} :
    (list item).conforms (.list xs) = true ↔ ∀ x ∈ xs, item.conforms x = true := by
  rw [conforms, List.all_eq_true]

@[simp] theorem conforms_none (dtype : DType) : dtype.conforms .none = true := by
  cases dtype <;> rfl

/-- A cell that fits its column conforms to the column's dtype. -/
theorem conforms_of_fits {dtype : DType} {v : Value} (h : dtype.fits v = true) :
    dtype.conforms v = true := by
  induction v using Value.ind generalizing dtype with
  | scalar v hv =>
    cases dtype with
    | scalar t => cases v <;> cases t <;> simp_all [fits, conforms, ColumnType.holds]
    | list t => cases v <;> simp_all [fits, Value.isScalar]
    | struct ts => cases v <;> simp_all [fits, Value.isScalar]
  | list xs ih =>
    cases dtype with
    | scalar t => cases t <;> simp [fits, ColumnType.holds] at h
    | list t => exact conforms_list_list.mpr fun x hx => ih x hx (fitsAll_iff.mp h x hx)
    | struct ts => simp [fits] at h
  | dict fs ih =>
    cases dtype with
    | scalar t => cases t <;> simp [fits, ColumnType.holds] at h
    | list t => simp [fits] at h
    | struct ts =>
      obtain ⟨hn, hfit⟩ := fits_struct_dict.mp h
      have hkeys := keys_of_fitsFields hfit
      refine conforms_struct_dict.mpr ⟨by rw [hkeys], fun key t v ht hv => ?_⟩
      obtain ⟨t', ht', hv'⟩ := fits_of_fitsFields hfit
        (Assoc.get?_eq_some_of_mem (by rw [hkeys]; exact hn) hv)
      obtain rfl : t = t' := Option.some.inj ((Assoc.get?_eq_some_of_mem hn ht).symm.trans ht')
      exact ih (key, v) hv hv'

end DType

/-! ### Pruning keeps conformance -/

/-- What conforms still conforms pruned. -/
theorem conforms_prune {dtype : DType} {v : Value} (h : dtype.conforms v = true) :
    dtype.conforms (prune v) = true := by
  induction v using Value.ind generalizing dtype with
  | scalar v hv =>
    have hself : prune v = v := by cases v <;> simp_all [prune, Value.isScalar]
    rw [hself, h]
  | list xs ih =>
    cases dtype with
    | scalar t => cases t <;> simp [DType.conforms, ColumnType.holds] at h
    | list t =>
      rw [prune, DType.conforms_list_list]
      intro x hx
      obtain ⟨y, hy, rfl⟩ := mem_pruneList hx
      exact ih y hy (DType.conforms_list_list.mp h y hy)
    | struct ts => simp [DType.conforms] at h
  | dict fs ih =>
    cases dtype with
    | scalar t => cases t <;> simp [DType.conforms, ColumnType.holds] at h
    | list t => simp [DType.conforms] at h
    | struct ts =>
      obtain ⟨hkeys, hvalues⟩ := DType.conforms_struct_dict.mp h
      rw [prune, DType.conforms_struct_dict]
      refine ⟨(keys_pruneFields_sublist fs).trans hkeys, fun key t v ht hv => ?_⟩
      obtain ⟨w, hw, rfl⟩ := mem_pruneFields hv
      exact ih (key, w) hw (hvalues key t w ht hw)

/-! ### The two walks agree -/

theorem documentFields_eq_map (fields : List (String × SchemaNode)) :
    documentFields fields = fields.map fun f => (f.1, documentDtype f.2) := by
  induction fields with
  | nil => rfl
  | cons f fields ih => rw [documentFields, ih, List.map_cons]

/-- An object whose keys are some of a node's, in order, with conforming values, conforms. -/
theorem conforms_documentDtype_dict (fs : List (String × SchemaNode)) (gs : List (String × Value))
    (hnodup : (Assoc.keys fs).Nodup) (hkeys : (Assoc.keys gs).Sublist (Assoc.keys fs))
    (h : ∀ k v, Assoc.get? gs k = some v →
      ∃ node, Assoc.get? fs k = some node ∧ (documentDtype node).conforms v = true) :
    (documentDtype (dict fs)).conforms (dict gs : Value) = true := by
  have hfields : Assoc.keys (documentFields fs) = Assoc.keys fs := by
    rw [documentFields_eq_map, Assoc.keys, List.map_map]
    rfl
  refine DType.conforms_struct_dict.mpr ⟨by rwa [hfields], fun key dtype v hd hv => ?_⟩
  rw [documentFields_eq_map] at hd
  obtain ⟨⟨k, node⟩, hnode, heq⟩ := List.mem_map.mp hd
  obtain ⟨rfl, rfl⟩ : k = key ∧ documentDtype node = dtype := by simpa using heq
  obtain ⟨node', hnode', hconf⟩ :=
    h k v (Assoc.get?_eq_some_of_mem (hnodup.sublist hkeys) hv)
  obtain rfl : node = node' :=
    Option.some.inj ((Assoc.get?_eq_some_of_mem hnodup hnode).symm.trans hnode')
  exact hconf

/-- Of two children in order, whose places diverge, the first's place comes first. -/
private theorem lex_childHop {keys keys' : List String} {key key' : String}
    (hle : objectHops keys ++ [(⟨key, true⟩ : Seg)] ≤ objectHops keys' ++ [⟨key', true⟩])
    (hdiv : Diverge (keys ++ [key]) (keys' ++ [key'])) :
    List.Lex (· < ·) (keys ++ [key]) (keys' ++ [key']) := by
  -- segments are compared by name, and only then by kind
  have hcons : ∀ {s t : Seg} {a b : Level}, s :: a ≤ t :: b → s.name ≠ t.name →
      s.name < t.name := by
    intro s t a b hle hne
    have hst : s ≤ t := by
      rcases hle.lt_or_eq with hlt | heq
      · exact List.head_le_of_lt hlt
      · exact le_of_eq (List.cons.inj heq).1
    have hlex : toLex (s.name, s.isArray) ≤ toLex (t.name, t.isArray) := hst
    rcases Prod.Lex.le_iff.mp hlex with hlt | ⟨heq, -⟩
    · exact hlt
    · exact absurd heq hne
  induction keys generalizing keys' with
  | nil =>
    cases keys' with
    | nil =>
      refine List.Lex.rel (hcons hle fun heq => hdiv.1 ?_)
      simpa using heq
    | cons k' keys' =>
      refine List.Lex.rel (hcons hle fun heq => hdiv.1 ?_)
      simp_all
  | cons k keys ih =>
    cases keys' with
    | nil =>
      refine List.Lex.rel (hcons hle fun heq => hdiv.2 ?_)
      simp_all
    | cons k' keys' =>
      by_cases hk : k = k'
      · subst hk
        refine List.Lex.cons (ih ?_ (diverge_cons.mp hdiv))
        rcases hle.lt_or_eq with hlt | heq
        · cases hlt with
          | rel h => exact absurd h (lt_irrefl _)
          | cons h => exact le_of_lt h
        · exact le_of_eq (List.cons.inj heq).2
      · exact List.Lex.rel (hcons hle hk)

variable {ports : PortPaths} {level : Level}

theorem le_of_append_le {a b c : Level} (h : a ++ b ≤ a ++ c) : b ≤ c := by
  induction a with
  | nil => exact h
  | cons s a ih =>
    refine ih ?_
    rcases h.lt_or_eq with hlt | heq
    · cases hlt with
      | rel h => exact absurd h (lt_irrefl _)
      | cons h => exact le_of_lt h
    · exact le_of_eq (List.cons.inj heq).2

/-- The children's places come sorted. -/
theorem pairwise_lex_childHop (h : ValidPorts ports) (level : Level) :
    (childrenOf ports level).Pairwise fun c c' =>
      List.Lex (· < ·) (childHop level c) (childHop level c') := by
  have hsorted : (childrenOf ports level).Pairwise fun c c' => c ≤ c' ∧ c ≠ c' :=
    (pairwise_sortLevels _).and (nodup_childrenOf ports level)
  refine hsorted.imp_of_mem fun {c c'} hc hc' hcc' => ?_
  have hdiv := diverge_children h hc hc' hcc'.2
  obtain ⟨keys, key, hhop, heq⟩ := eq_append_childHop hc
  obtain ⟨keys', key', hhop', heq'⟩ := eq_append_childHop hc'
  rw [hhop, hhop'] at hdiv ⊢
  refine lex_childHop (le_of_append_le (a := level) ?_) hdiv
  rw [← List.append_assoc, ← List.append_assoc, ← heq, ← heq']
  exact hcc'.1

/-- **The assembler's writes fill the schema's**: all the leaves, and the arrays that have
elements. -/
theorem fills_objectWrites (h : ValidPorts ports) {dtypes : List (String × DType)} {row : Row}
    {items : Level → List (String × SchemaNode)} {kids : Level → List Value}
    (hleaf : ∀ path ∈ ownPaths ports level,
      (leafDtype dtypes path).conforms (row.get path.raw) = true)
    (hkids : ∀ child ∈ childrenOf ports level, ∀ v ∈ kids child,
      (documentDtype (.dict (items child))).conforms v = true) :
    Fills (fun node v => (documentDtype node).conforms v = true)
      (schemaWrites ports dtypes level items) (objectWrites ports level row kids) := by
  refine ⟨_, _, ((childrenOf ports level).filter fun child => !(kids child).isEmpty).map
    fun child => (childHop level child, SchemaNode.list (items child)), _, _, rfl,
      rfl, ?_, ?_, ?_, ?_⟩
  · rw [List.forall₂_map_left_iff, List.forall₂_map_right_iff, List.forall₂_same]
    exact fun path hpath => ⟨rfl, hleaf path hpath⟩
  · exact List.filter_sublist.map _
  · rw [List.forall₂_map_left_iff, List.forall₂_map_right_iff, List.forall₂_same]
    refine fun child hchild => ⟨rfl, DType.conforms_list_list.mpr fun v hv => ?_⟩
    exact hkids child (List.mem_of_mem_filter hchild) v hv
  · exact List.pairwise_map.mpr (pairwise_lex_childHop h level)

theorem pairwise_schemaWrites (h : ValidPorts ports) (dtypes : List (String × DType))
    (items : Level → List (String × SchemaNode)) :
    (schemaWrites ports dtypes level items).Pairwise fun w u => Diverge w.1 u.1 := by
  have hfull := @pairwise_objectWrites ports level h [] fun _ => [.none]
  have hpaths : (schemaWrites ports dtypes level items).map Prod.fst
      = (objectWrites ports level [] fun _ => [.none]).map Prod.fst := by
    simp [schemaWrites, objectWrites, Function.comp_def]
  have := (List.pairwise_map (f := Prod.fst) (R := Diverge)).mpr hfull
  rw [← hpaths] at this
  exact List.pairwise_map.mp this

theorem schemaWrites_ne_nil (h : ValidPorts ports) (dtypes : List (String × DType))
    (items : Level → List (String × SchemaNode)) :
    ∀ w ∈ schemaWrites ports dtypes level items, w.1 ≠ [] := by
  intro w hw
  rcases List.mem_append.mp hw with hw | hw
  · obtain ⟨path, hpath, rfl⟩ := List.mem_map.mp hw
    exact (isOutputPath_of_mem_ownPaths h hpath).ownSubpath_ne_nil
  · obtain ⟨child, hchild, rfl⟩ := List.mem_map.mp hw
    exact childHop_ne_nil hchild

/-- **One level conforms**: by induction down the tree, every object built at a level
conforms to the level's schema. -/
theorem conforms_build {a : Assembly} (h : ValidPorts a.ports) {dtypes : List (String × DType)}
    (hrows : ∀ level, ∀ row ∈ a.levelRows level, ∀ path ∈ allPaths a.ports,
      (leafDtype dtypes path).conforms (row.get path.raw) = true)
    (fuel : ℕ) (level : Level) (scope : Row) :
    ∀ v ∈ a.build fuel level scope,
      (documentDtype (.dict (schemaLevel a.ports dtypes fuel level))).conforms v = true := by
  induction fuel generalizing level scope with
  | zero => simp [Assembly.build]
  | succ fuel ih =>
    intro v hv
    rw [Assembly.build_succ] at hv
    obtain ⟨row, hrow, rfl⟩ := List.mem_map.mp hv
    have hrow' := (a.mem_levelRows_of_mem_objectRows hrow).1
    have hleaf : ∀ path ∈ ownPaths a.ports level,
        (leafDtype dtypes path).conforms (row.get path.raw) = true := fun path hpath =>
      hrows level row hrow' path (List.mem_of_mem_filter hpath)
    exact (fills_objectWrites h hleaf fun child _ v hv => ih child _ v hv).rel_writeAll
      conforms_documentDtype_dict (schemaWrites_ne_nil h dtypes _)
        (pairwise_schemaWrites h dtypes _)

/-! ### The leaf dtypes -/

private theorem collectLeafDtypes_spec {port : String} {schema dtypes out : List (String × DType)}
    {entries : List (MappingEntry × ParsedPath)}
    (h : collectLeafDtypes port schema dtypes entries = .ok out) :
    (∀ raw t, Assoc.get? dtypes raw = some t → Assoc.get? out raw = some t) ∧
    ∀ e ∈ entries, ∃ t, Assoc.get? schema e.1.sourceColumn = some t ∧
      Assoc.get? out e.2.raw = some t := by
  induction entries generalizing dtypes with
  | nil =>
    obtain rfl : dtypes = out := by simpa [collectLeafDtypes] using h
    exact ⟨fun _ _ ht => ht, by simp⟩
  | cons e entries ih =>
    obtain ⟨entry, path⟩ := e
    obtain ⟨dtype, hdtype, h⟩ := bind_eq_ok_iff.mp h
    obtain ⟨⟨⟩, hsame, h⟩ := bind_eq_ok_iff.mp h
    obtain ⟨hkeep, hentries⟩ := ih h
    have hfirst : (Assoc.get? dtypes path.raw).getD dtype = dtype := by simpa using hsame
    refine ⟨fun raw t ht => hkeep raw t ?_, List.forall_mem_cons.mpr ⟨⟨dtype, by simpa using hdtype,
      hkeep path.raw dtype (Assoc.get?_set_self ..)⟩, hentries⟩⟩
    rw [Assoc.get?_set]
    split_ifs with hraw
    · rw [hraw] at ht
      rw [ht, Option.getD_some] at hfirst
      rw [hfirst]
    · exact ht

private theorem collectAllDtypes_spec {sources : List (String × List (String × DType))}
    {dtypes out : List (String × DType)} {ports : List (String × List (MappingEntry × ParsedPath))}
    (h : collectAllDtypes sources dtypes ports = .ok out) :
    (∀ raw t, Assoc.get? dtypes raw = some t → Assoc.get? out raw = some t) ∧
    ∀ p ∈ ports, ∃ schema, Assoc.get? sources p.1 = some schema ∧
      ∀ e ∈ p.2, ∃ t, Assoc.get? schema e.1.sourceColumn = some t ∧
        Assoc.get? out e.2.raw = some t := by
  induction ports generalizing dtypes with
  | nil =>
    obtain rfl : dtypes = out := by simpa [collectAllDtypes] using h
    exact ⟨fun _ _ ht => ht, by simp⟩
  | cons p ports ih =>
    obtain ⟨port, entries⟩ := p
    obtain ⟨schema, hschema, h⟩ := bind_eq_ok_iff.mp h
    obtain ⟨mid, hmid, h⟩ := bind_eq_ok_iff.mp h
    obtain ⟨hkeep, hports⟩ := ih h
    obtain ⟨hfirst, hentries⟩ := collectLeafDtypes_spec hmid
    refine ⟨fun raw t ht => hkeep raw t (hfirst raw t ht), List.forall_mem_cons.mpr ⟨?_, hports⟩⟩
    refine ⟨schema, by simpa using hschema, fun e he => ?_⟩
    obtain ⟨t, ht, hout⟩ := hentries e he
    exact ⟨t, ht, hkeep _ _ hout⟩

/-- A selected column has the dtype of its source column. -/
private theorem get?_selectSchema {schema ts : List (String × DType)} {as : List Alias}
    (h : selectSchema schema as = some ts) (hnodup : (as.map Alias.name).Nodup) {a : Alias}
    (ha : a ∈ as) : Assoc.get? ts a.name = Assoc.get? schema a.column := by
  induction as generalizing ts with
  | nil => simp at ha
  | cons b as ih =>
    obtain ⟨t, ht, rest, hrest, rfl⟩ : ∃ t, Assoc.get? schema b.column = some t ∧
        ∃ rest, selectSchema schema as = some rest ∧ (b.name, t) :: rest = ts := by
      simpa [selectSchema, Option.bind_eq_some_iff] using h
    rw [List.map_cons, List.nodup_cons] at hnodup
    rcases List.mem_cons.mp ha with rfl | ha
    · rw [Assoc.get?_cons_self, ht]
    · have hne : b.name ≠ a.name := fun e => hnodup.1 (e ▸ List.mem_map_of_mem ha)
      rw [Assoc.get?_cons_ne hne, ih hrest hnodup.2 ha]

/-- A field's cells conform to the derived leaf dtypes. -/
private theorem conforms_get_of_mem_rows {frames : List (String × Frame)}
    {mapping : List MappingEntry} {parsed : List (MappingEntry × ParsedPath)}
    (hparse : parseEntries mapping = .ok parsed) {dtypes : List (String × DType)}
    (hdtypes : collectAllDtypes (frames.map fun f => (f.1, f.2.schema)) [] (entriesByPort parsed)
      = .ok dtypes) {fields : List Field}
    (hfields : List.Forall₂ (FieldOf frames) (entriesByPort parsed) fields) {f : Field}
    (hf : f ∈ fields) {row : Row} (hrow : row ∈ f.2.2.rows) (path : ParsedPath) :
    (leafDtype dtypes path).conforms (row.get path.raw) = true := by
  obtain ⟨p, hp, hfp⟩ := hfields.exists_of_mem_right hf
  obtain ⟨source, hsource, hselect⟩ := hfp.selected
  obtain ⟨hschema, hnodup, -⟩ := Frame.select_eq_ok hselect
  rw [Row.get]
  rcases hv : Assoc.get? row path.raw with _ | v
  · exact DType.conforms_none _
  obtain ⟨t, ht, hfit⟩ := DType.fits_of_fitsFields (f.2.2.fits row hrow) hv
  -- the cell's column is one of the port's entries
  have hcol := Assoc.mem_keys_of_get?_eq_some ht
  rw [keys_selectSchema hschema, aliases, List.map_map] at hcol
  obtain ⟨e, he, hraw⟩ := List.mem_map.mp hcol
  have hout : e.2.raw = path.raw := by
    rw [(parseEntries_spec hparse e ((mem_entriesByPort hp).2 e he).1).1]
    exact hraw
  obtain ⟨schema, hsch, hentries⟩ := (collectAllDtypes_spec hdtypes).2 p hp
  obtain rfl : source.schema = schema := by
    have hmap := Assoc.get?_map_snd (fun _ (frame : Frame) => frame.schema) frames p.1
    rw [hsch, hsource] at hmap
    exact (Option.some.inj hmap).symm
  obtain ⟨t', ht', hleaf⟩ := hentries e he
  have hsel := get?_selectSchema hschema hnodup
    (a := ⟨e.1.sourceColumn, e.1.outputPath⟩) (List.mem_map.mpr ⟨e, he, rfl⟩)
  obtain rfl : t' = t := by
    have hname : e.1.outputPath = path.raw := hraw
    rw [hname, ht, ht'] at hsel
    exact (Option.some.inj hsel).symm
  rw [leafDtype, ← hout, hleaf, Option.getD_some, Option.getD_some]
  exact DType.conforms_of_fits hfit

/-- **The published schema describes every document.** Every object of an assembled
document conforms to the mapping's schema. -/
theorem document_conforms {lib : KeyLibrary} {frames : List (String × Frame)}
    {mapping : List MappingEntry} {rowLimit : Option ℕ} {topLevelPerRow : Bool}
    {document : List Value} {schema : List (String × DType)}
    (hdocument : assembleOutputFromMapping lib frames mapping rowLimit topLevelPerRow
      = .ok document)
    (hschema : outputDocumentSchema (frames.map fun f => (f.1, f.2.schema)) mapping = .ok schema) :
    ∀ object ∈ document, object.isDict = true ∧ (DType.struct schema).conforms object = true := by
  obtain ⟨fields, hmapped, rows, hrows, rfl⟩ := assembleOutputFromMapping_eq_ok_iff.mp hdocument
  obtain ⟨parsed, hparse, hfields⟩ := hmapped.fromEntries
  obtain ⟨⟨⟩, -, hschema⟩ := bind_eq_ok_iff.mp hschema
  obtain ⟨parsed', hparse', hschema⟩ := bind_eq_ok_iff.mp hschema
  obtain rfl : parsed = parsed' := Except.ok.inj (hparse.symm.trans hparse')
  obtain ⟨dtypes, hdtypes, hschema⟩ := bind_eq_ok_iff.mp hschema
  have hports : portsOf fields = distinctByPort parsed := by
    have := hmapped.mappingPorts_eq
    rw [mappingPorts, hparse] at this
    exact (Except.ok.inj this).symm
  obtain rfl := Except.ok.inj hschema
  intro object hobject
  obtain ⟨v, hv, rfl⟩ := mem_pruneList hobject
  have hdict : v.isDict = true := by
    rw [treeFuel, Assembly.build_succ] at hv
    obtain ⟨row, -, rfl⟩ := List.mem_map.mp hv
    rfl
  refine ⟨by obtain ⟨fs, rfl⟩ := Value.isDict_eq_true_iff.mp hdict; rfl, conforms_prune ?_⟩
  rw [← hports]
  refine conforms_build hmapped.validPorts (fun level row hrow path _ => ?_) _ [] [] v hv
  obtain ⟨f, hf, hfrow, -⟩ := exists_field_of_mem_levelRows hrows hrow
  exact conforms_get_of_mem_rows hparse hdtypes hfields hf hfrow path

/-! ### A document of policies and their vehicles -/

/-- Two policies, and the vehicles of the first below an object hop. -/
def policyFrames : List (String × Frame) :=
  [("policies", ⟨[("id", .scalar .int), ("holder", .scalar .str)],
      [[("id", .int 1), ("holder", .str "Ada")], [("id", .int 2), ("holder", .none)]],
      by decide, by decide⟩),
    ("vehicles", ⟨[("policy", .scalar .int), ("reg", .scalar .str)],
      [[("policy", .int 1), ("reg", .str "AB1")], [("policy", .int 1), ("reg", .str "AB2")]],
      by decide, by decide⟩)]

def policyMapping : List MappingEntry :=
  [⟨"policies", "id", "$[:].id", true⟩, ⟨"policies", "holder", "$[:].holder.name", true⟩,
    ⟨"vehicles", "policy", "$[:].id", true⟩,
    ⟨"vehicles", "reg", "$[:].cover.vehicles[:].reg", true⟩]

def policyDocument : List Value :=
  [.dict [("id", .int 1), ("holder", .dict [("name", .str "Ada")]),
      ("cover", .dict [("vehicles",
        .list [.dict [("reg", .str "AB1")], .dict [("reg", .str "AB2")]])])],
    .dict [("id", .int 2)]]

def policySchema : List (String × DType) :=
  [("id", .scalar .int), ("holder", .struct [("name", .scalar .str)]),
    ("cover", .struct [("vehicles", .list (.struct [("reg", .scalar .str)]))])]

/-- A library that compares key columns of one type, by their values' identities. -/
def typedKeys : KeyLibrary where
  isInError dtype values :=
    if values.all dtype.conforms then none else some (.frame "is_in cannot check for the values")
  joinError left right :=
    if left = right then none else some (.frame "datatypes of join keys don't match")
  keyEq v w := decide (identity v = identity w)

/-- The policies' document conforms to its schema. -/
theorem document_conforms_policies :
    policyDocument.all
      (fun object => object.isDict && (DType.struct policySchema).conforms object) = true :=
  List.all_eq_true.mpr fun object hobject => Bool.and_eq_true_iff.mpr <|
    @document_conforms typedKeys policyFrames policyMapping none false _ _
      (by decide +kernel) (by decide +kernel) object hobject

end Haute
