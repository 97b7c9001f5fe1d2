import Haute.Inference.Filter

/-!
# What a filter has learned is known

What a walk notes is a fact that later notes keep (`Extends.holds`), and noting a fact that holds
changes nothing (`noteColumn_eq_self` and its like). An observed shape is known to a state when the
facts of everything observed hold there; what is known stays known.
-/

namespace Haute

open Relation (ReflTransGen)

/-! ### Facts -/

/-- What a note says. -/
inductive Fact where
  | level (level : Level)
  | column (level : Level) (path : ObjectPath) (type : ColType)
  | array (level : Level)
  | elements (level : Level) (type : ColType)
  | container (level : Level) (path : ObjectPath)
  | null (level : Level) (path : ObjectPath)
  | key (key : String)

namespace InferenceState

/-- The state has the evidence already. -/
def Holds (s : InferenceState) : Fact → Prop
  | .level level => level ∈ s.levels.keys
  | .column level path type =>
    ∃ columns held, s.levels.get? level = some columns ∧ columns.get? path = some held ∧ type ≤ held
  | .array level => level ∈ s.scalarLevels.keys
  | .elements level type => ∃ held, s.scalarLevels.get? level = some (some held) ∧ type ≤ held
  | .container level path => ∃ paths, s.containerPaths.get? level = some paths ∧ path ∈ paths
  | .null level path => ∃ nulls, s.nullLeaves.get? level = some nulls ∧ path ∈ nulls.keys
  | .key key => key ∈ s.validatedKeys

end InferenceState

open InferenceState

variable {s s' : InferenceState} {level : Level} {path : ObjectPath} {type : ColType}

/-- A type below the one that is held does not widen it. -/
theorem widenType_of_le {held : ColType} (h : type ≤ held) : widenType (some held) type = held :=
  (widenType_some held type).trans (sup_eq_left.mpr h)

/-- Widening never loses what is held. -/
theorem le_widenType_left (o : Option ColType) (held : ColType) (h : o = some held) :
    held ≤ widenType o type := by
  rw [h, widenType_some]
  exact le_sup_left

/-- Widening takes in the new type. -/
theorem le_widenType (o : Option ColType) : type ≤ widenType o type := by
  cases o with
  | none => exact le_rfl
  | some held =>
    rw [widenType_some]
    exact le_sup_right

/-! ### Noting what holds -/

/-- A level that has been noted is noted no further. -/
theorem noteLevel_eq_self (h : s.Holds (.level level)) : s.noteLevel level = s := by
  obtain ⟨columns, hcolumns⟩ := OrdDict.mem_keys_iff.mp h
  have hlevels : s.levels.setdefault level .empty = s.levels := OrdDict.upsert_eq_self hcolumns rfl
  rw [noteLevel, hlevels]

/-- A column whose type takes in what is noted is noted no further. -/
theorem noteColumn_eq_self (h : s.Holds (.column level path type)) :
    s.noteColumn level path type = s := by
  obtain ⟨columns, held, hcolumns, hheld, hle⟩ := h
  have hpath : columns.upsert path (fun o => widenType o type) = columns :=
    OrdDict.upsert_eq_self hheld (widenType_of_le hle)
  have hlevels : (s.levels.upsert level fun cols =>
      (cols.getD .empty).upsert path fun o => widenType o type) = s.levels :=
    OrdDict.upsert_eq_self hcolumns hpath
  rw [noteColumn, hlevels]

/-- An array that has been noted is noted no further without elements. -/
theorem noteScalars_none_eq_self (h : s.Holds (.array level)) : s.noteScalars level none = s := by
  obtain ⟨held, hheld⟩ := OrdDict.mem_keys_iff.mp h
  have hlevels : s.scalarLevels.setdefault level none = s.scalarLevels :=
    OrdDict.upsert_eq_self hheld rfl
  rw [noteScalars, hlevels]

/-- Elements whose type takes in what is noted are noted no further. -/
theorem noteScalars_some_eq_self (h : s.Holds (.elements level type)) :
    s.noteScalars level (some type) = s := by
  obtain ⟨held, hheld, hle⟩ := h
  have hlevels : (s.scalarLevels.upsert level fun o => some (widenType (o.getD none) type)) =
      s.scalarLevels :=
    OrdDict.upsert_eq_self hheld (congrArg some (widenType_of_le hle))
  rw [noteScalars, hlevels]

/-- A container path that has been noted is noted no further. -/
theorem noteContainer_eq_self (h : s.Holds (.container level path)) :
    s.noteContainer level path = s := by
  obtain ⟨paths, hpaths, hmem⟩ := h
  have hlevels : (s.containerPaths.upsert level fun o => insert path (o.getD ∅)) =
      s.containerPaths :=
    OrdDict.upsert_eq_self hpaths (Finset.insert_eq_self.mpr hmem)
  rw [noteContainer, hlevels]

/-- A null leaf that has been noted is noted no further. -/
theorem noteNull_eq_self (h : s.Holds (.null level path)) : s.noteNull level path = s := by
  obtain ⟨nulls, hnulls, hmem⟩ := h
  obtain ⟨u, hu⟩ := OrdDict.mem_keys_iff.mp hmem
  have hlevels : (s.nullLeaves.upsert level fun o => (o.getD .empty).insert path ()) =
      s.nullLeaves :=
    OrdDict.upsert_eq_self hnulls (OrdDict.upsert_eq_self hu rfl)
  rw [noteNull, hlevels]

/-- A key that has been checked is not checked again. -/
theorem validateKeyOnce_eq_self {key : String} (h : s.Holds (.key key)) :
    s.validateKeyOnce key = .ok s :=
  if_pos h

/-! ### What is noted holds, and goes on holding -/

/-- A level holds once it is noted. -/
theorem holds_noteLevel : (s.noteLevel level).Holds (.level level) :=
  OrdDict.mem_keys_upsert.mpr (.inl rfl)

/-- A column holds with its type once it is noted. -/
theorem holds_noteColumn : (s.noteColumn level path type).Holds (.column level path type) :=
  ⟨_, _, OrdDict.get?_upsert_self .., OrdDict.get?_upsert_self .., le_widenType _⟩

/-- An array of scalars holds once it is noted. -/
theorem holds_noteScalars (o : Option ColType) : (s.noteScalars level o).Holds (.array level) := by
  cases o <;> exact OrdDict.mem_keys_upsert.mpr (.inl rfl)

/-- Its elements hold with their type. -/
theorem holds_noteScalars_some : (s.noteScalars level (some type)).Holds (.elements level type) :=
  ⟨_, OrdDict.get?_upsert_self .., le_widenType _⟩

/-- A container path holds once it is noted. -/
theorem holds_noteContainer : (s.noteContainer level path).Holds (.container level path) :=
  ⟨_, OrdDict.get?_upsert_self .., Finset.mem_insert_self ..⟩

/-- A null leaf holds once it is noted. -/
theorem holds_noteNull : (s.noteNull level path).Holds (.null level path) :=
  ⟨_, OrdDict.get?_upsert_self .., OrdDict.mem_keys_upsert.mpr (.inl rfl)⟩

/-- A key holds once it has passed its check. -/
theorem holds_validateKeyOnce {key : String} (h : s.validateKeyOnce key = .ok s') :
    s'.Holds (.key key) := by
  unfold validateKeyOnce at h
  split_ifs at h with hkey
  · cases h
    exact hkey
  · obtain ⟨_, -, h⟩ := bind_eq_ok_iff.mp h
    cases h
    exact Finset.mem_insert_self ..

/-- The later state has all that the earlier has. -/
structure Extends (s s' : InferenceState) : Prop where
  levels : ∀ level columns, s.levels.get? level = some columns →
    ∃ columns', s'.levels.get? level = some columns' ∧
      ∀ path type, columns.get? path = some type → ∃ type', columns'.get? path =
        some type' ∧ type ≤ type'
  scalars : ∀ level type, s.scalarLevels.get? level = some type →
    ∃ type', s'.scalarLevels.get? level = some type' ∧ ∀ t, type = some t →
      ∃ t', type' = some t' ∧ t ≤ t'
  containers : ∀ level paths, s.containerPaths.get? level = some paths →
    ∃ paths', s'.containerPaths.get? level = some paths' ∧ paths ⊆ paths'
  nulls : ∀ level leaves, s.nullLeaves.get? level = some leaves →
    ∃ leaves', s'.nullLeaves.get? level = some leaves' ∧ ∀ path ∈ leaves.keys, path ∈ leaves'.keys
  keys : s.validatedKeys ⊆ s'.validatedKeys

/-- A state extends itself. -/
theorem Extends.refl (s : InferenceState) : Extends s s where
  levels _ columns h := ⟨columns, h, fun _ type htype => ⟨type, htype, le_rfl⟩⟩
  scalars _ type h := ⟨type, h, fun t ht => ⟨t, ht, le_rfl⟩⟩
  containers _ paths h := ⟨paths, h, Finset.Subset.refl _⟩
  nulls _ leaves h := ⟨leaves, h, fun _ hpath => hpath⟩
  keys := Finset.Subset.refl _

/-- A write to a dictionary, seen at any key. -/
theorem exists_get?_upsert {κ ν : Type} [DecidableEq κ] {R : ν → ν → Prop} (hrefl : ∀ v, R v v)
    {d : OrdDict κ ν} {k' : κ} {f : Option ν → ν} (hwrite : ∀ v, R v (f (some v))) :
    ∀ k v, d.get? k = some v → ∃ v', (d.upsert k' f).get? k = some v' ∧ R v v' := by
  intro k v hv
  rw [OrdDict.get?_upsert]
  split_ifs with h
  · subst h
    exact ⟨f (some v), by rw [hv], hwrite v⟩
  · exact ⟨v, hv, hrefl v⟩

/-- A state with something noted extends the one before. -/
theorem Noted.extends (h : Noted s s') : Extends s s' := by
  have hrefl := Extends.refl s
  cases h with
  | level =>
    exact { hrefl with
      levels := exists_get?_upsert (fun _ _ type htype => ⟨type, htype, le_rfl⟩)
        fun _ _ type htype => ⟨type, htype, le_rfl⟩ }
  | column =>
    refine { hrefl with
      levels := exists_get?_upsert (fun _ _ type htype => ⟨type, htype, le_rfl⟩)
        fun columns path type htype => ?_ }
    exact exists_get?_upsert (fun _ => le_rfl) (fun held => le_widenType_left _ held rfl) path
      type htype
  | @scalars level type =>
    have hsame : ∀ o : Option ColType, ∀ t, o = some t → ∃ t', o = some t' ∧ t ≤ t' :=
      fun _ t ht => ⟨t, ht, le_rfl⟩
    cases type with
    | none => exact { hrefl with scalars := exists_get?_upsert hsame hsame }
    | some type =>
      refine { hrefl with scalars := exists_get?_upsert hsame fun o t ht => ⟨_, rfl, ?_⟩ }
      exact le_widenType_left _ t ht
  | container =>
    exact { hrefl with
      containers :=
        exists_get?_upsert (fun _ => Finset.Subset.refl _) fun paths =>
          Finset.subset_insert _ paths }
  | null =>
    exact { hrefl with
      nulls := exists_get?_upsert (fun _ _ hpath => hpath) fun leaves _ hpath =>
        OrdDict.mem_keys_upsert.mpr (.inr hpath) }
  | key h =>
    unfold validateKeyOnce at h
    split_ifs at h with hkey
    · cases h
      exact hrefl
    · obtain ⟨_, -, h⟩ := bind_eq_ok_iff.mp h
      cases h
      exact { hrefl with keys := Finset.subset_insert _ _ }

/-- What holds of a state holds of every one that extends it. -/
theorem Extends.holds (h : Extends s s') {fact : Fact} (hf : s.Holds fact) : s'.Holds fact := by
  cases fact with
  | level level =>
    obtain ⟨columns, hcolumns⟩ := OrdDict.mem_keys_iff.mp hf
    obtain ⟨columns', hcolumns', -⟩ := h.levels level columns hcolumns
    exact OrdDict.mem_keys_iff.mpr ⟨columns', hcolumns'⟩
  | column level path type =>
    obtain ⟨columns, held, hcolumns, hheld, hle⟩ := hf
    obtain ⟨columns', hcolumns', hkept⟩ := h.levels level columns hcolumns
    obtain ⟨held', hheld', hle'⟩ := hkept path held hheld
    exact ⟨columns', held', hcolumns', hheld', hle.trans hle'⟩
  | array level =>
    obtain ⟨type, htype⟩ := OrdDict.mem_keys_iff.mp hf
    obtain ⟨type', htype', -⟩ := h.scalars level type htype
    exact OrdDict.mem_keys_iff.mpr ⟨type', htype'⟩
  | elements level type =>
    obtain ⟨held, hheld, hle⟩ := hf
    obtain ⟨o, ho, hkept⟩ := h.scalars level (some held) hheld
    obtain ⟨held', rfl, hle'⟩ := hkept held rfl
    exact ⟨held', ho, hle.trans hle'⟩
  | container level path =>
    obtain ⟨paths, hpaths, hmem⟩ := hf
    obtain ⟨paths', hpaths', hsub⟩ := h.containers level paths hpaths
    exact ⟨paths', hpaths', hsub hmem⟩
  | null level path =>
    obtain ⟨leaves, hleaves, hmem⟩ := hf
    obtain ⟨leaves', hleaves', hsub⟩ := h.nulls level leaves hleaves
    exact ⟨leaves', hleaves', hsub path hmem⟩
  | key key => exact h.keys hf

/-- What holds goes on holding along a walk. -/
theorem holds_of_noted (h : ReflTransGen Noted s s') {fact : Fact} (hf : s.Holds fact) :
    s'.Holds fact := by
  induction h with
  | refl => exact hf
  | tail _ hlast ih => exact hlast.extends.holds ih

/-! ### Known shapes -/

/-- The type that inference sees in a scalar of a Python type. -/
def PyType.columnType : PyType → ColType
  | .bool => .bool
  | .int => .int
  | .float => .float
  | _ => .str

/-- A value's column type is that of its Python type. -/
theorem inferType_eq (value : Value) : inferType value = value.pyType.columnType := by
  cases value <;> rfl

/-- Scalars of the type are known as leaves. -/
def ScalarKnown (s : InferenceState) (level : Level) (path : ObjectPath) : PyType → Prop
  | .none => s.Holds (.null level path)
  | .list | .dict => False
  | type => s.Holds (.column level path type.columnType)

/-- Scalars of the type are known as elements. -/
def ElementKnown (s : InferenceState) (level : Level) : PyType → Prop
  | .none | .list | .dict => False
  | type => s.Holds (.elements level type.columnType)

/-- No object and no scalar was seen. -/
def ObservedArray.Blank : ObservedArray → Prop
  | .mk objects types _ _ => objects = none ∧ types = ∅

variable (s) in
mutual

/-- What was observed under a key. -/
def KnownChild : ObservedValue → Level → ObjectPath → String → Prop
  | .mk types fields array _, level, objPrefix, key =>
    (∀ type ∈ types, ScalarKnown s level (objPrefix ++ [key]) type) ∧
      KnownObjects fields level (objPrefix ++ [key]) ∧ KnownArrays array level objPrefix key

def KnownObjects : Option (List (String × ObservedValue)) → Level → ObjectPath → Prop
  | none, _, _ => True
  | some fields, level, path =>
    s.Holds (.container level path) ∧ s.Holds (.level level) ∧ KnownFields fields level path

def KnownFields : List (String × ObservedValue) → Level → ObjectPath → Prop
  | [], _, _ => True
  | (key, child) :: fields, level, objPrefix =>
    s.Holds (.key key) ∧ KnownChild child level objPrefix key ∧ KnownFields fields level objPrefix

def KnownArrays : Option ObservedArray → Level → ObjectPath → String → Prop
  | none, _, _, _ => True
  | some array, level, objPrefix, key =>
    s.Holds (.container level (objPrefix ++ [key])) ∧
      KnownArray array (level ++ objectHops objPrefix ++ [⟨key, true⟩]) ∧
      -- what was observed without objects or scalars was empty
      (array.Blank → s.Holds (.array (level ++ objectHops objPrefix ++ [⟨key, true⟩])))

def KnownArray : ObservedArray → Level → Prop
  | .mk objects types emptySeen nullOnlySeen, level =>
    KnownItems objects level ∧ (∀ type ∈ types, ElementKnown s level type) ∧
      (emptySeen = true ∨ nullOnlySeen = true → s.Holds (.array level))

def KnownItems : Option ObservedValue → Level → Prop
  | none, _ => True
  | some objects, level => KnownRecord objects level

/-- What was observed of objects, at the level they open. -/
def KnownRecord : ObservedValue → Level → Prop
  | .mk types fields array _, level => types = ∅ ∧ array = none ∧ KnownRoot fields level

def KnownRoot : Option (List (String × ObservedValue)) → Level → Prop
  | none, _ => True
  | some fields, level => s.Holds (.level level) ∧ KnownFields fields level []

end

/-- A scalar stays known where more holds. -/
theorem ScalarKnown.mono (h : ∀ fact, s.Holds fact → s'.Holds fact) {type : PyType} :
    ScalarKnown s level path type → ScalarKnown s' level path type := by
  intro hknown
  cases type with
  | none => exact h (.null level path) hknown
  | list => exact hknown
  | dict => exact hknown
  | _ => exact h (.column level path _) hknown

/-- A scalar element stays known where more holds. -/
theorem ElementKnown.mono (h : ∀ fact, s.Holds fact → s'.Holds fact) {type : PyType} :
    ElementKnown s level type → ElementKnown s' level type := by
  intro hknown
  cases type with
  | none => exact hknown
  | list => exact hknown
  | dict => exact hknown
  | _ => exact h (.elements level _) hknown

mutual

/-- What is known of a value stays known where more holds, with its objects and arrays. -/
theorem KnownChild.mono (h : ∀ fact, s.Holds fact → s'.Holds fact) :
    ∀ (o : ObservedValue) {level : Level} {objPrefix : ObjectPath} {key : String},
      KnownChild s o level objPrefix key → KnownChild s' o level objPrefix key
  | .mk _ fields array _, _, _, _ => fun ⟨htypes, hfields, harray⟩ =>
    ⟨fun type htype => (htypes type htype).mono h, KnownObjects.mono h fields hfields,
      KnownArrays.mono h array harray⟩

theorem KnownObjects.mono (h : ∀ fact, s.Holds fact → s'.Holds fact) :
    ∀ (fields : Option (List (String × ObservedValue))) {level : Level}
      {path : ObjectPath}, KnownObjects s fields level path → KnownObjects s' fields level path
  | none, _, _ => id
  | some fields, _, _ => fun ⟨hcontainer, hlevel, hfields⟩ =>
    ⟨h _ hcontainer, h _ hlevel, KnownFields.mono h fields hfields⟩

theorem KnownFields.mono (h : ∀ fact, s.Holds fact → s'.Holds fact) :
    ∀ (fields : List (String × ObservedValue)) {level : Level}
      {objPrefix : ObjectPath}, KnownFields s fields level objPrefix →
      KnownFields s' fields level objPrefix
  | [], _, _ => id
  | (_, child) :: fields, _, _ => fun ⟨hkey, hchild, hfields⟩ =>
    ⟨h _ hkey, KnownChild.mono h child hchild, KnownFields.mono h fields hfields⟩

theorem KnownArrays.mono (h : ∀ fact, s.Holds fact → s'.Holds fact) :
    ∀ (array : Option ObservedArray) {level : Level} {objPrefix : ObjectPath}
      {key : String}, KnownArrays s array level objPrefix key →
      KnownArrays s' array level objPrefix key
  | none, _, _, _ => id
  | some array, _, _, _ => fun ⟨hcontainer, harray, hblank⟩ =>
    ⟨h _ hcontainer, KnownArray.mono h array harray, fun hseen => h _ (hblank hseen)⟩

theorem KnownArray.mono (h : ∀ fact, s.Holds fact → s'.Holds fact) :
    ∀ (array : ObservedArray) {level : Level},
      KnownArray s array level → KnownArray s' array level
  | .mk objects _ _ _, _ => fun ⟨hobjects, htypes, hempty⟩ =>
    ⟨KnownItems.mono h objects hobjects, fun type htype => (htypes type htype).mono h,
      fun hseen => h _ (hempty hseen)⟩

theorem KnownItems.mono (h : ∀ fact, s.Holds fact → s'.Holds fact) :
    ∀ (objects : Option ObservedValue) {level : Level},
      KnownItems s objects level → KnownItems s' objects level
  | none, _ => id
  | some objects, _ => fun hobjects => KnownRecord.mono h objects hobjects

theorem KnownRecord.mono (h : ∀ fact, s.Holds fact → s'.Holds fact) :
    ∀ (o : ObservedValue) {level : Level}, KnownRecord s o level → KnownRecord s' o level
  | .mk _ fields _ _, _ => fun ⟨htypes, harray, hfields⟩ =>
    ⟨htypes, harray, KnownRoot.mono h fields hfields⟩

theorem KnownRoot.mono (h : ∀ fact, s.Holds fact → s'.Holds fact) :
    ∀ (fields : Option (List (String × ObservedValue))) {level : Level},
      KnownRoot s fields level → KnownRoot s' fields level
  | none, _ => id
  | some fields, _ => fun ⟨hlevel, hfields⟩ => ⟨h _ hlevel, KnownFields.mono h fields hfields⟩

end

end Haute
