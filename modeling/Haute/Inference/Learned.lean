import Haute.Inference.Known

/-!
# Learning and letting through

Walking a value makes what is observed of it known (`walkChild_observe`), and a value that the
converter accepts for the type of a known shape is walked without a change
(`walkChild_of_convert`); both are by induction on the value. What is known is of values JSON
has, so the types built of it in JSON mode are types of such values (`json_nativeRecord`).
-/

namespace Haute

open InferenceState
open Relation (ReflTransGen)

variable {s s' : InferenceState} {level : Level} {objPrefix path : ObjectPath} {key : String}
  {jsonMode : Bool} {M : Converter}

/-- The dicts are the values of one Python type. -/
theorem isDict_iff {value : Value} : value.isDict = true ↔ value.pyType = .dict := by
  cases value <;> simp [Value.isDict, Value.pyType]

/-! ### What the converter lets through -/

/-- A value that fits a type is of it, unless it is an integer for a float or a text for a date. -/
theorem pyType_of_fits {type : PyType} {value : Value} (h : type.Fits value) :
    value.pyType = type ∨ type = .float ∧ value.pyType = .int ∨ type = .date ∧
      value.pyType = .str := by
  cases type with
  | float => exact h.imp id fun h => .inl ⟨rfl, h⟩
  | date => exact h.imp id fun h => .inr ⟨rfl, h⟩
  | _ => exact .inl h

/-- What is inferred of a value is no more than the column type of what it fits. -/
theorem inferType_le_of_fits {type : PyType} {value : Value} (h : type.Fits value) :
    inferType value ≤ type.columnType := by
  rw [inferType_eq]
  rcases pyType_of_fits h with hvalue | ⟨rfl, hvalue⟩ | ⟨rfl, hvalue⟩
  · rw [hvalue]
  · rw [hvalue]
    exact sup_eq_right.mp rfl
  · rw [hvalue]
    exact sup_eq_right.mp rfl

/-- A scalar of a known type is a known leaf. -/
theorem ScalarKnown.of_fits {type : PyType} {value : Value} (h : ScalarKnown s level path type)
    (hfits : type.Fits value) :
    value.pyType = .none ∧ s.Holds (.null level path) ∨
      value.pyType ≠ .none ∧ value.pyType ≠ .list ∧ value.pyType ≠ .dict ∧
        s.Holds (.column level path (inferType value)) := by
  have hle := inferType_le_of_fits hfits
  have hcolumn : s.Holds (.column level path type.columnType) →
      s.Holds (.column level path (inferType value)) :=
    fun ⟨columns, held, hcolumns, hheld, hheldle⟩ =>
      ⟨columns, held, hcolumns, hheld, hle.trans hheldle⟩
  cases type with
  | none => exact .inl ⟨hfits, h⟩
  | list => exact h.elim
  | dict => exact h.elim
  | _ =>
    refine .inr ?_
    rcases pyType_of_fits hfits with hvalue | ⟨-, hvalue⟩ | ⟨-, hvalue⟩ <;> rw [hvalue] <;>
      exact ⟨by decide, by decide, by decide, hcolumn h⟩

/-- An element of a known type is known. -/
theorem ElementKnown.of_fits {type : PyType} {value : Value} (h : ElementKnown s level type)
    (hfits : type.Fits value) :
    value.pyType ≠ .none ∧ value.pyType ≠ .list ∧ value.pyType ≠ .dict ∧
      s.Holds (.elements level (inferType value)) := by
  have hle := inferType_le_of_fits hfits
  have helements : s.Holds (.elements level type.columnType) →
      s.Holds (.elements level (inferType value)) :=
    fun ⟨held, hheld, hheldle⟩ => ⟨held, hheld, hle.trans hheldle⟩
  cases type with
  | none => exact h.elim
  | list => exact h.elim
  | dict => exact h.elim
  | _ =>
    rcases pyType_of_fits hfits with hvalue | ⟨-, hvalue⟩ | ⟨-, hvalue⟩ <;> rw [hvalue] <;>
      exact ⟨by decide, by decide, by decide, helements h⟩

/-- What a scalar type accepts fits it. -/
theorem fits_of_convert_nativeScalar {type : PyType} {value : Value}
    (h : M.convert (nativeScalar jsonMode type) value = true) : type.Fits value := by
  unfold nativeScalar at h
  split_ifs at h with hint
  · obtain ⟨-, rfl⟩ := hint
    exact M.convert_jsonInt value h
  · exact M.convert_scalar type value h

/-- What one of several scalar types accepts fits one of the types. -/
theorem exists_fits_of_mem_nativeScalars {types : Finset PyType}
    {native : NativeType} {value : Value}
    (hmem : native ∈ nativeScalars jsonMode types) (h : M.convert native value = true) :
    ∃ type ∈ types, type.Fits value := by
  obtain ⟨type, htype, rfl⟩ := List.mem_map.mp hmem
  exact ⟨type, of_decide_eq_true (List.mem_filter.mp htype).2, fits_of_convert_nativeScalar h⟩

/-- Which part of an observed shape let a value through. -/
theorem convert_nativeType {types : Finset PyType} {fields : Option (List (String × ObservedValue))}
    {array : Option ObservedArray} {unsupported : Bool} {native : NativeType} {value : Value}
    (hnative : nativeType jsonMode (.mk types fields array unsupported) = some native)
    (h : M.convert native value = true) :
    (∃ type ∈ types, type.Fits value) ∨
      (∃ known natives, fields = some known ∧ nativeFields jsonMode known = some natives ∧
        M.convert (.object natives) value = true) ∨
      ∃ known native, array = some known ∧ nativeArray jsonMode known = some native ∧
        M.convert native value = true := by
  rw [nativeType] at hnative
  split_ifs at hnative
  simp only [Option.bind_eq_bind, Option.pure_def, Option.bind_eq_some_iff, Option.some.injEq]
    at hnative
  obtain ⟨objects, hobjects, arrays, harrays, rfl⟩ := hnative
  obtain ⟨choice, hchoice, hconvert⟩ := M.convert_union _ _ h
  rcases List.mem_append.mp hchoice with hscalar | hchoice
  · exact .inl (exists_fits_of_mem_nativeScalars hscalar hconvert)
  rcases List.mem_append.mp hchoice with hobject | harray
  · cases fields with
    | none =>
      rw [nativeObjects] at hobjects
      cases hobjects
      cases hobject
    | some known =>
      simp only [nativeObjects, Option.bind_eq_bind, Option.pure_def, Option.bind_eq_some_iff,
        Option.some.injEq] at hobjects
      obtain ⟨natives, hnatives, rfl⟩ := hobjects
      obtain rfl := List.mem_singleton.mp hobject
      exact .inr (.inl ⟨known, natives, rfl, hnatives, hconvert⟩)
  · cases array with
    | none =>
      rw [nativeArrays] at harrays
      cases harrays
      cases harray
    | some known =>
      simp only [nativeArrays, Option.bind_eq_bind, Option.pure_def, Option.bind_eq_some_iff,
        Option.some.injEq] at harrays
      obtain ⟨native, hnative, rfl⟩ := harrays
      obtain rfl := List.mem_singleton.mp harray
      exact .inr (.inr ⟨known, _, rfl, hnative, hconvert⟩)

/-- A field of a known object's type comes from a known field. -/
theorem exists_known_field {fields : List (String × ObservedValue)}
    {natives : List (String × NativeType)}
    (hknown : KnownFields s fields level objPrefix)
    (hnatives : nativeFields jsonMode fields = some natives)
    {native : NativeType} (hmem : (key, native) ∈ natives) :
    s.Holds (.key key) ∧
      ∃ child, KnownChild s child level objPrefix key ∧ nativeType jsonMode child =
        some native := by
  induction fields generalizing natives with
  | nil =>
    rw [nativeFields] at hnatives
    cases hnatives
    cases hmem
  | cons field fields ih =>
    obtain ⟨name, child⟩ := field
    obtain ⟨hkey, hchild, hfields⟩ := hknown
    simp only [nativeFields, Option.bind_eq_bind, Option.pure_def, Option.bind_eq_some_iff,
      Option.some.injEq] at hnatives
    obtain ⟨childType, hchildType, rest, hrest, rfl⟩ := hnatives
    rcases List.mem_cons.mp hmem with heq | hmem
    · cases heq
      exact ⟨hkey, child, hchild, hchildType⟩
    · exact ih hfields hrest hmem

/-- Scalar elements that are known give a known type. -/
theorem elementType_of_known {items : List Value} {type : Option ColType}
    (htype : ∀ t, type = some t → s.Holds (.elements level t))
    (hitems : ∀ item ∈ items, item.pyType = .none ∨
      item.pyType ≠ .list ∧ s.Holds (.elements level (inferType item))) :
    ∃ type', elementType path items type = .ok type' ∧
      (∀ t, type' = some t → s.Holds (.elements level t)) ∧
      (type' = none → type = none ∧ ∀ item ∈ items, item.pyType = .none) := by
  induction items generalizing type with
  | nil => exact ⟨type, rfl, htype, fun hnone => ⟨hnone, fun _ hitem => nomatch hitem⟩⟩
  | cons item items ih =>
    have hrest := fun item hitem => hitems item (List.mem_cons_of_mem _ hitem)
    -- an element that is no null widens the type
    have hwiden : s.Holds (.elements level (inferType item)) →
        ∀ t, some (widenType type (inferType item)) = some t → s.Holds (.elements level t) := by
      rintro ⟨held, hheld, hle⟩ t ht
      cases ht
      refine ⟨held, hheld, ?_⟩
      cases type with
      | none => exact hle
      | some t =>
        obtain ⟨held', hheld', hle'⟩ := htype t rfl
        rw [hheld] at hheld'
        cases hheld'
        exact sup_le hle' hle
    have hskip : item.pyType = .none → ∃ type', elementType path items type = .ok type' ∧
        (∀ t, type' = some t → s.Holds (.elements level t)) ∧
          (type' = none → type = none ∧ ∀ value ∈ item :: items, value.pyType = .none) := by
      intro hnone
      obtain ⟨type', helement, hheld, hall⟩ := ih htype hrest
      exact ⟨type', helement, hheld, fun h =>
        ⟨(hall h).1, List.forall_mem_cons.mpr ⟨hnone, (hall h).2⟩⟩⟩
    have hwidened : s.Holds (.elements level (inferType item)) → ∃ type',
        elementType path items (some (widenType type (inferType item))) = .ok type' ∧
          (∀ t, type' = some t → s.Holds (.elements level t)) ∧
            (type' = none → type = none ∧ ∀ value ∈ item :: items, value.pyType = .none) := by
      intro hknown
      obtain ⟨type', helement, hheld, hall⟩ := ih (hwiden hknown) hrest
      exact ⟨type', helement, hheld, fun h => nomatch (hall h).1⟩
    rcases hitems item List.mem_cons_self with hnone | ⟨hlist, hknown⟩
    · cases item <;> first | exact hskip hnone | cases hnone
    · cases item with
      | list => exact absurd rfl hlist
      | none => exact hskip rfl
      | _ => exact hwidened hknown

/-! ### Walking what is let through -/

/-- An array of a known shape: its elements are objects of one, or scalars of known types. -/
theorem convert_nativeArray {array : ObservedArray} {native : NativeType} {value : Value}
    (hknown : KnownArray s array level) (hblank : array.Blank → s.Holds (.array level))
    (hnative : nativeArray jsonMode array = some native) (h : M.convert native value = true) :
    ∃ items, value = .list items ∧
      ((items = [] ∧ s.Holds (.array level)) ∨
        (items ≠ [] ∧ ∃ objects item, KnownRecord s objects level ∧ nativeType jsonMode objects =
          some item ∧
          ∀ value ∈ items, M.convert item value = true) ∨
        (items ≠ [] ∧ ∀ item ∈ items, item.pyType = .none ∧ s.Holds (.array level) ∨
          item.pyType ≠ .none ∧ item.pyType ≠ .list ∧ item.pyType ≠ .dict ∧
            s.Holds (.elements level (inferType item)))) := by
  obtain ⟨objects, types, emptySeen, nullOnlySeen⟩ := array
  obtain ⟨hobjects, htypes, hempty⟩ := hknown
  have hseen : ∀ {items : List Value}, ((!emptySeen) = true → items ≠ []) → items = [] →
      s.Holds (.array level) := by
    intro items hnonempty hitems
    cases emptySeen with
    | true => exact hempty (.inl rfl)
    | false => exact absurd hitems (hnonempty rfl)
  cases objects with
  | some objects =>
    simp only [nativeArray, nativeItem, Option.bind_eq_bind, Option.pure_def,
      Option.bind_eq_some_iff,
      Option.some.injEq] at hnative
    obtain ⟨_, ⟨item, hitem, rfl⟩, hnative⟩ := hnative
    cases hnative
    obtain ⟨items, rfl, hnonempty, -, hitems⟩ := M.convert_array _ _ _ _ h
    refine ⟨items, rfl, ?_⟩
    by_cases hnil : items = []
    · exact .inl ⟨hnil, hseen hnonempty hnil⟩
    · exact .inr (.inl ⟨hnil, objects, item, hobjects, hitem, hitems⟩)
  | none =>
    simp only [nativeArray, nativeItem, Option.bind_eq_bind, Option.bind_some, Option.pure_def]
      at hnative
    by_cases hchoices : nativeScalars jsonMode types ++
      (if nullOnlySeen then [.scalar .none] else []) = []
    · rw [if_pos hchoices] at hnative
      cases hnative
      obtain ⟨items, rfl, -, hmax, -⟩ := M.convert_array _ _ _ _ h
      have hnone : nativeScalars jsonMode types = [] := (List.append_eq_nil_iff.mp hchoices).1
      have htypes : types = ∅ := by
        refine Finset.eq_empty_of_forall_notMem fun type htype => ?_
        have hmem : nativeScalar jsonMode type ∈ nativeScalars jsonMode types :=
          List.mem_map_of_mem (List.mem_filter.mpr ⟨by cases type <;> decide, decide_eq_true htype⟩)
        rw [hnone] at hmem
        cases hmem
      exact ⟨items, rfl, .inl ⟨hmax rfl, hblank ⟨rfl, htypes⟩⟩⟩
    · rw [if_neg hchoices] at hnative
      cases hnative
      obtain ⟨items, rfl, hnonempty, -, hitems⟩ := M.convert_array _ _ _ _ h
      refine ⟨items, rfl, ?_⟩
      by_cases hnil : items = []
      · exact .inl ⟨hnil, hseen hnonempty hnil⟩
      refine .inr (.inr ⟨hnil, fun item hitem => ?_⟩)
      obtain ⟨choice, hchoice, hconvert⟩ := M.convert_union _ _ (hitems item hitem)
      rcases List.mem_append.mp hchoice with hscalar | hnull
      · obtain ⟨type, htype, hfits⟩ := exists_fits_of_mem_nativeScalars hscalar hconvert
        exact .inr ((htypes type htype).of_fits hfits)
      · split_ifs at hnull with hnullOnly
        · obtain rfl := List.mem_singleton.mp hnull
          exact .inl ⟨M.convert_scalar _ _ hconvert, hempty (.inr hnullOnly)⟩
        · cases hnull

/-- A record of a known shape. -/
theorem convert_nativeRecord {o : ObservedValue} {native : NativeType} {value : Value}
    (hknown : KnownRecord s o level) (hnative : nativeType jsonMode o = some native)
    (h : M.convert native value = true) :
    ∃ entries fields natives, value = .dict entries ∧ s.Holds (.level level) ∧
      KnownFields s fields level [] ∧
      nativeFields jsonMode fields = some natives ∧
        ∀ entry ∈ entries, ∃ native, (entry.1, native) ∈ natives ∧
          M.convert native entry.2 = true := by
  obtain ⟨types, fields, array, unsupported⟩ := o
  obtain ⟨rfl, rfl, hfields⟩ := hknown
  rcases convert_nativeType hnative h
    with ⟨type, htype, -⟩ | ⟨known, natives, rfl, hnatives, hconvert⟩ |
      ⟨known, native', hnone, -⟩
  · cases htype
  · obtain ⟨hlevel, hfields⟩ := hfields
    obtain ⟨entries, rfl, hentries⟩ := M.convert_object _ _ hconvert
    exact ⟨entries, known, natives, rfl, hlevel, hfields, hnatives, hentries⟩
  · cases hnone

/-- A scalar under a key of a known shape is a known leaf. -/
theorem scalar_of_convert {o : ObservedValue} {native : NativeType} {value : Value}
    (hknown : KnownChild s o level objPrefix key) (hnative : nativeType jsonMode o = some native)
    (h : M.convert native value = true) (hlist : value.pyType ≠ .list)
    (hdict : value.pyType ≠ .dict) :
    value.pyType = .none ∧ s.Holds (.null level (objPrefix ++ [key])) ∨
      value.pyType ≠ .none ∧ s.Holds (.column level (objPrefix ++ [key]) (inferType value)) := by
  obtain ⟨types, fields, array, unsupported⟩ := o
  obtain ⟨htypes, -, harrays⟩ := hknown
  rcases convert_nativeType hnative h
    with ⟨type, htype, hfits⟩ | ⟨known, natives, rfl, -, hconvert⟩ |
      ⟨known, native', rfl, hnative', hconvert⟩
  · exact ((htypes type htype).of_fits hfits).imp id fun h => ⟨h.1, h.2.2.2⟩
  · obtain ⟨entries, rfl, -⟩ := M.convert_object _ _ hconvert
    exact absurd rfl hdict
  · obtain ⟨-, harray, hblank⟩ := harrays
    obtain ⟨items, rfl, -⟩ := convert_nativeArray harray hblank hnative' hconvert
    exact absurd rfl hlist

mutual

/-- **A value that is let through** is walked without a change. -/
theorem walkChild_of_convert :
    ∀ (value : Value) {o : ObservedValue} {native : NativeType} {level : Level}
    {objPrefix : ObjectPath} {key : String}, KnownChild s o level objPrefix key →
      nativeType jsonMode o = some native → M.convert native value = true →
        walkChild level objPrefix key value s = .ok s
  | .dict entries, .mk types fields array unsupported, native, level, objPrefix, key, hknown,
    hnative, h => by
    obtain ⟨htypes, hfields, harrays⟩ := hknown
    rcases convert_nativeType hnative h
      with ⟨type, htype, hfits⟩ | ⟨known, natives, rfl, hnatives, hconvert⟩ |
        ⟨known, native', rfl, hnative', hconvert⟩
    · rcases (htypes type htype).of_fits hfits with ⟨hnone, -⟩ | ⟨-, -, hdict, -⟩
      · cases hnone
      · exact absurd rfl hdict
    · obtain ⟨hcontainer, hlevel, hfields⟩ := hfields
      obtain ⟨entries', heq, hentries⟩ := M.convert_object _ _ hconvert
      cases heq
      rw [walkChild, noteContainer_eq_self hcontainer, noteLevel_eq_self hlevel]
      exact walkFields_of_convert entries hfields hnatives hentries
    · obtain ⟨-, harray, hblank⟩ := harrays
      obtain ⟨items, heq, -⟩ := convert_nativeArray harray hblank hnative' hconvert
      cases heq
  | .list items, .mk types fields array unsupported, native, level, objPrefix, key, hknown,
    hnative, h => by
    obtain ⟨htypes, -, harrays⟩ := hknown
    rcases convert_nativeType hnative h
      with ⟨type, htype, hfits⟩ | ⟨known, natives, rfl, hnatives, hconvert⟩ |
        ⟨known, native', rfl, hnative', hconvert⟩
    · rcases (htypes type htype).of_fits hfits with ⟨hnone, -⟩ | ⟨-, hlist, -⟩
      · cases hnone
      · exact absurd rfl hlist
    · obtain ⟨entries', heq, -⟩ := M.convert_object _ _ hconvert
      cases heq
    · obtain ⟨hcontainer, harray, hblank⟩ := harrays
      obtain ⟨items', heq, hitems⟩ := convert_nativeArray harray hblank hnative' hconvert
      cases heq
      rw [walkChild, noteContainer_eq_self hcontainer]
      rcases hitems
        with ⟨hnil, hheld⟩ | ⟨hne, objects, item, hobjects, hitem, hitems⟩ | ⟨hne, hitems⟩
      · rw [if_pos (List.isEmpty_iff.mpr hnil)]
        exact congrArg Except.ok (noteScalars_none_eq_self hheld)
      · have hany : items.any Value.isDict = true := by
          obtain ⟨first, rest, rfl⟩ := List.exists_cons_of_ne_nil hne
          obtain ⟨entries, -, -, rfl, -⟩ :=
            convert_nativeRecord hobjects hitem (hitems first List.mem_cons_self)
          rfl
        rw [if_neg fun hnil => hne (List.isEmpty_iff.mp hnil), if_pos hany]
        exact walkItems_of_convert items hobjects hitem hitems
      · have hany : ¬ items.any Value.isDict = true := by
          intro hany
          obtain ⟨item, hitem, hdict⟩ := List.any_eq_true.mp hany
          rw [isDict_iff] at hdict
          rcases hitems item hitem with ⟨hnone, -⟩ | ⟨-, -, hnot, -⟩
          · rw [hdict] at hnone
            cases hnone
          · exact hnot hdict
        obtain ⟨type, htype, hheld, hall⟩ :=
          @elementType_of_known s (level ++ objectHops objPrefix ++ [⟨key, true⟩])
          (objPrefix ++ [key]) items none (fun t ht => nomatch ht) fun item hitem =>
            (hitems item hitem).imp (fun h => h.1) fun h => ⟨h.2.1, h.2.2.2⟩
        rw [if_neg fun hnil => hne (List.isEmpty_iff.mp hnil), if_neg hany, htype]
        refine congrArg Except.ok ?_
        cases type with
        | some t => exact noteScalars_some_eq_self (hheld t rfl)
        | none =>
          -- a type was found unless every element is null
          obtain ⟨first, rest, rfl⟩ := List.exists_cons_of_ne_nil hne
          rcases hitems first List.mem_cons_self with ⟨-, hheld⟩ | ⟨hnot, -⟩
          · exact noteScalars_none_eq_self hheld
          · exact absurd ((hall rfl).2 first List.mem_cons_self) hnot
  | .none, _, _, _, _, _, hknown, hnative, h => by
    rcases scalar_of_convert hknown hnative h (fun h => nomatch h) (fun h => nomatch h)
      with ⟨-, hheld⟩ | ⟨hnot, -⟩
    · exact congrArg Except.ok (noteNull_eq_self hheld)
    · exact absurd rfl hnot
  | .bool b, _, _, _, _, _, hknown, hnative, h => by
    rcases scalar_of_convert hknown hnative h (fun h => nomatch h) (fun h => nomatch h)
      with ⟨hnone, -⟩ | ⟨-, hheld⟩
    · cases hnone
    · exact congrArg Except.ok (noteColumn_eq_self hheld)
  | .int n, _, _, _, _, _, hknown, hnative, h => by
    rcases scalar_of_convert hknown hnative h (fun h => nomatch h) (fun h => nomatch h)
      with ⟨hnone, -⟩ | ⟨-, hheld⟩
    · cases hnone
    · exact congrArg Except.ok (noteColumn_eq_self hheld)
  | .float x, _, _, _, _, _, hknown, hnative, h => by
    rcases scalar_of_convert hknown hnative h (fun h => nomatch h) (fun h => nomatch h)
      with ⟨hnone, -⟩ | ⟨-, hheld⟩
    · cases hnone
    · exact congrArg Except.ok (noteColumn_eq_self hheld)
  | .str x, _, _, _, _, _, hknown, hnative, h => by
    rcases scalar_of_convert hknown hnative h (fun h => nomatch h) (fun h => nomatch h)
      with ⟨hnone, -⟩ | ⟨-, hheld⟩
    · cases hnone
    · exact congrArg Except.ok (noteColumn_eq_self hheld)
  | .date x, _, _, _, _, _, hknown, hnative, h => by
    rcases scalar_of_convert hknown hnative h (fun h => nomatch h) (fun h => nomatch h)
      with ⟨hnone, -⟩ | ⟨-, hheld⟩
    · cases hnone
    · exact congrArg Except.ok (noteColumn_eq_self hheld)

/-- Items that a record type accepts teach nothing. -/
theorem walkItems_of_convert :
    ∀ (items : List Value) {o : ObservedValue} {native : NativeType} {level : Level},
    KnownRecord s o level → nativeType jsonMode o = some native →
      (∀ item ∈ items, M.convert native item = true) → walkItems level [] items s = .ok s
  | [], _, _, _, _, _, _ => rfl
  | .dict entries :: items, o, native, level, hknown, hnative, h => by
    obtain ⟨entries', fields, natives, heq, hlevel, hfields, hnatives, hentries⟩ :=
      convert_nativeRecord hknown hnative (h _ List.mem_cons_self)
    cases heq
    have hwalked := walkFields_of_convert entries hfields hnatives hentries
    rw [walkItems, walk, noteLevel_eq_self hlevel]
    simp only [bind, Except.bind, hwalked]
    exact walkItems_of_convert items hknown hnative fun item hitem =>
      h item (List.mem_cons_of_mem _ hitem)
  | .none :: _, _, _, _, hknown, hnative, h => by
    obtain ⟨_, _, _, heq, -⟩ := convert_nativeRecord hknown hnative (h _ List.mem_cons_self)
    cases heq
  | .bool _ :: _, _, _, _, hknown, hnative, h => by
    obtain ⟨_, _, _, heq, -⟩ := convert_nativeRecord hknown hnative (h _ List.mem_cons_self)
    cases heq
  | .int _ :: _, _, _, _, hknown, hnative, h => by
    obtain ⟨_, _, _, heq, -⟩ := convert_nativeRecord hknown hnative (h _ List.mem_cons_self)
    cases heq
  | .float _ :: _, _, _, _, hknown, hnative, h => by
    obtain ⟨_, _, _, heq, -⟩ := convert_nativeRecord hknown hnative (h _ List.mem_cons_self)
    cases heq
  | .str _ :: _, _, _, _, hknown, hnative, h => by
    obtain ⟨_, _, _, heq, -⟩ := convert_nativeRecord hknown hnative (h _ List.mem_cons_self)
    cases heq
  | .date _ :: _, _, _, _, hknown, hnative, h => by
    obtain ⟨_, _, _, heq, -⟩ := convert_nativeRecord hknown hnative (h _ List.mem_cons_self)
    cases heq
  | .list _ :: _, _, _, _, hknown, hnative, h => by
    obtain ⟨_, _, _, heq, -⟩ := convert_nativeRecord hknown hnative (h _ List.mem_cons_self)
    cases heq

/-- Fields that are accepted one by one teach nothing. -/
theorem walkFields_of_convert :
    ∀ (entries : List (String × Value)) {fields : List (String × ObservedValue)}
    {natives : List (String × NativeType)} {level : Level} {objPrefix : ObjectPath},
    KnownFields s fields level objPrefix → nativeFields jsonMode fields = some natives →
      (∀ entry ∈ entries, ∃ native, (entry.1, native) ∈ natives ∧ M.convert native entry.2 = true) →
        walkFields level objPrefix entries s = .ok s
  | [], _, _, _, _, _, _, _ => rfl
  | (key, child) :: entries, fields, natives, level, objPrefix, hknown, hnatives, h => by
    obtain ⟨native, hmem, hconvert⟩ := h _ List.mem_cons_self
    obtain ⟨hkey, o, hchild, hnative⟩ := exists_known_field hknown hnatives hmem
    have hwalked := walkChild_of_convert child hchild hnative hconvert
    rw [walkFields, validateKeyOnce_eq_self hkey]
    simp only [bind, Except.bind, hwalked]
    exact walkFields_of_convert entries hknown hnatives fun entry hentry =>
      h entry (List.mem_cons_of_mem _ hentry)

end

/-! ### Observing what was walked -/

/-- Found types widen what was found before. -/
theorem elementType_spec {items : List Value} {type type' : Option ColType}
    (h : elementType path items type = .ok type') :
    (∀ t, type = some t → ∃ t', type' = some t' ∧ t ≤ t') ∧
      ∀ item ∈ items, item.pyType ≠ .list ∧
        (item.pyType ≠ .none → ∃ t', type' = some t' ∧ inferType item ≤ t') := by
  induction items generalizing type with
  | nil =>
    cases h
    exact ⟨fun t ht => ⟨t, ht, le_rfl⟩, fun _ hitem => nomatch hitem⟩
  | cons item items ih =>
    have hwidened : elementType path items (some (widenType type (inferType item))) = .ok type' →
        item.pyType ≠ .list → (∀ t, type = some t → ∃ t', type' = some t' ∧ t ≤ t') ∧
          ∀ value ∈ item :: items, value.pyType ≠ .list ∧
            (value.pyType ≠ .none → ∃ t', type' = some t' ∧ inferType value ≤ t') := by
      intro h hlist
      obtain ⟨hgrown, hitems⟩ := ih h
      obtain ⟨t', ht', hle⟩ := hgrown _ rfl
      refine ⟨fun t ht => ⟨t', ht', (le_widenType_left _ t ht).trans hle⟩,
        List.forall_mem_cons.mpr ⟨?_, hitems⟩⟩
      exact ⟨hlist, fun _ => ⟨t', ht', (le_widenType _).trans hle⟩⟩
    cases item with
    | list => cases h
    | none =>
      obtain ⟨hgrown, hitems⟩ := ih h
      exact ⟨hgrown, List.forall_mem_cons.mpr
        ⟨⟨fun h => (nomatch h), fun h => absurd rfl h⟩, hitems⟩⟩
    | _ => exact hwidened h fun h => nomatch h

/-- An element type that is no list, dict or null is known by its column type. -/
theorem elementKnown_of_holds {type : PyType} (hnone : type ≠ .none) (hlist : type ≠ .list)
    (hdict : type ≠ .dict) (h : s.Holds (.elements level type.columnType)) :
    ElementKnown s level type := by
  cases type with
  | none => exact absurd rfl hnone
  | list => exact absurd rfl hlist
  | dict => exact absurd rfl hdict
  | _ => exact h

/-- Fields stay known where one of them is replaced by what is known of it. -/
theorem KnownFields.upsert (hmono : ∀ fact, s.Holds fact → s'.Holds fact)
    {fields : List (String × ObservedValue)} (hknown : KnownFields s fields level objPrefix)
    (hkey : s'.Holds (.key key)) {f : Option ObservedValue → ObservedValue}
    (hf : ∀ o, (∀ child, o = some child → KnownChild s child level objPrefix key) →
      KnownChild s' (f o) level objPrefix key) :
    KnownFields s' (Assoc.upsert fields key f) level objPrefix := by
  induction fields with
  | nil => exact ⟨hkey, hf none fun _ h => (nomatch h), trivial⟩
  | cons field fields ih =>
    obtain ⟨name, child⟩ := field
    obtain ⟨hname, hchild, hfields⟩ := hknown
    rw [Assoc.upsert]
    split_ifs with heq
    · subst heq
      refine ⟨hkey, hf _ ?_, KnownFields.mono hmono fields hfields⟩
      intro c hc
      cases hc
      exact hchild
    · exact ⟨hmono _ hname, KnownChild.mono hmono child hchild, ih hfields⟩

/-- Of a value never seen nothing is to be known. -/
theorem KnownChild.new (s : InferenceState) (level : Level) (objPrefix : ObjectPath)
    (key : String) :
    KnownChild s .new level objPrefix key :=
  ⟨fun _ h => absurd h (Finset.notMem_empty _), trivial, trivial⟩

/-- Of a record never seen nothing is to be known. -/
theorem KnownRecord.new (s : InferenceState) (level : Level) : KnownRecord s .new level :=
  ⟨rfl, rfl, trivial⟩

/-- The fields of objects that are known are known, none where there are no objects. -/
theorem KnownFields.getD {fields : Option (List (String × ObservedValue))}
    (h : KnownObjects s fields level path) : KnownFields s (fields.getD []) level path := by
  cases fields with
  | none => trivial
  | some fields => exact h.2.2

/-- The fields of a root that is known are known, none where there is no root. -/
theorem KnownRoot.getD {fields : Option (List (String × ObservedValue))}
    (h : KnownRoot s fields level) :
    KnownFields s (fields.getD []) level [] := by
  cases fields with
  | none => trivial
  | some fields => exact h.2

/-- The record of items that are known is known, an empty one where there are none. -/
theorem KnownRecord.getD {objects : Option ObservedValue} (h : KnownItems s objects level) :
    KnownRecord s (objects.getD .new) level := by
  cases objects with
  | none => exact .new s level
  | some objects => exact h

/-- What an array is known by before it is observed. -/
theorem KnownArray.getD {array : Option ObservedArray}
    (h : KnownArrays s array level objPrefix key) :
    KnownArray s (array.getD .new) (level ++ objectHops objPrefix ++ [⟨key, true⟩]) := by
  cases array with
  | none =>
      exact ⟨trivial, fun _ h => absurd h (Finset.notMem_empty _), fun h => by
        rcases h with h | h <;> cases h⟩
  | some array => exact h.2.1

/-- A scalar becomes a known leaf. -/
theorem observe_scalar {value : Value} {types : Finset PyType}
    {fields : Option (List (String × ObservedValue))} {array : Option ObservedArray}
    {unsupported : Bool}
    (hlevel : IsLevel level)
    (hknown : KnownChild s (.mk types fields array unsupported) level objPrefix key)
    (h : walkChild level objPrefix key value s = .ok s') (hlist : value.pyType ≠ .list)
    (hdict : value.pyType ≠ .dict) (hnew : ScalarKnown s' level (objPrefix ++ [key]) value.pyType)
    (depth : ℕ) :
    KnownChild s' (observe value depth (.mk types fields array unsupported)) level
      objPrefix key := by
  have hmono : ∀ fact, s.Holds fact → s'.Holds fact :=
    fun _ => holds_of_noted (walkChild_noted hlevel _ h)
  have hkept := KnownChild.mono hmono _ hknown
  have hinserted : KnownChild s' (.mk (insert value.pyType types) fields array false) level
      objPrefix key :=
    ⟨(Finset.forall_mem_insert _ _ _).mpr ⟨hnew, hkept.1⟩, hkept.2⟩
  rw [observe.eq_def]
  dsimp only
  split_ifs
  · exact hkept
  · exact hkept
  · cases value with
    | list => exact absurd rfl hlist
    | dict => exact absurd rfl hdict
    | date => exact hkept
    | _ => exact hinserted

mutual

/-- **What is walked becomes known**: what the filter observes of it, at any depth. -/
theorem walkChild_observe :
    ∀ (value : Value) {s s' : InferenceState} {o : ObservedValue} {level : Level}
    {objPrefix : ObjectPath} {key : String}, IsLevel level → KnownChild s o level objPrefix key →
      walkChild level objPrefix key value s = .ok s' →
        ∀ depth, KnownChild s' (observe value depth o) level objPrefix key
  | .dict entries, s, s', .mk types fields array unsupported, level, objPrefix, key, hlevel,
    hknown, h, depth => by
    have hmono : ∀ fact, s.Holds fact → s'.Holds fact :=
      fun _ => holds_of_noted (walkChild_noted hlevel _ h)
    have hkept := KnownChild.mono hmono _ hknown
    rw [observe]
    split_ifs
    · exact hkept
    · exact hkept
    rw [walkChild] at h
    have hnoted : ∀ fact, s.Holds fact →
        ((s.noteContainer level (objPrefix ++ [key])).noteLevel level).Holds fact :=
          fun fact hfact =>
      (Noted.level hlevel).extends.holds ((Noted.container hlevel).extends.holds hfact)
    have hafter : ∀ fact,
        ((s.noteContainer level (objPrefix ++ [key])).noteLevel level).Holds fact →
        s'.Holds fact := fun _ => holds_of_noted (walkFields_noted hlevel entries h)
    have hfields := walkFields_observe entries hlevel
      (KnownFields.mono hnoted _ (KnownFields.getD hknown.2.1)) h depth
    refine ⟨hkept.1, ⟨hafter _ ?_, hafter _ holds_noteLevel, hfields⟩, hkept.2.2⟩
    exact (Noted.level hlevel).extends.holds holds_noteContainer
  | .list items, s, s', .mk types fields array unsupported, level, objPrefix, key, hlevel,
    hknown, h, depth => by
    have hmono : ∀ fact, s.Holds fact → s'.Holds fact :=
      fun _ => holds_of_noted (walkChild_noted hlevel _ h)
    have hkept := KnownChild.mono hmono _ hknown
    have harray := KnownArray.getD hkept.2.2
    have hbefore := KnownArray.getD hknown.2.2
    have hchild : IsLevel (level ++ objectHops objPrefix ++ [⟨key, true⟩]) :=
      (isLevel_concat _ _).mpr rfl
    rw [walkChild] at h
    rw [observe]
    rcases hget : array.getD .new with ⟨objects, scalars, emptySeen, nullOnlySeen⟩
    rw [hget] at harray hbefore
    obtain ⟨hobjects, hscalars, hempty⟩ := harray
    split_ifs with hunsupported hdeep hnil hany
    · exact hkept
    · exact hkept
    · -- an empty array
      rw [if_pos hnil] at h
      cases h
      have hheld : (noteScalars (s.noteContainer level (objPrefix ++ [key]))
          (level ++ objectHops objPrefix ++ [⟨key, true⟩]) none).Holds
            (.array (level ++ objectHops objPrefix ++ [⟨key, true⟩])) := holds_noteScalars none
      exact ⟨hkept.1, hkept.2.1, (Noted.scalars hchild).extends.holds holds_noteContainer,
        ⟨hobjects, hscalars, fun _ => hheld⟩, fun _ => hheld⟩
    · -- an array of objects
      rw [if_neg hnil, if_pos hany] at h
      have hnoted : ∀ fact, s.Holds fact →
          (s.noteContainer level (objPrefix ++ [key])).Holds fact := fun _ =>
        (Noted.container hlevel).extends.holds
      have hitems := walkItems_observe items hchild
        (KnownRecord.mono hnoted _ (KnownRecord.getD hbefore.1)) h depth
      exact ⟨hkept.1, hkept.2.1, holds_of_noted (walkItems_noted hchild items h)
        holds_noteContainer,
        ⟨hitems, hscalars, hempty⟩, fun hblank => nomatch hblank.1⟩
    · -- an array of scalars
      rw [if_neg hnil, if_neg hany] at h
      obtain ⟨type, htype, h⟩ := bind_eq_ok_iff.mp h
      cases h
      refine ⟨hkept.1, hkept.2.1, (Noted.scalars hchild).extends.holds holds_noteContainer,
        ⟨hobjects, fun t ht => ?_, fun _ => holds_noteScalars type⟩, fun _ =>
          holds_noteScalars type⟩
      rcases Finset.mem_union.mp ht with ht | ht
      · exact hscalars t ht
      · obtain ⟨hmem, hnone⟩ := List.mem_filter.mp (List.mem_toFinset.mp ht)
        obtain ⟨item, hitem, rfl⟩ := List.mem_map.mp hmem
        have hnone := of_decide_eq_true hnone
        obtain ⟨hlist, hfound⟩ := (elementType_spec htype).2 item hitem
        obtain ⟨found, rfl, hle⟩ := hfound hnone
        refine elementKnown_of_holds hnone hlist ?_ ?_
        · exact fun hdict => hany (List.any_eq_true.mpr ⟨item, hitem, isDict_iff.mpr hdict⟩)
        · obtain ⟨held, hheld, hleheld⟩ :=
            @holds_noteScalars_some (s.noteContainer level (objPrefix ++ [key]))
            (level ++ objectHops objPrefix ++ [⟨key, true⟩]) found
          exact ⟨held, hheld, (inferType_eq item ▸ hle).trans hleheld⟩
  | .none, s, s', .mk types fields array unsupported, level, objPrefix, key, hlevel,
    hknown, h, depth => by
    refine observe_scalar hlevel hknown h (fun h => nomatch h) (fun h => nomatch h) ?_ depth
    cases h
    exact holds_noteNull
  | .bool b, s, s', .mk types fields array unsupported, level, objPrefix, key, hlevel,
    hknown, h, depth => by
    refine observe_scalar hlevel hknown h (fun h => nomatch h) (fun h => nomatch h) ?_ depth
    cases h
    exact holds_noteColumn
  | .int n, s, s', .mk types fields array unsupported, level, objPrefix, key, hlevel,
    hknown, h, depth => by
    refine observe_scalar hlevel hknown h (fun h => nomatch h) (fun h => nomatch h) ?_ depth
    cases h
    exact holds_noteColumn
  | .float x, s, s', .mk types fields array unsupported, level, objPrefix, key, hlevel,
    hknown, h, depth => by
    refine observe_scalar hlevel hknown h (fun h => nomatch h) (fun h => nomatch h) ?_ depth
    cases h
    exact holds_noteColumn
  | .str x, s, s', .mk types fields array unsupported, level, objPrefix, key, hlevel,
    hknown, h, depth => by
    refine observe_scalar hlevel hknown h (fun h => nomatch h) (fun h => nomatch h) ?_ depth
    cases h
    exact holds_noteColumn
  | .date x, s, s', .mk types fields array unsupported, level, objPrefix, key, hlevel,
    hknown, h, depth => by
    refine observe_scalar hlevel hknown h (fun h => nomatch h) (fun h => nomatch h) ?_ depth
    cases h
    exact holds_noteColumn

/-- What is observed of the fields of a dict is known once they have been walked. -/
theorem walkFields_observe : ∀ (entries : List (String × Value)) {s s' : InferenceState}
    {fields : List (String × ObservedValue)} {level : Level} {objPrefix : ObjectPath},
    IsLevel level →
      KnownFields s fields level objPrefix → walkFields level objPrefix entries s = .ok s' →
        ∀ depth, KnownFields s' (observeFields entries depth fields) level objPrefix
  | [], _, _, _, _, _, _, hknown, h, _ => by
    cases h
    rw [observeFields]
    exact hknown
  | (key, child) :: entries, s, s', fields, level, objPrefix, hlevel, hknown, h, depth => by
    obtain ⟨checked, hkey, h⟩ := bind_eq_ok_iff.mp h
    obtain ⟨mid, hmid, h⟩ := bind_eq_ok_iff.mp h
    have hchecked : ∀ fact, s.Holds fact → checked.Holds fact :=
      fun _ => (Noted.key hkey).extends.holds
    have hwalked : ∀ fact, checked.Holds fact → mid.Holds fact := fun _ =>
      holds_of_noted (walkChild_noted hlevel child hmid)
    rw [observeFields]
    refine walkFields_observe entries hlevel ?_ h depth
    refine KnownFields.upsert (fun fact hfact => hwalked fact (hchecked fact hfact)) hknown
      (hwalked _ (holds_validateKeyOnce hkey)) fun o ho =>
        walkChild_observe child hlevel ?_ hmid (depth + 1)
    cases o with
    | none => exact .new ..
    | some c => exact KnownChild.mono hchecked c (ho c rfl)

/-- What is observed of the dicts of an array is known once they have been walked. -/
theorem walkItems_observe :
    ∀ (items : List Value) {s s' : InferenceState} {o : ObservedValue} {level : Level},
    IsLevel level → KnownRecord s o level → walkItems level [] items s = .ok s' →
      ∀ depth, KnownRecord s' (observeDicts items depth o) level
  | [], _, _, _, _, _, hknown, h, _ => by
    cases h
    rw [observeDicts]
    exact hknown
  | .dict entries :: items, s, s', .mk types fields array unsupported, level, hlevel,
    hknown, h, depth => by
    obtain ⟨mid, hmid, h⟩ := bind_eq_ok_iff.mp h
    rw [observeDicts, if_pos (show (Value.dict entries).isDict = true from rfl)]
    refine walkItems_observe items hlevel ?_ h depth
    have hmono : ∀ fact, s.Holds fact → mid.Holds fact :=
      fun _ => holds_of_noted (walk_noted hlevel _ hmid)
    have hkept := KnownRecord.mono hmono _ hknown
    rw [observe]
    split_ifs
    · exact hkept
    · exact hkept
    rw [walk] at hmid
    have hnoted : ∀ fact, s.Holds fact → (s.noteLevel level).Holds fact := fun _ =>
      (Noted.level hlevel).extends.holds
    have hfields := walkFields_observe entries hlevel
      (KnownFields.mono hnoted _ (KnownRoot.getD hknown.2.2)) hmid (depth + 1)
    exact ⟨hkept.1, hkept.2.1, holds_of_noted (walkFields_noted hlevel entries hmid)
      holds_noteLevel, hfields⟩
  | .none :: items, _, _, _, _, hlevel, hknown, h, depth =>
    walkItems_observe items hlevel hknown h depth
  | .bool _ :: items, _, _, _, _, hlevel, hknown, h, depth =>
    walkItems_observe items hlevel hknown h depth
  | .int _ :: items, _, _, _, _, hlevel, hknown, h, depth =>
    walkItems_observe items hlevel hknown h depth
  | .float _ :: items, _, _, _, _, hlevel, hknown, h, depth =>
    walkItems_observe items hlevel hknown h depth
  | .str _ :: items, _, _, _, _, hlevel, hknown, h, depth =>
    walkItems_observe items hlevel hknown h depth
  | .date _ :: items, _, _, _, _, hlevel, hknown, h, depth =>
    walkItems_observe items hlevel hknown h depth
  | .list inner :: items, s, s', o, level, hlevel, hknown, h, depth => by
    obtain ⟨mid, hmid, h⟩ := bind_eq_ok_iff.mp h
    exact walkItems_observe items hlevel
      (KnownRecord.mono (fun _ => holds_of_noted (walk_noted hlevel _ hmid)) o hknown) h depth

end

/-! ### The types of JSON values -/

/-- A type of the values a JSON parser reads: an integer is one of 64 bits, and a list or an object
is not taken as it comes. -/
inductive NativeType.Json : NativeType → Prop
  | scalar {type : PyType} (hint : type ≠ .int) (hlist : type ≠ .list) (hdict : type ≠ .dict) :
    Json (.scalar type)
  | jsonInt : Json .jsonInt
  | object {fields : List (String × NativeType)} (h : ∀ field ∈ fields, Json field.2) : Json
    (.object fields)
  | array {item : NativeType} {nonempty empty : Bool} (h : Json item) : Json
    (.array item nonempty empty)
  | union {choices : List NativeType} (h : ∀ choice ∈ choices, Json choice) : Json (.union choices)

/-- Scalar types in JSON mode are types of JSON. -/
theorem json_nativeScalars {types : Finset PyType} (h : ∀ type ∈ types, type ≠ .list ∧ type ≠ .dict)
    {native : NativeType} (hmem : native ∈ nativeScalars true types) : native.Json := by
  obtain ⟨type, htype, rfl⟩ := List.mem_map.mp hmem
  obtain ⟨hlist, hdict⟩ := h type (of_decide_eq_true (List.mem_filter.mp htype).2)
  unfold nativeScalar
  split_ifs with hint
  · exact .jsonInt
  · exact .scalar (fun heq => hint ⟨rfl, heq⟩) hlist hdict

/-- A scalar that is known is no list and no dict. -/
theorem ScalarKnown.ne {type : PyType} (h : ScalarKnown s level path type) :
    type ≠ .list ∧ type ≠ .dict := by
  constructor <;> rintro rfl <;> exact h

/-- A scalar element that is known is no list and no dict. -/
theorem ElementKnown.ne {type : PyType} (h : ElementKnown s level type) :
    type ≠ .list ∧ type ≠ .dict := by
  constructor <;> rintro rfl <;> exact h

mutual

/-- **A known shape has a type of JSON values.** -/
theorem json_nativeType :
    ∀ (o : ObservedValue) {level : Level} {objPrefix : ObjectPath} {key : String}
    {native : NativeType}, KnownChild s o level objPrefix key → nativeType true o = some native →
    native.Json
  | .mk types fields array unsupported, level, objPrefix, key, native, hknown, hnative => by
    obtain ⟨htypes, hfields, harrays⟩ := hknown
    rw [nativeType] at hnative
    split_ifs at hnative
    simp only [Option.bind_eq_bind, Option.pure_def, Option.bind_eq_some_iff, Option.some.injEq]
      at hnative
    obtain ⟨objects, hobjects, arrays, harray, rfl⟩ := hnative
    refine .union fun choice hchoice => ?_
    rcases List.mem_append.mp hchoice with hscalar | hchoice
    · exact json_nativeScalars (fun type htype => (htypes type htype).ne) hscalar
    rcases List.mem_append.mp hchoice with hobject | hchoice
    · exact json_nativeObjects fields hfields hobjects choice hobject
    · exact json_nativeArrays array harrays harray choice hchoice

/-- The type of known objects is a type of JSON. -/
theorem json_nativeObjects : ∀ (fields : Option (List (String × ObservedValue))) {level : Level}
    {path : ObjectPath} {natives : List NativeType}, KnownObjects s fields level path →
      nativeObjects true fields = some natives → ∀ native ∈ natives, native.Json
  | none, _, _, natives, _, hnatives => by
    cases hnatives
    exact fun _ h => absurd h List.not_mem_nil
  | some fields, _, _, natives, hknown, hnatives => by
    simp only [nativeObjects, Option.bind_eq_bind, Option.pure_def, Option.bind_eq_some_iff,
      Option.some.injEq] at hnatives
    obtain ⟨types, htypes, rfl⟩ := hnatives
    exact List.forall_mem_singleton.mpr (.object (json_nativeFields fields hknown.2.2 htypes))

/-- The types of known fields are types of JSON. -/
theorem json_nativeFields : ∀ (fields : List (String × ObservedValue)) {level : Level}
    {objPrefix : ObjectPath} {natives : List (String × NativeType)},
    KnownFields s fields level objPrefix →
      nativeFields true fields = some natives → ∀ field ∈ natives, field.2.Json
  | [], _, _, natives, _, hnatives => by
    cases hnatives
    exact fun _ h => absurd h List.not_mem_nil
  | (key, child) :: fields, _, _, natives, hknown, hnatives => by
    obtain ⟨-, hchild, hfields⟩ := hknown
    simp only [nativeFields, Option.bind_eq_bind, Option.pure_def, Option.bind_eq_some_iff,
      Option.some.injEq] at hnatives
    obtain ⟨childType, hchildType, rest, hrest, rfl⟩ := hnatives
    exact List.forall_mem_cons.mpr
      ⟨json_nativeType child hchild hchildType, json_nativeFields fields hfields hrest⟩

/-- The type of known arrays is a type of JSON. -/
theorem json_nativeArrays :
    ∀ (array : Option ObservedArray) {level : Level} {objPrefix : ObjectPath}
    {key : String} {natives : List NativeType}, KnownArrays s array level objPrefix key →
      nativeArrays true array = some natives → ∀ native ∈ natives, native.Json
  | none, _, _, _, natives, _, hnatives => by
    cases hnatives
    exact fun _ h => absurd h List.not_mem_nil
  | some array, _, _, _, natives, hknown, hnatives => by
    simp only [nativeArrays, Option.bind_eq_bind, Option.pure_def, Option.bind_eq_some_iff,
      Option.some.injEq] at hnatives
    obtain ⟨native, hnative, rfl⟩ := hnatives
    exact List.forall_mem_singleton.mpr (json_nativeArray array hknown.2.1 hnative)

/-- The type of one known array is a type of JSON. -/
theorem json_nativeArray : ∀ (array : ObservedArray) {level : Level} {native : NativeType},
    KnownArray s array level → nativeArray true array = some native → native.Json
  | .mk objects types emptySeen nullOnlySeen, level, native, hknown, hnative => by
    obtain ⟨hitems, htypes, -⟩ := hknown
    rw [nativeArray] at hnative
    obtain ⟨item, hitem, hnative⟩ := Option.bind_eq_some_iff.mp hnative
    cases item with
    | some item =>
      cases hnative
      exact .array (json_nativeItem objects hitems hitem)
    | none =>
      have hnull : (NativeType.scalar .none).Json := .scalar (by decide) (by decide) (by decide)
      have hchoices : ∀ choice ∈ nativeScalars true types ++ (if nullOnlySeen then [.scalar .none]
          else []),
          NativeType.Json choice := by
        intro choice hchoice
        rcases List.mem_append.mp hchoice with hscalar | hchoice
        · exact json_nativeScalars (fun type htype => (htypes type htype).ne) hscalar
        · cases nullOnlySeen with
          | false => cases hchoice
          | true =>
            obtain rfl := List.mem_singleton.mp hchoice
            exact hnull
      dsimp only at hnative
      generalize nativeScalars true types ++ (if nullOnlySeen then [.scalar .none]
        else []) = choices
        at hnative hchoices
      split_ifs at hnative with hnone <;> cases hnative
      · exact .array hnull
      · exact .array (.union hchoices)

/-- The type of known items is a type of JSON. -/
theorem json_nativeItem : ∀ (objects : Option ObservedValue) {level : Level} {item : NativeType},
    KnownItems s objects level → nativeItem true objects = some (some item) → item.Json
  | none, _, _, _, hitem => by cases hitem
  | some objects, _, _, hknown, hitem => by
    simp only [nativeItem, Option.bind_eq_bind, Option.pure_def, Option.bind_eq_some_iff,
      Option.some.injEq] at hitem
    obtain ⟨native, hnative, rfl⟩ := hitem
    exact json_nativeRecord objects hknown hnative

/-- The type of a known record is a type of JSON. -/
theorem json_nativeRecord : ∀ (o : ObservedValue) {level : Level} {native : NativeType},
    KnownRecord s o level → nativeType true o = some native → native.Json
  | .mk types fields array unsupported, level, native, hknown, hnative => by
    obtain ⟨rfl, rfl, hfields⟩ := hknown
    rw [nativeType] at hnative
    split_ifs at hnative
    simp only [Option.bind_eq_bind, Option.pure_def, Option.bind_eq_some_iff, Option.some.injEq]
      at hnative
    obtain ⟨objects, hobjects, arrays, harray, rfl⟩ := hnative
    cases harray
    refine .union fun choice hchoice => ?_
    rcases List.mem_append.mp hchoice with hscalar | hchoice
    · exact json_nativeScalars (fun type htype => absurd htype (Finset.notMem_empty type)) hscalar
    rw [List.append_nil] at hchoice
    cases fields with
    | none =>
      cases hobjects
      cases hchoice
    | some fields =>
      simp only [nativeObjects, Option.bind_eq_bind, Option.pure_def, Option.bind_eq_some_iff,
        Option.some.injEq] at hobjects
      obtain ⟨types, htypes, rfl⟩ := hobjects
      obtain rfl := List.mem_singleton.mp hchoice
      exact .object (json_nativeFields fields hfields.2 htypes)

end

end Haute
