import Haute.Inference.Evidence
import Haute.Shred.Parallel

/-!
# The inference filter

Records whose evidence is already known need no walk. The filter observes the records that were
walked, compiles what it has observed to a native type, and lets a record through when the native
converter accepts it for that type. It relearns on every hundredth record that it did not let
through, and compiles eight times at most.

What the converter accepts is a parameter (`Converter`), with what its documentation says of the
types the filter builds.
-/

namespace Haute

/-- `type(value)`. -/
inductive PyType where
  | none
  | bool
  | int
  | float
  | str
  | date
  | list
  | dict
  deriving DecidableEq

def Value.pyType : Value → PyType
  | .none => .none
  | .bool _ => .bool
  | .int _ => .int
  | .float _ => .float
  | .str _ => .str
  | .date _ => .date
  | .list _ => .list
  | .dict _ => .dict

/-- The types that the filter builds. -/
inductive NativeType where
  | scalar (type : PyType)
  /-- An integer of 64 bits with its sign. -/
  | jsonInt
  /-- An object with fields of its own names only, each of which may be missing. -/
  | object (fields : List (String × NativeType))
  | array (item : NativeType) (nonempty empty : Bool)
  | union (choices : List NativeType)

mutual

/-- `_ObservedValue`. -/
inductive ObservedValue where
  | mk (scalarTypes : Finset PyType) (objectFields : Option (List (String × ObservedValue)))
      (array : Option ObservedArray) (unsupported : Bool)

/-- `_ObservedArray`. -/
inductive ObservedArray where
  | mk (objects : Option ObservedValue) (scalarTypes : Finset PyType)
    (emptySeen nullOnlySeen : Bool)

end

/-! ### Observing -/

namespace ObservedValue

def new : ObservedValue := .mk ∅ none none false

end ObservedValue

def ObservedArray.new : ObservedArray := .mk none ∅ false false

/-- `_MAX_SHAPE_DEPTH`. -/
def maxShapeDepth : ℕ := 64

mutual

/-- `_ObservedValue.observe`. -/
def observe : Value → ℕ → ObservedValue → ObservedValue
  | value, depth, .mk scalarTypes objectFields array unsupported =>
    if unsupported then .mk scalarTypes objectFields array unsupported
    else if maxShapeDepth < depth then .mk scalarTypes objectFields array true
    else match value with
      | .dict entries =>
        .mk scalarTypes (some (observeFields entries depth (objectFields.getD []))) array false
      | .list items =>
        let array := match array.getD .new with
          | .mk objects types emptySeen nullOnlySeen =>
            if items.isEmpty then .mk objects types true nullOnlySeen
            else if items.any Value.isDict then
              .mk (some (observeDicts items depth (objects.getD .new))) types emptySeen nullOnlySeen
            else
              .mk objects (types ∪ ((items.map Value.pyType).filter (· ≠ .none)).toFinset) emptySeen
                (nullOnlySeen || items.all fun item => item.pyType = .none)
        .mk scalarTypes objectFields (some array) false
      | .date _ => .mk scalarTypes objectFields array true
      | value => .mk (insert value.pyType scalarTypes) objectFields array false

/-- The fields of an observed object. -/
def observeFields : List (String × Value) → ℕ → List (String × ObservedValue) →
    List (String × ObservedValue)
  | [], _, fields => fields
  | (key, child) :: entries, depth, fields =>
    observeFields entries depth
      (Assoc.upsert fields key fun o => observe child (depth + 1) (o.getD .new))

/-- The objects of an observed array. -/
def observeDicts : List Value → ℕ → ObservedValue → ObservedValue
  | [], _, objects => objects
  | item :: items, depth, objects =>
    observeDicts items depth (if item.isDict then observe item (depth + 1) objects else objects)

end

/-! ### Native types -/

section Native

variable (jsonMode : Bool)

/-- `_native_scalar`. -/
def nativeScalar (type : PyType) : NativeType :=
  if jsonMode ∧ type = .int then .jsonInt else .scalar type

/-- The choices for the scalars seen. -/
def nativeScalars (types : Finset PyType) : List NativeType :=
  ([.none, .bool, .int, .float, .str, .date, .list, .dict].filter (· ∈ types)).map
    (nativeScalar jsonMode)

mutual

/-- `_ObservedValue.native_type`; the choices are never none, since every value is made for an
observation. -/
def nativeType : ObservedValue → Option NativeType
  | .mk scalarTypes objectFields array unsupported =>
    if unsupported then none
    else do
      let objects ← nativeObjects objectFields
      let arrays ← nativeArrays array
      return .union (nativeScalars jsonMode scalarTypes ++ (objects ++ arrays))

/-- The choice for objects. -/
def nativeObjects : Option (List (String × ObservedValue)) → Option (List NativeType)
  | none => some []
  | some fields => do return [.object (← nativeFields fields)]

def nativeFields : List (String × ObservedValue) → Option (List (String × NativeType))
  | [] => some []
  | (key, child) :: fields => do
    let childType ← nativeType child
    return (key, childType) :: (← nativeFields fields)

/-- The choice for arrays. -/
def nativeArrays : Option ObservedArray → Option (List NativeType)
  | none => some []
  | some array => do return [← nativeArray array]

/-- `_ObservedArray.native_type`. -/
def nativeArray : ObservedArray → Option NativeType
  | .mk objects scalarTypes emptySeen nullOnlySeen => do
    match ← nativeItem objects with
    | some item => return .array item (!emptySeen) false
    | none =>
      let choices :=
        nativeScalars jsonMode scalarTypes ++ if nullOnlySeen then [.scalar .none] else []
      if choices = [] then return .array (.scalar .none) false true
      else return .array (.union choices) (!emptySeen) false

/-- The type of an array's objects, if any were seen. -/
def nativeItem : Option ObservedValue → Option (Option NativeType)
  | none => some none
  | some objects => do return some (← nativeType objects)

end

end Native

/-! ### The converter -/

/-- The values that strict conversion to a scalar type accepts. A string may spell a date, and an
integer may stand for a float. -/
def PyType.Fits : PyType → Value → Prop
  | .float, value => value.pyType = .float ∨ value.pyType = .int
  | .date, value => value.pyType = .date ∨ value.pyType = .str
  | type, value => value.pyType = type

/-- `msgspec`, as far as the filter uses it: what is accepted has the shape of the type. -/
structure Converter where
  /-- `convert` raises no error. -/
  convert : NativeType → Value → Bool
  /-- A decoder of the type raises no error. -/
  decode : NativeType → Shred.Bytes → Bool
  convert_scalar : ∀ type value, convert (.scalar type) value = true → type.Fits value
  convert_jsonInt : ∀ value, convert .jsonInt value = true → value.pyType = .int
  convert_object : ∀ fields value, convert (.object fields) value = true →
    ∃ entries, value = .dict entries ∧ ∀ entry ∈ entries, ∃ type, (entry.1, type) ∈ fields ∧
      convert type entry.2 = true
  convert_array : ∀ item nonempty empty value, convert (.array item nonempty empty) value = true →
    ∃ items, value = .list items ∧ (nonempty = true → items ≠ []) ∧ (empty = true → items = []) ∧
      ∀ value ∈ items, convert item value = true
  convert_union : ∀ choices value, convert (.union choices) value = true →
    ∃ type ∈ choices, convert type value = true

/-! ### The filter -/

/-- `_INITIAL_SAMPLE_RECORDS`. -/
def initialSampleRecords : ℕ := 10000

/-- `_RELEARN_RECORDS`. -/
def relearnRecords : ℕ := 100

/-- `_MAX_COMPILATIONS`. -/
def maxCompilations : ℕ := 8

/-- `InferenceFilter`. -/
structure InferenceFilter where
  observed : Option ObservedValue
  jsonMode : Bool
  native : Option NativeType
  remaining : ℕ
  compilations : ℕ

namespace InferenceFilter

/-- A filter for a stream, with what an earlier one has learned. -/
def new (seed : Option ObservedValue) (jsonMode : Bool) : InferenceFilter :=
  match seed with
  | none => ⟨some .new, jsonMode, none, initialSampleRecords, 0⟩
  | some observed => ⟨some observed, jsonMode, nativeType jsonMode observed, relearnRecords, 1⟩

/-- `snapshot`. -/
def snapshot (f : InferenceFilter) : Option ObservedValue :=
  match f.native with
  | none => none
  | some _ => f.observed

/-- `matches`. -/
def accepts (M : Converter) (f : InferenceFilter) (record : Value) : Bool :=
  match f.native with
  | none => false
  | some type => M.convert type record

/-- `matches_json`: there is a decoder in JSON mode only. -/
def acceptsJson (M : Converter) (f : InferenceFilter) (raw : Shred.Bytes) : Bool :=
  match f.native with
  | none => false
  | some type => f.jsonMode && M.decode type raw

/-- `observe`. -/
def learn (f : InferenceFilter) (record : Value) : InferenceFilter :=
  match f.observed with
  | none => f
  | some observed =>
    let observed := observe record 0 observed
    if f.remaining - 1 = 0 then
      { f with
        observed := if f.compilations + 1 = maxCompilations then none else some observed
        native := nativeType f.jsonMode observed
        remaining := relearnRecords
        compilations := f.compilations + 1 }
    else { f with observed := some observed, remaining := f.remaining - 1 }

end InferenceFilter

/-! ### Inference with the filter -/

section Infer

open Shred

variable (M : Converter) (loads : Bytes → Except PyError Value) (limit : ℕ)

/-- The loop of `_infer_records`. -/
def inferRecordsLoop : List Value → InferenceFilter → InferenceState → Except PyError InferenceState
  | [], _, s => .ok s
  | record :: records, f, s =>
    if f.accepts M record then inferRecordsLoop records f s
    else do
      let s ← walk [] [] record s
      inferRecordsLoop records (f.learn record) s

/-- `_infer_records`. -/
def inferRecords (seed : Option ObservedValue) (records : List Value) :
    Except PyError InferenceState :=
  inferRecordsLoop M records (.new seed false) .new

/-- The scan of a JSON Lines file in one process. -/
def inferSerially (data : Bytes) : Except PyError InferenceState := do
  let rawLines ← iterLines limit data
  let records ← rawLines.mapM (jsonlRecord loads)
  inferRecords M none (records.filterMap LineRecord.value?)

/-- The loop of `_infer_jsonl_lines`. -/
def inferLinesLoop : List Bytes → InferenceFilter → InferenceState → Except PyError InferenceState
  | [], _, s => .ok s
  | raw :: rawLines, f, s =>
    if f.acceptsJson M raw then inferLinesLoop rawLines f s
    else do
      match ← jsonlRecord loads raw with
      | .record value =>
        let s ← walk [] [] value s
        inferLinesLoop rawLines (f.learn value) s
      | _ => inferLinesLoop rawLines f s

/-- `_infer_jsonl_lines`. -/
def inferJsonlLines (seed : Option ObservedValue) (rawLines : List Bytes) :
    Except PyError InferenceState :=
  inferLinesLoop M loads rawLines (.new seed true) .new

/-- `_infer_jsonl_range`. -/
def inferJsonlRange (seed : Option ObservedValue) (data : Bytes) (range : ℕ × ℕ) :
    Except PyError InferenceState := do
  let rawLines ← iterRangeLines limit data range
  inferJsonlLines M loads seed rawLines

/-- The loop of `_learn_jsonl_prefix`, with so many bytes of the range still to go; it stops reading
at the last record of the sample. -/
def learnLoop (remaining : ℕ) (bs : Bytes) (learned : ℕ) (f : InferenceFilter) (s : InferenceState)
    (offset : ℕ) : Except PyError (InferenceState × InferenceFilter × ℕ) :=
  if remaining = 0 then .ok (s, f, offset)
  else if _h : readline (limit + 1) bs = [] then .ok (s, f, offset)
  else if limit < (readline (limit + 1) bs).length then .error (recordLimitError limit)
  else do
    let n := (readline (limit + 1) bs).length
    match ← jsonlRecord loads (readline (limit + 1) bs) with
    | .record value =>
      let s ← walk [] [] value s
      if learned + 1 = initialSampleRecords then .ok (s, f.learn value, offset + n)
      else learnLoop (remaining - n) (bs.drop n) (learned + 1) (f.learn value) s (offset + n)
    | _ => learnLoop (remaining - n) (bs.drop n) learned f s (offset + n)
termination_by bs.length
decreasing_by all_goals exact length_drop_readline_lt _h

/-- `_learn_jsonl_prefix`: the state, the seed, and where the lines read end. -/
def learnJsonlPrefix (data : Bytes) (stop : ℕ) :
    Except PyError (InferenceState × Option ObservedValue × ℕ) := do
  let (s, f, offset) ← learnLoop loads limit stop data 0 (.new none false) .new 0
  return (s, f.snapshot, offset)

/-- The ranges resume where the prefix stopped. -/
def resumeAt (prefixEnd : ℕ) (ranges : List (ℕ × ℕ)) : List (ℕ × ℕ) :=
  (ranges.filter fun r => decide (prefixEnd < r.2)).map fun r => (max r.1 prefixEnd, r.2)

/-- `_infer_jsonl_in_parallel`: the states of the ranges are merged in file order. -/
def inferJsonlInParallel (data : Bytes) (ranges : List (ℕ × ℕ)) :
    Except PyError InferenceState := do
  let (merged, seed, prefixEnd) ← learnJsonlPrefix loads limit data (ranges.getLastD (0, 0)).2
  (resumeAt prefixEnd ranges).foldlM (fun merged range => do
    let s ← inferJsonlRange M loads limit seed data range
    return merged.merge s) merged

/-- The unsampled scan of `_infer_v2_schema_uncached`, for a file that is worth cutting or is
not. -/
def inferJsonl (chunk : ℕ) (inParallel : Bool) (data : Bytes) : Except PyError InferenceState := do
  if inParallel then
    let ranges ← jsonlByteRanges limit chunk data
    if 1 < ranges.length then inferJsonlInParallel M loads limit data ranges
    else inferSerially M loads limit data
  else inferSerially M loads limit data

end Infer

end Haute
