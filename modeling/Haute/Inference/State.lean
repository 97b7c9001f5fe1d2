import Haute.Data.OrdDict
import Haute.Path.Levels
import Mathlib.Data.Finset.Basic

/-!
# The evidence of inference

Schema inference walks every record and keeps, for each level, the type each leaf was seen
with, the arrays of scalars, the paths that held a container and the leaves that were null.
The dictionaries remember the order of first observation, since columns come out in it.

Each note is one write into one of the dictionaries, and a merge replays the notes of a later
file range. `walk_merge` is what the two are for: walking a value after a merge is walking it
in the later state and merging then. It holds write by write, because each combining function
absorbs the write it stands beside, and the induction is over the value walked.
-/

namespace Haute

/-- A column type that inference can see in a scalar. -/
inductive ColType where
  | bool
  | int
  | float
  | str
  deriving DecidableEq

/-- The v2 type token. -/
def ColType.token : ColType → String
  | bool => "bool"
  | int => "int"
  | float => "float"
  | str => "str"

/-- The column type of one scalar. -/
def inferType : Value → ColType
  | .bool _ => .bool
  | .int _ => .int
  | .float _ => .float
  | _ => .str

/-- The narrowest type that fits both observations. -/
def widenType : Option ColType → ColType → ColType
  | none, new => new
  | some existing, new =>
    if existing = new then existing
    else if (existing = .int ∧ new = .float) ∨ (existing = .float ∧ new = .int) then .float
    else .str

@[simp] theorem widenType_none (t : ColType) : widenType none t = t := rfl

/-- Widening does not depend on which observations were combined first. -/
theorem widenType_assoc (o : Option ColType) (s t : ColType) :
    widenType o (widenType (some s) t) = widenType (some (widenType o s)) t := by
  rcases o with _ | r
  · rfl
  · cases r <;> cases s <;> cases t <;> rfl

/-- Refuse a source key that the path grammar cannot address. -/
def rejectUnexpressibleKey (key : String) : Except PyError Unit :=
  if key = "$value" then
    .error (.apiInputSchema ("source JSON key '$value' collides with the reserved " ++
      "scalar-array sentinel and cannot be addressed as a column; rename " ++
      "this field in the source data") [("column", .str key)])
  else if '.' ∈ key.toList then
    .error (.apiInputSchema
      ("source JSON key " ++ pyRepr key ++ " contains '.', which the path grammar " ++
      "reserves as the object-nesting separator, so it cannot be expressed " ++
      "as a column path; rename this field in the source data") [("column", .str key)])
  else if isIdentifierName key then .ok ()
  else
    .error (.apiInputSchema
      ("source JSON key " ++ pyRepr key ++ " is not an addressable identifier; keys " ++
      "must match [A-Za-z_][A-Za-z0-9_]*, so rename this field in the " ++
      "source data") [("column", .str key)])

/-- The object hops from a level to a leaf. -/
abbrev ObjectPath := List String

/-- The evidence collected so far. -/
@[ext]
structure InferenceState where
  /-- The leaves of each level of objects, with their types. -/
  levels : OrdDict Level (OrdDict ObjectPath ColType)
  /-- The arrays of scalars, with the type of their elements where one was seen. -/
  scalarLevels : OrdDict Level (Option ColType)
  /-- The paths that held an object or an array. -/
  containerPaths : OrdDict Level (Finset ObjectPath)
  /-- The leaves that were null. -/
  nullLeaves : OrdDict Level (OrdDict ObjectPath Unit)
  /-- The keys that were found addressable. -/
  validatedKeys : Finset String
  deriving DecidableEq

namespace InferenceState

/-- `_InferenceState()`: the root level, without leaves. -/
def new : InferenceState where
  levels := OrdDict.empty.insert [] .empty
  scalarLevels := .empty
  containerPaths := .empty
  nullLeaves := .empty
  validatedKeys := ∅

/-! ### The notes a walk takes -/

/-- An object was seen at `level`. -/
def noteLevel (s : InferenceState) (level : Level) : InferenceState :=
  { s with levels := s.levels.setdefault level .empty }

/-- A leaf was seen with type `t`. -/
def noteColumn (s : InferenceState) (level : Level) (path : ObjectPath) (t : ColType) :
    InferenceState :=
  { s with levels := s.levels.upsert level fun cols =>
      (cols.getD .empty).upsert path fun o => widenType o t }

/-- An array of scalars was seen, with elements of type `t` if it had any but nulls. -/
def noteScalars (s : InferenceState) (level : Level) (t : Option ColType) : InferenceState :=
  match t with
  | none => { s with scalarLevels := s.scalarLevels.setdefault level none }
  | some t =>
    { s with scalarLevels := s.scalarLevels.upsert level fun o => some (widenType (o.getD none) t) }

/-- An object or an array was seen at `path`. -/
def noteContainer (s : InferenceState) (level : Level) (path : ObjectPath) : InferenceState :=
  { s with containerPaths := s.containerPaths.upsert level fun o => insert path (o.getD ∅) }

/-- A null leaf was seen. -/
def noteNull (s : InferenceState) (level : Level) (path : ObjectPath) : InferenceState :=
  { s with nullLeaves := s.nullLeaves.upsert level fun o => (o.getD .empty).insert path () }

/-- Check a key the first time it is seen. -/
def validateKeyOnce (s : InferenceState) (key : String) : Except PyError InferenceState :=
  if key ∈ s.validatedKeys then .ok s
  else do
    rejectUnexpressibleKey key
    .ok { s with validatedKeys := insert key s.validatedKeys }

/-! ### Merging a later range -/

/-- The columns of one level, the later ones replayed on the earlier. -/
def mergeColumns (o : Option (OrdDict ObjectPath ColType)) (columns : OrdDict ObjectPath ColType) :
    OrdDict ObjectPath ColType :=
  (o.getD .empty).mergeWith widenType columns

/-- The element type of one array: one that was not seen changes nothing. -/
def mergeScalars (o : Option (Option ColType)) (t : Option ColType) : Option ColType :=
  match o, t with
  | none, t => t
  | some existing, none => existing
  | some existing, some t => some (widenType existing t)

/-- Merge a later file range while preserving serial observation order. -/
def merge (s t : InferenceState) : InferenceState where
  levels := s.levels.mergeWith mergeColumns t.levels
  scalarLevels := s.scalarLevels.mergeWith mergeScalars t.scalarLevels
  containerPaths := s.containerPaths.mergeWith (fun o paths => o.getD ∅ ∪ paths) t.containerPaths
  nullLeaves := s.nullLeaves.mergeWith
    (fun o paths => (o.getD .empty).mergeWith (fun _ u => u) paths) t.nullLeaves
  validatedKeys := s.validatedKeys ∪ t.validatedKeys

/-! ### A merge absorbs every note -/

variable (s t : InferenceState)

theorem merge_noteLevel (level : Level) :
    s.merge (t.noteLevel level) = (s.merge t).noteLevel level := by
  have hlevels : s.levels.mergeWith mergeColumns (t.levels.setdefault level .empty)
      = (s.levels.mergeWith mergeColumns t.levels).setdefault level .empty :=
    OrdDict.mergeWith_upsert (fun _ _ => rfl) (fun _ => rfl) ..
  simp [merge, noteLevel, hlevels]

theorem merge_noteColumn (level : Level) (path : ObjectPath) (type : ColType) :
    s.merge (t.noteColumn level path type) = (s.merge t).noteColumn level path type := by
  have hcolumn (d e : OrdDict ObjectPath ColType) :
      d.mergeWith widenType (e.upsert path fun o => widenType o type)
        = (d.mergeWith widenType e).upsert path fun o => widenType o type :=
    OrdDict.mergeWith_upsert (fun o v => widenType_assoc o v type) (fun _ => rfl) d e path
  have hlevels := OrdDict.mergeWith_upsert (g := mergeColumns)
    (f := fun cols => (cols.getD .empty).upsert path fun o => widenType o type)
    (fun o v => hcolumn (o.getD .empty) v) (fun o => hcolumn (o.getD .empty) .empty)
    s.levels t.levels level
  simp [merge, noteColumn, hlevels]

theorem merge_noteScalars (level : Level) (type : Option ColType) :
    s.merge (t.noteScalars level type) = (s.merge t).noteScalars level type := by
  cases type with
  | none =>
    have hscalars : s.scalarLevels.mergeWith mergeScalars (t.scalarLevels.setdefault level none)
        = (s.scalarLevels.mergeWith mergeScalars t.scalarLevels).setdefault level none :=
      OrdDict.mergeWith_upsert (fun _ _ => rfl) (fun o => by cases o <;> rfl) ..
    simp [merge, noteScalars, hscalars]
  | some type =>
    have hscalars := OrdDict.mergeWith_upsert (g := mergeScalars)
      (f := fun o => some (widenType (o.getD none) type))
      (fun o v => by
        rcases o with _ | existing
        · rfl
        · cases v with
          | none => rfl
          | some v => exact congrArg some (widenType_assoc existing v type))
      (fun o => by cases o <;> rfl) s.scalarLevels t.scalarLevels level
    simp [merge, noteScalars, hscalars]

theorem merge_noteContainer (level : Level) (path : ObjectPath) :
    s.merge (t.noteContainer level path) = (s.merge t).noteContainer level path := by
  have hpaths :=
    OrdDict.mergeWith_upsert (g := fun (o : Option (Finset ObjectPath)) paths => o.getD ∅ ∪ paths)
    (f := fun o => insert path (o.getD ∅)) (fun o v => Finset.union_insert ..)
    (fun o => by simp) s.containerPaths t.containerPaths level
  simp [merge, noteContainer, hpaths]

theorem merge_noteNull (level : Level) (path : ObjectPath) :
    s.merge (t.noteNull level path) = (s.merge t).noteNull level path := by
  have hleaf (d e : OrdDict ObjectPath Unit) :
      d.mergeWith (fun _ u => u) (e.insert path ()) =
        (d.mergeWith (fun _ u => u) e).insert path () :=
    OrdDict.mergeWith_upsert (fun _ _ => rfl) (fun _ => rfl) d e path
  have hnulls := OrdDict.mergeWith_upsert
    (g := fun (o : Option (OrdDict ObjectPath Unit)) paths =>
      (o.getD .empty).mergeWith (fun _ u => u) paths)
    (f := fun o => (o.getD .empty).insert path ())
    (fun o v => hleaf (o.getD .empty) v) (fun o => hleaf (o.getD .empty) .empty)
    s.nullLeaves t.nullLeaves level
  simp [merge, noteNull, hnulls]

/-- The keys a state has validated are addressable. -/
def KeysChecked (s : InferenceState) : Prop :=
  ∀ key ∈ s.validatedKeys, rejectUnexpressibleKey key = .ok ()

/-- A key that an earlier range validated need not be checked, and would pass. -/
theorem merge_validateKeyOnce {s : InferenceState} (hs : s.KeysChecked) (t : InferenceState)
    (key : String) :
    (s.merge t).validateKeyOnce key = (t.validateKeyOnce key).map s.merge := by
  unfold validateKeyOnce
  by_cases ht : key ∈ t.validatedKeys
  · have hmem : key ∈ (s.merge t).validatedKeys := Finset.mem_union_right _ ht
    rw [if_pos ht, if_pos hmem]
    rfl
  · rw [if_neg ht]
    by_cases hk : key ∈ s.validatedKeys
    · have hmem : key ∈ (s.merge t).validatedKeys := Finset.mem_union_left _ hk
      have hsame : s.validatedKeys ∪ insert key t.validatedKeys =
          s.validatedKeys ∪ t.validatedKeys := by
        rw [Finset.union_insert, Finset.insert_eq_self.mpr (Finset.mem_union_left _ hk)]
      rw [if_pos hmem, hs key hk]
      simp [merge, hsame, bind, Except.bind, Except.map]
    · have hnot : key ∉ (s.merge t).validatedKeys := by simp [merge, hk, ht]
      rw [if_neg hnot]
      cases rejectUnexpressibleKey key with
      | error e => rfl
      | ok u => simp [merge, bind, Except.bind, Except.map, Finset.union_insert]

end InferenceState

end Haute
