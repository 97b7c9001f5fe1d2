import Haute.Inference.State
import Mathlib.Logic.Relation

/-!
# The inference walk

One walk notes the evidence of a value at a level: a list is walked through, an object's
leaves become columns of the level, and an array of objects opens a level of its own.
`walk_merge` says that a walk after a merge is the walk in the later state, merged: what
a walk raises does not depend on what was seen before, and what it notes is absorbed.
-/

namespace Haute

/-- The type of an array of scalars, widened over the elements that are not null. -/
def elementType (objectPath : ObjectPath) :
    List Value → Option ColType → Except PyError (Option ColType)
  | [], type => .ok type
  | .list _ :: _, _ =>
    let dottedPath := ".".intercalate objectPath
    .error (.apiInputSchema ("column " ++ pyRepr dottedPath ++ ": nested arrays " ++
      "(array of arrays) cannot be expressed as a flat " ++
      "table column; flatten this field in the source data") [("column", .str dottedPath)])
  | .none :: items, type => elementType objectPath items type
  | item :: items, type => elementType objectPath items (some (widenType type (inferType item)))

mutual

/-- Merge one value's evidence into the state. -/
def walk (level : Level) (objPrefix : ObjectPath) : Value → InferenceState →
    Except PyError InferenceState
  | .list items, s => walkItems level objPrefix items s
  | .dict fields, s => walkFields level objPrefix fields (s.noteLevel level)
  | _, s => .ok s

/-- Walk the elements of a list, at the place the list is read. -/
def walkItems (level : Level) (objPrefix : ObjectPath) :
    List Value → InferenceState → Except PyError InferenceState
  | [], s => .ok s
  | item :: items, s => do
    let s ← walk level objPrefix item s
    walkItems level objPrefix items s

/-- Note the leaves of an object and walk what it holds. -/
def walkFields (level : Level) (objPrefix : ObjectPath) :
    List (String × Value) → InferenceState → Except PyError InferenceState
  | [], s => .ok s
  | (key, child) :: fields, s => do
    let s ← s.validateKeyOnce key
    let s ← walkChild level objPrefix key child s
    walkFields level objPrefix fields s

/-- What one key of an object says. -/
def walkChild (level : Level) (objPrefix : ObjectPath) (key : String) :
    Value → InferenceState → Except PyError InferenceState
  | .dict fields, s =>
    let objectPath := objPrefix ++ [key]
    walkFields level objectPath fields ((s.noteContainer level objectPath).noteLevel level)
  | .list items, s =>
    let objectPath := objPrefix ++ [key]
    let s := s.noteContainer level objectPath
    let childLevel := level ++ objectHops objPrefix ++ [⟨key, true⟩]
    if items.isEmpty then .ok (s.noteScalars childLevel none)
    else if items.any Value.isDict then walkItems childLevel [] items s
    else do
      let type ← elementType objectPath items none
      .ok (s.noteScalars childLevel type)
  | .none, s => .ok (s.noteNull level (objPrefix ++ [key]))
  | child, s => .ok (s.noteColumn level (objPrefix ++ [key]) (inferType child))

end

/-- Walk the records of a range, one after the other. -/
def walkRecords (records : List Record) (s : InferenceState) : Except PyError InferenceState :=
  records.foldlM (fun s record => walk [] [] (.dict record.fields) s) s

/-- Walk each chunk with a state of its own, and merge the states from left to right. -/
def walkChunks : List (List Record) → Except PyError InferenceState
  | [] => .ok .new
  | first :: rest => do
    let merged ← walkRecords first .new
    rest.foldlM (fun merged chunk => do
      let s ← walkRecords chunk .new
      .ok (merged.merge s)) merged

/-! ### Walking and merging -/

private theorem map_bind {α : Type} {x y : Except PyError α} {f : α → α}
    {g h : α → Except PyError α}
    (hx : x = y.map f) (hg : ∀ a, g (f a) = (h a).map f) : (x >>= g) = (y >>= h).map f := by
  subst hx
  cases y with
  | error e => rfl
  | ok a => exact hg a

mutual

/-- **A walk after a merge is the walk in the later state, merged.** -/
theorem walk_merge {s : InferenceState} (hs : s.KeysChecked) (level : Level)
    (objPrefix : ObjectPath) :
    ∀ (v : Value) (t : InferenceState),
      walk level objPrefix v (s.merge t) = (walk level objPrefix v t).map s.merge
  | .list items, t => walkItems_merge hs level objPrefix items t
  | .dict fields, t => by
    rw [walk, walk, ← InferenceState.merge_noteLevel]
    exact walkFields_merge hs level objPrefix fields _
  | .none, _ => rfl
  | .bool _, _ => rfl
  | .int _, _ => rfl
  | .float _, _ => rfl
  | .str _, _ => rfl
  | .date _, _ => rfl

theorem walkItems_merge {s : InferenceState} (hs : s.KeysChecked) (level : Level)
    (objPrefix : ObjectPath) :
    ∀ (items : List Value) (t : InferenceState),
      walkItems level objPrefix items (s.merge t) = (walkItems level objPrefix items t).map s.merge
  | [], _ => rfl
  | item :: items, t =>
    map_bind (walk_merge hs level objPrefix item t) (walkItems_merge hs level objPrefix items)

theorem walkFields_merge {s : InferenceState} (hs : s.KeysChecked) (level : Level)
    (objPrefix : ObjectPath) :
    ∀ (fields : List (String × Value)) (t : InferenceState),
      walkFields level objPrefix fields (s.merge t) =
        (walkFields level objPrefix fields t).map s.merge
  | [], _ => rfl
  | (key, child) :: fields, t =>
    map_bind (InferenceState.merge_validateKeyOnce hs t key) fun t =>
      map_bind (walkChild_merge hs level objPrefix key child t)
        (walkFields_merge hs level objPrefix fields)

theorem walkChild_merge {s : InferenceState} (hs : s.KeysChecked) (level : Level)
    (objPrefix : ObjectPath)
    (key : String) : ∀ (child : Value) (t : InferenceState),
      walkChild level objPrefix key child (s.merge t) =
        (walkChild level objPrefix key child t).map s.merge
  | .dict fields, t => by
    rw [walkChild, walkChild, ← InferenceState.merge_noteContainer,
      ← InferenceState.merge_noteLevel]
    exact walkFields_merge hs level _ fields _
  | .list items, t => by
    rw [walkChild, walkChild, ← InferenceState.merge_noteContainer]
    split_ifs
    · rw [← InferenceState.merge_noteScalars]
      rfl
    · exact walkItems_merge hs _ [] items _
    · cases elementType (objPrefix ++ [key]) items none with
      | error e => rfl
      | ok type =>
        simp only [bind, Except.bind, Except.map]
        rw [InferenceState.merge_noteScalars]
  | .none, t => by
    rw [walkChild, walkChild, ← InferenceState.merge_noteNull]
    rfl
  | .bool b, t => by
    simp only [walkChild, ← InferenceState.merge_noteColumn, Except.map]
  | .int n, t => by
    simp only [walkChild, ← InferenceState.merge_noteColumn, Except.map]
  | .float x, t => by
    simp only [walkChild, ← InferenceState.merge_noteColumn, Except.map]
  | .str x, t => by
    simp only [walkChild, ← InferenceState.merge_noteColumn, Except.map]
  | .date x, t => by
    simp only [walkChild, ← InferenceState.merge_noteColumn, Except.map]

end

/-- Walking records after a merge is walking them in the later state, merged. -/
theorem walkRecords_merge {s : InferenceState} (hs : s.KeysChecked) (records : List Record)
    (t : InferenceState) :
    walkRecords records (s.merge t) = (walkRecords records t).map s.merge := by
  induction records generalizing t with
  | nil => rfl
  | cons record records ih =>
    rw [walkRecords, walkRecords, List.foldlM_cons, List.foldlM_cons]
    exact map_bind (walk_merge hs [] [] _ t) ih

/-! ### What a walk does -/

/-- One note of a walk, at a level, or one key found addressable. -/
inductive Noted (s : InferenceState) : InferenceState → Prop where
  | level {level : Level} (h : IsLevel level) : Noted s (s.noteLevel level)
  | column {level : Level} {path : ObjectPath} {type : ColType} (h : IsLevel level) :
      Noted s (s.noteColumn level path type)
  | scalars {level : Level} {type : Option ColType} (h : IsLevel level) : Noted s
    (s.noteScalars level type)
  | container {level : Level} {path : ObjectPath} (h : IsLevel level) : Noted s
    (s.noteContainer level path)
  | null {level : Level} {path : ObjectPath} (h : IsLevel level) : Noted s (s.noteNull level path)
  | key {key : String} {s' : InferenceState} (h : s.validateKeyOnce key = .ok s') : Noted s s'

open Relation (ReflTransGen)

mutual

/-- **A walk is a sequence of notes**, each taken at a level. -/
theorem walk_noted {level : Level} (hlevel : IsLevel level) {objPrefix : ObjectPath} :
    ∀ (v : Value) {s s' : InferenceState},
      walk level objPrefix v s = .ok s' → ReflTransGen Noted s s'
  | .list items, _, _, h => walkItems_noted hlevel items h
  | .dict fields, _, _, h => .head (.level hlevel) (walkFields_noted hlevel fields h)
  | .none, _, _, h => by cases h; exact .refl
  | .bool _, _, _, h => by cases h; exact .refl
  | .int _, _, _, h => by cases h; exact .refl
  | .float _, _, _, h => by cases h; exact .refl
  | .str _, _, _, h => by cases h; exact .refl
  | .date _, _, _, h => by cases h; exact .refl

theorem walkItems_noted {level : Level} (hlevel : IsLevel level) {objPrefix : ObjectPath} :
    ∀ (items : List Value) {s s' : InferenceState},
      walkItems level objPrefix items s = .ok s' → ReflTransGen Noted s s'
  | [], _, _, h => by cases h; exact .refl
  | item :: items, _, _, h => by
    obtain ⟨mid, hmid, h⟩ := bind_eq_ok_iff.mp h
    exact (walk_noted hlevel item hmid).trans (walkItems_noted hlevel items h)

theorem walkFields_noted {level : Level} (hlevel : IsLevel level) {objPrefix : ObjectPath} :
    ∀ (fields : List (String × Value)) {s s' : InferenceState},
      walkFields level objPrefix fields s = .ok s' → ReflTransGen Noted s s'
  | [], _, _, h => by cases h; exact .refl
  | (key, child) :: fields, _, _, h => by
    obtain ⟨checked, hkey, h⟩ := bind_eq_ok_iff.mp h
    obtain ⟨mid, hmid, h⟩ := bind_eq_ok_iff.mp h
    exact .head (.key hkey)
      ((walkChild_noted hlevel child hmid).trans (walkFields_noted hlevel fields h))

theorem walkChild_noted {level : Level} (hlevel : IsLevel level) {objPrefix : ObjectPath}
    {key : String} :
    ∀ (child : Value) {s s' : InferenceState},
      walkChild level objPrefix key child s = .ok s' → ReflTransGen Noted s s'
  | .dict fields, _, _, h => by
    rw [walkChild] at h
    exact .head (.container hlevel) (.head (.level hlevel) (walkFields_noted hlevel fields h))
  | .list items, s, _, h => by
    -- the array opens a level of its own below this one
    have hchild : IsLevel (level ++ objectHops objPrefix ++ [⟨key, true⟩]) :=
      (isLevel_concat _ _).mpr rfl
    have hcontainer : Noted s (s.noteContainer level (objPrefix ++ [key])) := .container hlevel
    rw [walkChild] at h
    refine .head hcontainer ?_
    split_ifs at h
    · cases h
      exact .single (.scalars hchild)
    · exact walkItems_noted hchild items h
    · obtain ⟨type, -, h⟩ := bind_eq_ok_iff.mp h
      cases h
      exact .single (.scalars hchild)
  | .none, _, _, h => by cases h; exact .single (.null hlevel)
  | .bool _, _, _, h => by cases h; exact .single (.column hlevel)
  | .int _, _, _, h => by cases h; exact .single (.column hlevel)
  | .float _, _, _, h => by cases h; exact .single (.column hlevel)
  | .str _, _, _, h => by cases h; exact .single (.column hlevel)
  | .date _, _, _, h => by cases h; exact .single (.column hlevel)

end

theorem walkRecords_noted {records : List Record} {s s' : InferenceState}
    (h : walkRecords records s = .ok s') : ReflTransGen Noted s s' := by
  induction records generalizing s with
  | nil =>
    cases h
    exact .refl
  | cons record records ih =>
    rw [walkRecords, List.foldlM_cons] at h
    obtain ⟨mid, hmid, h⟩ := bind_eq_ok_iff.mp h
    exact (walk_noted isLevel_nil _ hmid).trans (ih h)

/-! ### What a walk keeps -/

theorem Noted.keysChecked {s s' : InferenceState} (h : Noted s s') (hs : s.KeysChecked) :
    s'.KeysChecked := by
  cases h with
  | level => exact hs
  | column => exact hs
  | @scalars level type => cases type <;> exact hs
  | container => exact hs
  | null => exact hs
  | key hkey =>
    unfold InferenceState.validateKeyOnce at hkey
    split_ifs at hkey
    · cases hkey
      exact hs
    · obtain ⟨_, hpasses, hkey⟩ := bind_eq_ok_iff.mp hkey
      cases hkey
      exact (Finset.forall_mem_insert _ _ _).mpr ⟨hpasses, hs⟩

/-- Every level a state holds evidence for is a level. -/
def InferenceState.Levelled (s : InferenceState) : Prop :=
  (∀ level ∈ s.levels.keys, IsLevel level) ∧ ∀ level ∈ s.scalarLevels.keys, IsLevel level

theorem Noted.levelled {s s' : InferenceState} (h : Noted s s') (hs : s.Levelled) :
    s'.Levelled := by
  -- a write adds no key but the level it is made at
  have hwrite {ν : Type} {d : OrdDict Level ν} (hd : ∀ l ∈ d.keys, IsLevel l) {level : Level}
      (hlevel : IsLevel level) {f : Option ν → ν} : ∀ l ∈ (d.upsert level f).keys, IsLevel l := by
    intro l hl
    rcases OrdDict.mem_keys_upsert.mp hl with rfl | hl
    · exact hlevel
    · exact hd l hl
  cases h with
  | level hlevel => exact ⟨hwrite hs.1 hlevel, hs.2⟩
  | column hlevel => exact ⟨hwrite hs.1 hlevel, hs.2⟩
  | @scalars level type hlevel => cases type <;> exact ⟨hs.1, hwrite hs.2 hlevel⟩
  | container => exact hs
  | null => exact hs
  | key hkey =>
    unfold InferenceState.validateKeyOnce at hkey
    split_ifs at hkey
    · cases hkey
      exact hs
    · obtain ⟨_, -, hkey⟩ := bind_eq_ok_iff.mp hkey
      cases hkey
      exact hs

/-- What every note keeps, a walk keeps. -/
theorem walkRecords_keeps {P : InferenceState → Prop} (hnote : ∀ s s', Noted s s' → P s → P s')
    {records : List Record} {s s' : InferenceState} (hs : P s)
    (h : walkRecords records s = .ok s') : P s' := by
  have hnoted := walkRecords_noted h
  clear h
  induction hnoted with
  | refl => exact hs
  | tail _ hlast ih => exact hnote _ _ hlast ih

/-- The keys that a walk has let through are addressable. -/
theorem walkRecords_keysChecked {records : List Record} {s s' : InferenceState} (hs : s.KeysChecked)
    (h : walkRecords records s = .ok s') : s'.KeysChecked :=
  walkRecords_keeps (fun _ _ hnoted => hnoted.keysChecked) hs h

end Haute
