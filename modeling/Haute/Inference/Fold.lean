import Haute.Inference.Evidence
import Haute.Inference.Schema

/-!
# Folding one array

A fold takes the evidence of a path that was held once, and of everything below it, to the array at
that path: `redirect` says where each place goes, and `moves_foldIntoArray` that the array's
evidence afterwards is the join of what was taken there and what it held.
-/

namespace Haute

/-! ### Paths below a path -/

/-- `path` lies strictly below `top`. -/
def Below (top path : List Seg) : Prop := top.length < path.length ∧ path.take top.length = top

instance (top path : List Seg) : Decidable (Below top path) := inferInstanceAs (Decidable (_ ∧ _))

/-- A path lies below another exactly when it continues it. -/
theorem below_iff {top path : List Seg} :
    Below top path ↔ ∃ rest, rest ≠ [] ∧ path = top ++ rest := by
  constructor
  · rintro ⟨hlen, htake⟩
    refine ⟨path.drop top.length, by simpa using hlen, ?_⟩
    conv_lhs => rw [← List.take_append_drop top.length path, htake]
  · rintro ⟨rest, hne, rfl⟩
    have := List.length_pos_iff.mpr hne
    exact ⟨by rw [List.length_append]; omega, List.take_left⟩

theorem below_append {top rest : List Seg} (h : rest ≠ []) : Below top (top ++ rest) :=
  below_iff.mpr ⟨rest, h, rfl⟩

theorem not_below_self (top : List Seg) : ¬ Below top top := fun h => lt_irrefl _ h.1

/-- A key path lies within another exactly when it continues it. -/
theorem within_iff_append {keys path : ObjectPath} :
    within keys path = true ↔ ∃ tail, tail ≠ [] ∧ keys = path ++ tail := by
  rw [within, Bool.and_eq_true, decide_eq_true_eq, decide_eq_true_eq]
  constructor
  · rintro ⟨hlen, htake⟩
    refine ⟨keys.drop path.length, by simpa using hlen, ?_⟩
    conv_lhs => rw [← List.take_append_drop path.length keys, htake]
  · rintro ⟨tail, hne, rfl⟩
    have := List.length_pos_iff.mpr hne
    exact ⟨by rw [List.length_append]; omega, List.take_left⟩

/-- The array prefix of a path that continues another ends in the continuation, if that crosses an
array. -/
theorem arrayPrefix_append_eq (front rest : List Seg) :
    arrayPrefix (front ++ rest) = if arrayPrefix rest = [] then arrayPrefix front
      else front ++ arrayPrefix rest := by
  induction front with
  | nil =>
    split_ifs with h
    · exact h
    · rfl
  | cons seg front ih =>
    rw [List.cons_append, arrayPrefix, ih]
    split_ifs with hrest hempty hempty <;> simp_all [arrayPrefix]

/-- The keys after the last array come from the continuation, if that crosses an array. -/
theorem ownKeys_append (front rest : List Seg) :
    ownKeys (front ++ rest) = if arrayPrefix rest = [] then ownKeys front ++ rest.map Seg.name
      else ownKeys rest := by
  have hlen := (arrayPrefix_isPrefix_of front).length_le
  rw [ownKeys, ownPart, arrayPrefix_append_eq]
  split_ifs with h
  · rw [List.drop_append_of_le_length hlen, List.map_append]
    rfl
  · rw [List.length_append, List.drop_length_add_append]
    rfl

/-- The place of a leaf, its level and its own keys, determines its path. -/
theorem eq_of_place_eq {path top : List Seg} (harray : arrayPrefix path = arrayPrefix top)
    (hkeys : ownKeys path = ownKeys top) : path = top := by
  rw [← arrayPrefix_append_ownKeys path, ← arrayPrefix_append_ownKeys top, harray, hkeys]

/-- What lies below a path is at a level below it, or among the leaves below it of its own level. -/
theorem below_iff_place (top path : List Seg) :
    Below top path ↔ Below top (arrayPrefix path) ∨
      arrayPrefix path = arrayPrefix top ∧ within (ownKeys path) (ownKeys top) = true := by
  constructor
  · intro h
    obtain ⟨rest, hne, rfl⟩ := below_iff.mp h
    rw [arrayPrefix_append_eq, ownKeys_append]
    by_cases hrest : arrayPrefix rest = []
    · rw [if_pos hrest, if_pos hrest]
      exact .inr ⟨rfl, within_iff_append.mpr ⟨_, by simpa using hne, rfl⟩⟩
    · rw [if_neg hrest]
      exact .inl (below_append hrest)
  · rintro (h | ⟨harray, hwithin⟩)
    · obtain ⟨rest, hne, hpath⟩ := below_iff.mp h
      refine below_iff.mpr ⟨rest ++ ownPart path, List.append_ne_nil_of_left_ne_nil hne _, ?_⟩
      rw [← List.append_assoc, ← hpath, arrayPrefix_append_ownPart]
    · obtain ⟨tail, hne, hkeys⟩ := within_iff_append.mp hwithin
      refine below_iff.mpr ⟨objectHops tail, by simpa [objectHops] using hne, ?_⟩
      rw [← arrayPrefix_append_ownKeys path, harray, hkeys, objectHops, List.map_append,
        ← List.append_assoc]
      exact congrArg (· ++ _) (arrayPrefix_append_ownKeys top)

/-- A path taken from below `nested` to below `level`. -/
def shift (nested level path : List Seg) : List Seg :=
  if Below nested path then level ++ path.drop nested.length else path

/-- Where a shifted path comes from: it stays, or it lay below the folded value. -/
theorem shift_eq_iff {nested level path goal : List Seg} : shift nested level path = goal ↔
    (¬ Below nested path ∧ path = goal) ∨
      (Below nested path ∧ Below level goal ∧ path = nested ++ goal.drop level.length) := by
  unfold shift
  by_cases h : Below nested path
  · obtain ⟨rest, hne, rfl⟩ := below_iff.mp h
    rw [if_pos h, List.drop_left]
    simp only [h, not_true_eq_false, false_and, false_or, true_and]
    constructor
    · rintro rfl
      exact ⟨below_append hne, by rw [List.drop_left]⟩
    · rintro ⟨hgoal, heq⟩
      obtain ⟨rest', -, rfl⟩ := below_iff.mp hgoal
      rw [List.drop_left] at heq
      rw [List.append_cancel_left heq]
  · simp [h]

/-- Where a fold takes the evidence of each place: what is below the path to the array, and a leaf
at the path to the array's elements. -/
def redirect (nested level : List Seg) : Site → Site
  | .object l => .object (shift nested level l)
  | .elements l => .elements (shift nested level l)
  | .column path => if path = nested then .elements level else .column (shift nested level path)
  | .container path => .container (shift nested level path)
  | .null path => .null (shift nested level path)

/-! ### What is left -/

/-- Dropping the levels below a folded value keeps every other one. -/
theorem get?_withoutNested {ν : Type} (store : OrdDict Level ν) (nested level : Level) :
    (withoutNested store nested).get? level = if Below nested level then none
      else store.get? level := by
  have hbelow : (nested.length < level.length && level.take nested.length = nested) =
      decide (Below nested level) := by
    exact (Bool.decide_and _ _).symm
  rw [withoutNested, OrdDict.get?_filterKeys, hbelow]
  by_cases h : Below nested level <;> simp [h]

/-- Rewriting one level leaves the others. -/
theorem get?_rewriteAt {ν : Type} (store : OrdDict Level ν) (held level : Level) (f : ν → ν) :
    (rewriteAt store held f).get? level = if level = held then (store.get? held).map f
      else store.get? level := by
  unfold rewriteAt
  cases h : store.get? held with
  | none =>
    split_ifs with heq
    · rw [heq, h]
      rfl
    · rfl
  | some evidence => exact OrdDict.get?_upsert ..

/-- What is left of nested dictionaries without some keys of one level, and without what is
below. -/
theorem get?_left {ν : Type} (store : OrdDict Level (OrdDict ObjectPath ν))
    (gone : ObjectPath → Bool)
    (nested held level : Level) (keys : ObjectPath) :
    ((withoutNested (rewriteAt store held fun inner => inner.filterKeys fun keys => !gone keys)
      nested).get?
        level).bind (fun inner => inner.get? keys) =
      if Below nested level ∨ level = held ∧ gone keys = true then none
      else (store.get? level).bind fun inner => inner.get? keys := by
  rw [get?_withoutNested, get?_rewriteAt]
  by_cases hbelow : Below nested level
  · simp [hbelow]
  · by_cases hheld : level = held
    · subst hheld
      cases store.get? level with
      | none => simp [hbelow]
      | some inner =>
          by_cases hgone : gone keys = true <;> simp [hbelow, hgone, OrdDict.get?_filterKeys]
    · simp [hbelow, hheld]

namespace InferenceState

variable (s : InferenceState) (nested level : List Seg)

/-- What a fold takes from. -/
abbrev left : InferenceState := s.withoutFolded (arrayPrefix nested) (ownKeys nested)

/-- The columns left behind are those not at or below the folded value. -/
theorem columnAt_left (path : List Seg) :
    (s.left nested).columnAt (arrayPrefix path) (ownKeys path) =
      if path = nested ∨ Below nested path then none
        else s.columnAt (arrayPrefix path) (ownKeys path) := by
  have hplace : path = nested ↔ arrayPrefix path = arrayPrefix nested ∧ ownKeys path =
      ownKeys nested :=
    ⟨by rintro rfl; exact ⟨rfl, rfl⟩, fun h => eq_of_place_eq h.1 h.2⟩
  simp only [left, withoutFolded, columnAt, arrayPrefix_append_ownKeys]
  rw [get?_left s.levels (fun keys => keys = ownKeys nested || within keys (ownKeys nested))]
  refine if_congr ?_ rfl rfl
  rw [below_iff_place nested path, hplace, Bool.or_eq_true, decide_eq_true_eq]
  tauto

/-- The null leaves left behind are those not below the folded value. -/
theorem nullAt_left (path : List Seg) :
    (s.left nested).nullAt (arrayPrefix path) (ownKeys path) =
      if Below nested path then none else s.nullAt (arrayPrefix path) (ownKeys path) := by
  simp only [left, withoutFolded, nullAt, arrayPrefix_append_ownKeys]
  rw [get?_left s.nullLeaves (fun keys => within keys (ownKeys nested))]
  exact if_congr (below_iff_place nested path).symm rfl rfl

/-- The container paths left behind are those not below the folded value. -/
theorem containerAt_left (path : List Seg) :
    (s.left nested).containerAt (arrayPrefix path) (ownKeys path) =
      if Below nested path then none else s.containerAt (arrayPrefix path) (ownKeys path) := by
  simp only [left, withoutFolded, containerAt, arrayPrefix_append_ownKeys,
    get?_withoutNested, get?_rewriteAt,
    below_iff_place nested path]
  by_cases hbelow : Below nested (arrayPrefix path)
  · simp [hbelow]
  · by_cases hparent : arrayPrefix path = arrayPrefix nested
    · have hbelow : ¬ Below nested (arrayPrefix nested) := hparent ▸ hbelow
      rw [hparent]
      cases s.containerPaths.get? (arrayPrefix nested) with
      | none => simp [hbelow]
      | some paths =>
          by_cases hwithin : within (ownKeys path) (ownKeys nested) = true <;>
            simp [hbelow, hwithin]
    · simp [hbelow, hparent]

/-- The array elements left behind are those of levels not below the folded value. -/
theorem scalars_left (l : Level) :
    (s.left nested).scalarLevels.get? l = if Below nested l then none
      else s.scalarLevels.get? l := by
  simp only [left, withoutFolded, arrayPrefix_append_ownKeys, get?_withoutNested]

/-- The objects left behind are those of levels not below the folded value. -/
theorem objects_left (l : Level) :
    (s.left nested).evidence (.object l) = if Below nested l then ⊥
      else s.evidence (.object l) := by
  simp only [evidence, left, withoutFolded, arrayPrefix_append_ownKeys,
    get?_withoutNested, get?_rewriteAt]
  by_cases hbelow : Below nested l
  · simp [hbelow]
  · by_cases hparent : l = arrayPrefix nested
    · subst hparent
      cases s.levels.get? (arrayPrefix nested) <;> simp [hbelow]
    · simp [hbelow, hparent]

end InferenceState

/-! ### What is taken -/

/-- Rekeyed levels hold what was below the folded value under its array. -/
theorem get?_rekey {ν : Type} (into store : OrdDict Level ν) (nested level l : Level) :
    (rekey into store nested level).get? l =
      (if Below level l then store.get? (nested ++ l.drop level.length) else none).or
        (into.get? l) := by
  have hfold (ls : List Level) (hnodup : ls.Nodup) (hbelow : ∀ inner ∈ ls, Below nested inner)
      (into : OrdDict Level ν) :
      (ls.foldl (fun into inner => (store.get? inner).elim into
        (into.insert (level ++ inner.drop nested.length))) into).get? l =
        (if Below level l ∧ nested ++ l.drop level.length ∈ ls then store.get?
          (nested ++ l.drop level.length)
          else none).or (into.get? l) := by
    induction ls generalizing into with
    | nil => simp
    | cons inner ls ih =>
      obtain ⟨hnotMem, hrest⟩ := List.nodup_cons.mp hnodup
      obtain ⟨rest, hne, rfl⟩ := below_iff.mp (hbelow inner List.mem_cons_self)
      rw [List.foldl_cons, ih hrest fun x hx => hbelow x (List.mem_cons_of_mem _ hx),
        List.drop_left]
      by_cases hl : l = level ++ rest
      · -- the write at this level is the only one
        subst hl
        rw [List.drop_left]
        simp only [hnotMem, and_false, if_false, Option.none_or, below_append hne,
          List.mem_cons_self, true_and, if_true]
        cases store.get? (nested ++ rest) with
        | none => rfl
        | some evidence => exact OrdDict.get?_upsert_self ..
      · have hne' (hbelow : Below level l) : nested ++ l.drop level.length ≠ nested ++ rest := by
          obtain ⟨rest', -, rfl⟩ := below_iff.mp hbelow
          rw [List.drop_left]
          exact fun heq => hl (congrArg (level ++ ·) (List.append_cancel_left heq))
        have hinto : ((store.get? (nested ++ rest)).elim into (into.insert (level ++ rest))).get?
            l = into.get? l := by
          cases store.get? (nested ++ rest) with
          | none => rfl
          | some evidence => exact OrdDict.get?_upsert_ne hl ..
        rw [hinto]
        refine congrArg (Option.or · _) (if_congr ?_ rfl rfl)
        rw [List.mem_cons]
        exact and_congr_right fun hbelow => by simp [hne' hbelow]
  have hrekey : rekey into store nested level = (nestedLevels store nested).foldl (fun into inner =>
      (store.get? inner).elim into (into.insert (level ++ inner.drop nested.length))) into := by
    unfold rekey
    congr
    funext into inner
    cases store.get? inner <;> rfl
  rw [hrekey, hfold (nestedLevels store nested) (store.nodup_keys.filter _) fun inner hinner => ?_]
  · refine congrArg (Option.or · _) ?_
    by_cases hbelow : Below level l
    · by_cases hmem : nested ++ l.drop level.length ∈ nestedLevels store nested
      · simp [hbelow, hmem]
      · have hnone : store.get? (nested ++ l.drop level.length) = none := by
          rw [OrdDict.get?_eq_none_iff]
          intro hkey
          obtain ⟨rest, hne, rfl⟩ := below_iff.mp hbelow
          refine hmem (List.mem_filter.mpr ⟨hkey, ?_⟩)
          rw [List.drop_left]
          exact (Bool.decide_and _ _).symm.trans (decide_eq_true (below_append hne))
        simp [hbelow, hmem, hnone]
    · simp [hbelow]
  · have h := (List.mem_filter.mp hinner).2
    exact of_decide_eq_true ((Bool.decide_and _ _).trans h)

/-- A fold keeps what each of its steps keeps. -/
theorem foldl_keeps {α β γ : Type} {f : β → γ} {g : β → α → β} (h : ∀ b a, f (g b a) = f b)
    (l : List α) (b : β) :
    f (l.foldl g b) = f b := by
  induction l generalizing b with
  | nil => rfl
  | cons a l ih => rw [List.foldl_cons, ih, h]

namespace InferenceState

/-- One leaf, taken to the array if it is at the path or below it. -/
def moveColumn (path : ObjectPath) (level : Level) (moved : InferenceState)
    (entry : ObjectPath × ColType) :
    InferenceState :=
  if entry.1 = path then moved.noteScalars level (some entry.2)
  else if within entry.1 path then
    { moved with levels := moved.levels.upsert level fun cols =>
        (cols.getD .empty).insert (entry.1.drop path.length) entry.2 }
  else moved

/-- One null leaf, taken to the array if it is below the path. -/
def moveNull (path : ObjectPath) (level : Level) (moved : InferenceState) (keys : ObjectPath) :
    InferenceState :=
  if within keys path then moved.noteNull level (keys.drop path.length) else moved

/-- Moving null leaves changes nothing else of the state. -/
theorem moveNull_keeps {γ : Type} {f : InferenceState → γ}
    (h : ∀ m level keys, f (noteNull m level keys) = f m)
    (path : ObjectPath) (level : Level) (moved : InferenceState) (keys : List ObjectPath) :
    f (keys.foldl (moveNull path level) moved) = f moved := by
  refine foldl_keeps (fun moved keys => ?_) keys moved
  unfold moveNull
  split_ifs
  · exact h ..
  · rfl

variable (s : InferenceState) (nested level : List Seg)

/-- What a fold takes. -/
abbrev taken : InferenceState := s.foldedEvidence (arrayPrefix nested) (ownKeys nested) level

/-- The leaves of the path's own level, taken. -/
def takenColumns : InferenceState :=
  ((s.levels.get? (arrayPrefix nested)).getD .empty).entries.foldl
    (moveColumn (ownKeys nested) level) .new

/-- The columns taken along are those of the folded value and those of the levels below it. -/
theorem levels_taken : (s.taken nested level).levels =
    rekey (s.takenColumns nested level).levels s.levels nested level := by
  simp only [taken, foldedEvidence, arrayPrefix_append_ownKeys]
  refine congrArg (rekey · _ _ _) ?_
  split_ifs
  · exact moveNull_keeps (f := InferenceState.levels) (fun _ _ _ => rfl) ..
  · exact moveNull_keeps (f := InferenceState.levels) (fun _ _ _ => rfl) ..

/-- The array elements taken along are those of the folded value and those of the levels below
it. -/
theorem scalars_taken : (s.taken nested level).scalarLevels =
    rekey (s.takenColumns nested level).scalarLevels s.scalarLevels nested level := by
  simp only [taken, foldedEvidence, arrayPrefix_append_ownKeys]
  refine congrArg (rekey · _ _ _) ?_
  split_ifs
  · exact moveNull_keeps (f := InferenceState.scalarLevels) (fun _ _ _ => rfl) ..
  · exact moveNull_keeps (f := InferenceState.scalarLevels) (fun _ _ _ => rfl) ..

/-- Moving columns changes nothing but columns and array elements. -/
theorem moveColumn_keeps {γ : Type} {f : InferenceState → γ}
    (h : ∀ m levels scalars, f { m with levels := levels, scalarLevels := scalars } = f m)
    (path : ObjectPath) (level : Level) (moved : InferenceState)
      (entries : List (ObjectPath × ColType)) :
    f (entries.foldl (moveColumn path level) moved) = f moved := by
  refine foldl_keeps (fun moved entry => ?_) entries moved
  unfold moveColumn
  split_ifs
  · exact h moved moved.levels _
  · exact h moved _ moved.scalarLevels
  · rfl

/-- The null leaves taken along are those of the folded value and those of the levels below it. -/
theorem nulls_taken : (s.taken nested level).nullLeaves =
    rekey ((((s.nullLeaves.get? (arrayPrefix nested)).getD .empty).keys.foldl
      (moveNull (ownKeys nested) level)
      (s.takenColumns nested level)).nullLeaves) s.nullLeaves nested level := by
  simp only [taken, foldedEvidence, arrayPrefix_append_ownKeys]
  refine congrArg (rekey · _ _ _) ?_
  split_ifs <;> rfl

/-- The containers below the path, as the array holds them. -/
def takenContainers : Finset ObjectPath :=
  (((s.containerPaths.get? (arrayPrefix nested)).getD ∅).filter fun keys =>
    within keys (ownKeys nested)).image
    (List.drop (ownKeys nested).length)

/-- The container paths taken along are those of the folded value and those of the levels below
it. -/
theorem containers_taken : (s.taken nested level).containerPaths =
    rekey (if s.takenContainers nested = ∅ then .empty
      else OrdDict.empty.insert level (s.takenContainers nested)) s.containerPaths
        nested level := by
  simp only [taken, foldedEvidence, arrayPrefix_append_ownKeys]
  refine congrArg (rekey · _ _ _) ?_
  have hnone :
      (((s.nullLeaves.get? (arrayPrefix nested)).getD .empty).keys.foldl
      (moveNull (ownKeys nested) level)
      (s.takenColumns nested level)).containerPaths = .empty :=
    (moveNull_keeps (f := InferenceState.containerPaths) (fun _ _ _ => rfl) ..).trans
      (moveColumn_keeps (f := InferenceState.containerPaths) (fun _ _ _ => rfl) ..)
  change (if s.takenContainers nested = ∅ then _ else _ : InferenceState).containerPaths = _
  split_ifs with h
  · exact hnone
  · refine (congrArg (fun d => OrdDict.upsert d level fun o => o.getD ∅ ∪ s.takenContainers nested)
      hnone).trans ?_
    refine OrdDict.ext ?_
    change [(level, ∅ ∪ s.takenContainers nested)] = [(level, s.takenContainers nested)]
    rw [Finset.empty_union]

/-- The leaves of the path's level that come to the array. -/
theorem columnAt_foldl_moveColumn (path : ObjectPath) (entries : List (ObjectPath × ColType))
    (hnodup : (Assoc.keys entries).Nodup) (moved : InferenceState) {keys : ObjectPath}
    (hne : keys ≠ []) :
    (entries.foldl (moveColumn path level) moved).columnAt level keys =
      (Assoc.get? entries (path ++ keys)).or (moved.columnAt level keys) := by
  induction entries generalizing moved with
  | nil => rfl
  | cons entry entries ih =>
    obtain ⟨hnotMem, hrest⟩ := List.nodup_cons.mp hnodup
    rw [List.foldl_cons, ih hrest, Assoc.get?_cons]
    have hpath : path ≠ path ++ keys := fun h => hne (by simpa using h)
    unfold moveColumn
    by_cases heq : entry.1 = path
    · rw [if_pos heq, if_neg (heq ▸ hpath)]
      rfl
    · rw [if_neg heq]
      by_cases hwithin : within entry.1 path = true
      · obtain ⟨tail, -, htail⟩ := within_iff_append.mp hwithin
        rw [if_pos hwithin, htail, List.drop_left]
        simp only [columnAt, OrdDict.get?_upsert_self, Option.bind_some]
        by_cases hkeys : tail = keys
        · subst hkeys
          rw [if_pos rfl, Assoc.get?_eq_none (htail ▸ hnotMem)]
          exact OrdDict.get?_upsert_self ..
        · rw [if_neg fun h => hkeys (List.append_cancel_left h), OrdDict.insert,
            OrdDict.get?_upsert_ne (Ne.symm hkeys)]
          cases moved.levels.get? level <;> rfl
      · have hother : entry.1 ≠ path ++ keys :=
          fun h => hwithin (within_iff_append.mpr ⟨keys, hne, h⟩)
        rw [if_neg hwithin, if_neg hother]

/-- Where the folded value has no column of its own, moving columns makes no array element. -/
theorem scalars_foldl_of_notMem {path : ObjectPath} {entries : List (ObjectPath × ColType)}
    (h : path ∉ Assoc.keys entries) (moved : InferenceState) :
    (entries.foldl (moveColumn path level) moved).scalarLevels = moved.scalarLevels := by
  induction entries generalizing moved with
  | nil => rfl
  | cons entry entries ih =>
    obtain ⟨hne, hrest⟩ := List.ne_and_not_mem_of_not_mem_cons h
    rw [List.foldl_cons, ih hrest, moveColumn, if_neg hne.symm]
    split_ifs <;> rfl

/-- The leaf at the path comes to the array's elements. -/
theorem scalars_foldl_moveColumn (path : ObjectPath) (entries : List (ObjectPath × ColType))
    (hnodup : (Assoc.keys entries).Nodup) (moved : InferenceState)
    (hnone : moved.scalarLevels.get? level = none) :
    (entries.foldl (moveColumn path level) moved).scalarLevels.get? level =
      (Assoc.get? entries path).map some := by
  induction entries generalizing moved with
  | nil => exact hnone
  | cons entry entries ih =>
    obtain ⟨hnotMem, hrest⟩ := List.nodup_cons.mp hnodup
    rw [List.foldl_cons, Assoc.get?_cons]
    by_cases heq : entry.1 = path
    · rw [if_pos heq, scalars_foldl_of_notMem level (heq ▸ hnotMem), moveColumn, if_pos heq]
      simp only [noteScalars, OrdDict.get?_upsert_self, hnone]
      rfl
    · have hkeep : (moveColumn path level moved entry).scalarLevels.get? level = none := by
        rw [moveColumn, if_neg heq]
        split_ifs <;> exact hnone
      rw [if_neg heq, ih hrest _ hkeep]

theorem columnAt_new (level : Level) (keys : ObjectPath) : new.columnAt level keys = none := by
  simp only [columnAt, new, OrdDict.insert, OrdDict.get?_upsert]
  split_ifs <;> rfl

/-- The columns moved are those under the folded value, without its keys in front. -/
theorem columnAt_takenColumns (l : Level) (keys : ObjectPath) :
    (s.takenColumns nested level).columnAt l keys =
      if l = level ∧ keys ≠ [] then s.columnAt (arrayPrefix nested) (ownKeys nested ++ keys)
        else none := by
  by_cases hl : l = level
  · subst hl
    by_cases hkeys : keys = []
    · subst hkeys
      rw [if_neg (by simp)]
      refine Eq.trans ?_ (columnAt_new l [])
      refine foldl_keeps (f := fun m : InferenceState => m.columnAt l [])
        (fun moved entry => ?_) _ _
      unfold moveColumn
      split_ifs with heq hwithin
      · rfl
      · obtain ⟨tail, hne, htail⟩ := within_iff_append.mp hwithin
        simp only [columnAt, OrdDict.get?_upsert_self, Option.bind_some, htail,
          List.drop_left, OrdDict.insert]
        rw [OrdDict.get?_upsert_ne hne.symm]
        cases moved.levels.get? l <;> rfl
      · rfl
    · rw [if_pos ⟨rfl, hkeys⟩, takenColumns, columnAt_foldl_moveColumn _ _ _ (OrdDict.nodupKeys _) _
        hkeys, columnAt_new,
        Option.or_none, columnAt]
      cases s.levels.get? (arrayPrefix nested) <;> rfl
  · rw [if_neg fun h => hl h.1]
    refine Eq.trans ?_ (columnAt_new l keys)
    refine foldl_keeps (f := fun m : InferenceState => m.columnAt l keys)
      (fun moved entry => ?_) _ _
    unfold moveColumn
    split_ifs
    · rfl
    · simp only [columnAt, OrdDict.get?_upsert_ne hl]
    · rfl

/-- The leaves taken: those of levels below the path, and those below it of its own level. -/
theorem columnAt_taken (l : Level) (keys : ObjectPath) :
    (s.taken nested level).columnAt l keys =
      if Below level l then s.columnAt (nested ++ l.drop level.length) keys
      else if l = level ∧ keys ≠ [] then s.columnAt (arrayPrefix nested) (ownKeys nested ++ keys)
        else none := by
  have hown := columnAt_takenColumns s nested level l keys
  simp only [columnAt, levels_taken, get?_rekey] at hown ⊢
  by_cases hbelow : Below level l
  · have hne : l ≠ level := fun h => not_below_self level (h ▸ hbelow)
    rw [if_neg fun h => hne h.1] at hown
    rw [if_pos hbelow, if_pos hbelow]
    cases s.levels.get? (nested ++ l.drop level.length) with
    | none => exact hown
    | some columns => rfl
  · rw [if_neg hbelow, if_neg hbelow, Option.none_or]
    exact hown

/-- The folded value's own column becomes the element type of its array. -/
theorem scalars_takenColumns (l : Level) :
    (s.takenColumns nested level).scalarLevels.get? l =
      if l = level then (s.columnAt (arrayPrefix nested) (ownKeys nested)).map some else none := by
  split_ifs with hl
  · subst hl
    rw [takenColumns, scalars_foldl_moveColumn _ _ _ (OrdDict.nodupKeys _) _ rfl, columnAt]
    cases s.levels.get? (arrayPrefix nested) <;> rfl
  · refine foldl_keeps (f := fun m : InferenceState => m.scalarLevels.get? l)
      (fun moved entry => ?_) _ _
    unfold moveColumn
    split_ifs
    · exact OrdDict.get?_upsert_ne hl ..
    · rfl
    · rfl

/-- The null leaves moved are those under the folded value, without its keys in front. -/
theorem nullAt_foldl_moveNull (path : ObjectPath) (nulls : List ObjectPath) (moved : InferenceState)
    (l : Level)
    (keys : ObjectPath) :
    (nulls.foldl (moveNull path level) moved).nullAt l keys =
      if l = level ∧ keys ≠ [] ∧ path ++ keys ∈ nulls then some () else moved.nullAt l keys := by
  induction nulls generalizing moved with
  | nil => simp
  | cons null nulls ih =>
    rw [List.foldl_cons, ih]
    have hstep : (moveNull path level moved null).nullAt l keys =
        if l = level ∧ keys ≠ [] ∧ path ++ keys = null then some () else moved.nullAt l keys := by
      unfold moveNull
      by_cases hwithin : within null path = true
      · obtain ⟨tail, hne, rfl⟩ := within_iff_append.mp hwithin
        rw [if_pos hwithin, List.drop_left]
        simp only [nullAt, noteNull, OrdDict.get?_upsert, List.append_cancel_left_eq,
          OrdDict.insert]
        by_cases hl : l = level
        · subst hl
          by_cases hkeys : keys = tail
          · subst hkeys
            simp [hne]
          · simp only [hkeys, and_false, if_false, if_true, Option.bind_some, OrdDict.get?_upsert]
            cases moved.nullLeaves.get? l <;> rfl
        · simp [hl]
      · have hnot : ¬ (l = level ∧ keys ≠ [] ∧ path ++ keys = null) := fun h =>
          hwithin (within_iff_append.mpr ⟨keys, h.2.1, h.2.2.symm⟩)
        rw [if_neg hwithin, if_neg hnot]
    rw [hstep]
    by_cases hl : l = level <;> by_cases hkeys : keys = [] <;>
      by_cases heq : path ++ keys = null <;>
      by_cases hmem : path ++ keys ∈ nulls <;> simp_all

/-- The null leaves taken. -/
theorem nullAt_taken (l : Level) (keys : ObjectPath) :
    (s.taken nested level).nullAt l keys =
      if Below level l then s.nullAt (nested ++ l.drop level.length) keys
      else if l = level ∧ keys ≠ [] then s.nullAt (arrayPrefix nested) (ownKeys nested ++ keys)
        else none := by
  have hnew : (s.takenColumns nested level).nullAt l keys = none := by
    have hkeep : (s.takenColumns nested level).nullLeaves = .empty :=
      moveColumn_keeps (f := InferenceState.nullLeaves) (fun _ _ _ => rfl) ..
    rw [nullAt, hkeep]
    rfl
  have hown := nullAt_foldl_moveNull level (ownKeys nested)
    ((s.nullLeaves.get? (arrayPrefix nested)).getD .empty).keys (s.takenColumns nested level) l keys
  rw [hnew] at hown
  have hheld :
      (ownKeys nested ++ keys ∈ ((s.nullLeaves.get? (arrayPrefix nested)).getD .empty).keys) ↔
      s.nullAt (arrayPrefix nested) (ownKeys nested ++ keys) = some () := by
    rw [nullAt, OrdDict.mem_keys_iff]
    cases s.nullLeaves.get? (arrayPrefix nested) with
    | none => simp
    | some nulls => exact ⟨fun hheld => hheld.choose_spec, fun hu => ⟨(), hu⟩⟩
  have hvalue : (if l = level ∧ keys ≠ [] ∧
      ownKeys nested ++ keys ∈ ((s.nullLeaves.get? (arrayPrefix nested)).getD .empty).keys then some
        () else none) =
      if l = level ∧ keys ≠ [] then s.nullAt (arrayPrefix nested) (ownKeys nested ++ keys)
        else none := by
    by_cases hcond : l = level ∧ keys ≠ []
    · rw [if_pos hcond]
      simp only [hheld, hcond.1, hcond.2, ne_eq, not_false_eq_true, true_and]
      cases s.nullAt (arrayPrefix nested) (ownKeys nested ++ keys) <;> simp
    · rw [if_neg hcond, if_neg fun h => hcond ⟨h.1, h.2.1⟩]
  rw [hvalue] at hown
  simp only [nullAt, nulls_taken, get?_rekey] at hown ⊢
  by_cases hbelow : Below level l
  · have hne : l ≠ level := fun h => not_below_self level (h ▸ hbelow)
    rw [if_neg fun h => hne h.1] at hown
    rw [if_pos hbelow, if_pos hbelow]
    cases s.nullLeaves.get? (nested ++ l.drop level.length) with
    | none => exact hown
    | some nulls => rfl
  · rw [if_neg hbelow, if_neg hbelow, Option.none_or]
    exact hown

/-- The containers taken. -/
theorem containerAt_taken (l : Level) (keys : ObjectPath) :
    (s.taken nested level).containerAt l keys =
      if Below level l then s.containerAt (nested ++ l.drop level.length) keys
      else if l = level ∧ keys ≠ [] then s.containerAt (arrayPrefix nested) (ownKeys nested ++ keys)
        else none := by
  have hmem : keys ∈ s.takenContainers nested ↔
      keys ≠ [] ∧ ownKeys nested ++ keys ∈ (s.containerPaths.get? (arrayPrefix nested)).getD ∅ := by
    simp only [takenContainers, Finset.mem_image, Finset.mem_filter]
    constructor
    · rintro ⟨whole, ⟨hwhole, hwithin⟩, rfl⟩
      obtain ⟨tail, hne, rfl⟩ := within_iff_append.mp hwithin
      rw [List.drop_left]
      exact ⟨hne, hwhole⟩
    · rintro ⟨hne, hwhole⟩
      exact ⟨_, ⟨hwhole, within_iff_append.mpr ⟨keys, hne, rfl⟩⟩, List.drop_left⟩
  have hown : ((if s.takenContainers nested = ∅ then OrdDict.empty
      else OrdDict.empty.insert level (s.takenContainers nested)).get? l).getD ∅ =
        if l = level then s.takenContainers nested else ∅ := by
    split_ifs with hempty hl hl
    · rw [hempty]
      rfl
    · rfl
    · subst hl
      exact congrArg (Option.getD · ∅) (OrdDict.get?_upsert_self ..)
    · exact congrArg (Option.getD · ∅) (OrdDict.get?_upsert_ne hl ..)
  simp only [containerAt, containers_taken, get?_rekey]
  by_cases hbelow : Below level l
  · have hne : l ≠ level := fun h => not_below_self level (h ▸ hbelow)
    rw [if_neg hne] at hown
    rw [if_pos hbelow, if_pos hbelow]
    cases s.containerPaths.get? (nested ++ l.drop level.length) with
    | none => rw [Option.none_or, hown]; rfl
    | some paths => rfl
  · rw [if_neg hbelow, if_neg hbelow, Option.none_or, hown]
    by_cases hl : l = level
    · simp only [hl, if_true, true_and, hmem, ite_and]
    · simp [hl]

variable {s nested level}

/-- Lookups taken from one level and from below it are those of the paths taken there. -/
theorem lookup_taken {ν : Type} {lookup held : Level → ObjectPath → Option ν}
    (hlevel : IsLevel level)
    (h : ∀ l keys, lookup l keys = if Below level l then held (nested ++ l.drop level.length) keys
      else if l = level ∧ keys ≠ [] then held (arrayPrefix nested) (ownKeys nested ++ keys)
        else none)
    (path : List Seg) :
    lookup (arrayPrefix path) (ownKeys path) = if Below level path then
      held (arrayPrefix (nested ++ path.drop level.length))
        (ownKeys (nested ++ path.drop level.length)) else none := by
  have harray : arrayPrefix level = level := arrayPrefix_eq_self hlevel
  have hkeys : ownKeys level = [] :=
    by rw [ownKeys, ownPart, harray, List.drop_length, List.map_nil]
  rw [h]
  by_cases hbelow : Below level path
  · obtain ⟨rest, hne, rfl⟩ := below_iff.mp hbelow
    rw [if_pos hbelow, List.drop_left, arrayPrefix_append_eq, arrayPrefix_append_eq,
      ownKeys_append, ownKeys_append]
    by_cases hrest : arrayPrefix rest = []
    · simp only [hrest, if_true, harray, hkeys, List.nil_append, not_below_self, if_false, true_and]
      rw [if_pos (by simpa using hne)]
    · simp only [hrest, if_false, below_append hrest, if_true, List.drop_left]
  · have hnot : ¬ Below level (arrayPrefix path) :=
      fun h => hbelow ((below_iff_place level path).mpr (.inl h))
    rw [if_neg hbelow, if_neg hnot, if_neg]
    rintro ⟨hl, hne⟩
    refine hbelow ((below_iff_place level path).mpr (.inr ⟨hl.trans harray.symm, ?_⟩))
    rw [hkeys]
    exact within_iff_append.mpr ⟨_, hne, rfl⟩

/-! ### The evidence of a fold -/

/-- What was recorded at the paths that are taken to a path, and at the path if it is kept. -/
def foldedAt (held : List Seg → Recorded) (nested level : List Seg) (gone : Prop) [Decidable gone]
    (path : List Seg) :
    Recorded :=
  (if gone ∨ Below nested path then ⊥ else held path) ⊔
    (if Below level path then held (nested ++ path.drop level.length) else ⊥)

/-- What a shift leaves at a path is the join of what it takes there. -/
theorem isLUB_foldedAt (held : List Seg → Recorded) {gone : List Seg → Prop} [DecidablePred gone]
    (hgone : ∀ path, gone path → ¬ Below nested path) (path : List Seg) :
    IsLUB (held '' {p | ¬ gone p ∧ shift nested level p = path})
      (foldedAt held nested level (gone path) path) := by
  constructor
  · rintro _ ⟨p, ⟨hkept, hshift⟩, rfl⟩
    rcases shift_eq_iff.mp hshift with ⟨hbelow, rfl⟩ | ⟨-, hbelow, rfl⟩
    · refine le_sup_of_le_left ?_
      rw [if_neg (not_or.mpr ⟨hkept, hbelow⟩)]
    · refine le_sup_of_le_right ?_
      rw [if_pos hbelow]
  · intro bound hbound
    refine sup_le ?_ ?_
    · split_ifs with hmoved
      · exact bot_le
      · obtain ⟨hkept, hbelow⟩ := not_or.mp hmoved
        exact hbound ⟨path, ⟨hkept, shift_eq_iff.mpr (.inl ⟨hbelow, rfl⟩)⟩, rfl⟩
    · split_ifs with hbelow
      · have hmoved : Below nested (nested ++ path.drop level.length) := by
          obtain ⟨rest, hne, rfl⟩ := below_iff.mp hbelow
          rw [List.drop_left]
          exact below_append hne
        exact hbound
          ⟨_, ⟨fun h => hgone _ h hmoved, shift_eq_iff.mpr (.inr ⟨hmoved, hbelow, rfl⟩)⟩, rfl⟩
      · exact bot_le

variable (s nested level)

/-- A fold merges what is left with what is taken along. -/
theorem foldIntoArray_eq :
    s.foldIntoArray (arrayPrefix nested) (ownKeys nested) level =
      (s.left nested).merge (s.taken nested level) := rfl

/-- What a fold makes of the columns: those below the value move, its own one becomes elements. -/
theorem column_fold (hlevel : IsLevel level) (path : List Seg) :
    ((s.left nested).merge (s.taken nested level)).evidence (.column path) =
      foldedAt (fun path => s.evidence (.column path)) nested level (path = nested) path := by
  rw [evidence_merge]
  simp only [evidence, columnAt_left, lookup_taken hlevel (s.columnAt_taken nested level), foldedAt]
  split_ifs <;> rfl

/-- What a fold makes of the null leaves: those below the value move. -/
theorem null_fold (hlevel : IsLevel level) (path : List Seg) :
    ((s.left nested).merge (s.taken nested level)).evidence (.null path) =
      foldedAt (fun path => s.evidence (.null path)) nested level False path := by
  rw [evidence_merge]
  simp only [evidence, nullAt_left, lookup_taken hlevel (s.nullAt_taken nested level),
    foldedAt, false_or]
  split_ifs <;> rfl

/-- What a fold makes of the container paths: those below the value move. -/
theorem container_fold (hlevel : IsLevel level) (path : List Seg) :
    ((s.left nested).merge (s.taken nested level)).evidence (.container path) =
      foldedAt (fun path => s.evidence (.container path)) nested level False path := by
  rw [evidence_merge]
  simp only [evidence, containerAt_left, lookup_taken hlevel (s.containerAt_taken nested level),
    foldedAt, false_or]
  split_ifs <;> rfl

/-- The array's elements are joined with the leaf at the path. -/
theorem elements_fold (l : Level) :
    ((s.left nested).merge (s.taken nested level)).evidence (.elements l) =
      foldedAt (fun l => s.evidence (.elements l)) nested level False l ⊔
        (if l = level then s.evidence (.column nested) else ⊥) := by
  rw [evidence_merge]
  simp only [evidence, scalars_left, scalars_taken, get?_rekey, scalars_takenColumns,
    foldedAt, false_or]
  by_cases hbelow : Below level l
  · have hne : l ≠ level := fun h => not_below_self level (h ▸ hbelow)
    simp only [hbelow, hne, if_true, if_false, Option.or_none, sup_bot_eq]
    split_ifs <;> rfl
  · simp only [hbelow, if_false, Option.none_or, sup_bot_eq]
    by_cases hl : l = level
    · simp only [hl, if_true, Option.map_map]
      split_ifs <;> rfl
    · simp only [hl, if_false]
      split_ifs <;> rfl

/-- No object is lost in a fold: each is held where its level has moved to. -/
theorem object_fold (l : Level) :
    (if Below nested l then ⊥ else s.evidence (.object l)) ⊔
        (if Below level l then s.evidence (.object (nested ++ l.drop level.length)) else ⊥) ≤
      ((s.left nested).merge (s.taken nested level)).evidence (.object l) := by
  rw [evidence_merge, objects_left]
  refine sup_le_sup_left ?_ _
  split_ifs with hbelow
  · simp only [evidence, levels_taken, get?_rekey, if_pos hbelow]
    cases s.levels.get? (nested ++ l.drop level.length) with
    | none => exact bot_le
    | some columns => exact le_rfl
  · exact bot_le

/-- **A fold moves the evidence** of the path and of what is below it to the array, and joins it
there. -/
theorem moves_foldIntoArray (hlevel : IsLevel level) :
    Moves (redirect nested level) s
      (s.foldIntoArray (arrayPrefix nested) (ownKeys nested) level) := by
  rw [foldIntoArray_eq]
  have hfree (held : List Seg → Recorded) (path : List Seg) :
      IsLUB (held '' {p | shift nested level p = path})
        (foldedAt held nested level False path) := by
    have h := @isLUB_foldedAt nested level held (fun _ => False) _ (fun _ h => h.elim) path
    simpa using h
  have himage {held : List Seg → Recorded} {place : List Seg → Site} {path : List Seg}
      (gone : List Seg → Prop)
      (hplace : held = fun p => s.evidence (place p))
      (h : ∀ p, redirect nested level p = place path ↔ ∃ q, p = place q ∧ ¬ gone q ∧
        shift nested level q = path) :
      s.evidence '' {p | redirect nested level p = place path} =
        held '' {q | ¬ gone q ∧ shift nested level q = path} := by
    subst hplace
    ext value
    constructor
    · rintro ⟨p, hp, rfl⟩
      obtain ⟨q, rfl, hq⟩ := (h p).mp hp
      exact ⟨q, hq, rfl⟩
    · rintro ⟨q, hq, rfl⟩
      exact ⟨place q, (h _).mpr ⟨q, rfl, hq⟩, rfl⟩
  have hlub (q : Site) (hq : q.isObject = false) :
      IsLUB (s.evidence '' {p | redirect nested level p = q})
        (((s.left nested).merge (s.taken nested level)).evidence q) := by
    cases q with
    | object l => cases hq
    | elements l =>
      rw [elements_fold]
      constructor
      · rintro _ ⟨p, hp, rfl⟩
        cases p with
        | elements l' =>
          exact le_sup_of_le_left ((hfree _ l).1 ⟨l', Site.elements.inj hp, rfl⟩)
        | column path =>
          simp only [Set.mem_ofPred_eq, redirect] at hp
          split_ifs at hp with hpath
          subst hpath
          refine le_sup_of_le_right ?_
          rw [if_pos (Site.elements.inj hp).symm]
        | object l' => cases hp
        | container path => cases hp
        | null path => cases hp
      · intro bound hbound
        refine sup_le ((hfree _ l).2 ?_) ?_
        · rintro _ ⟨l', hl', rfl⟩
          exact hbound ⟨.elements l', congrArg Site.elements hl', rfl⟩
        · split_ifs with hl
          · exact hbound ⟨.column nested, by simp [redirect, hl], rfl⟩
          · exact bot_le
    | column path =>
      rw [column_fold _ _ _ hlevel, himage (fun p => p = nested) rfl fun p => ?_]
      · exact isLUB_foldedAt _ (fun p hp => hp ▸ not_below_self nested) path
      · cases p with
        | column q =>
          by_cases hq : q = nested <;> simp [redirect, hq]
        | _ => simp [redirect]
    | container path =>
      rw [container_fold _ _ _ hlevel, himage (fun _ => False) rfl fun p => ?_]
      · simpa using hfree _ path
      · cases p <;> simp [redirect]
        split_ifs <;> simp
    | null path =>
      rw [null_fold _ _ _ hlevel, himage (fun _ => False) rfl fun p => ?_]
      · simpa using hfree _ path
      · cases p <;> simp [redirect]
        split_ifs <;> simp
  have hobject (p : Site) : (redirect nested level p).isObject = p.isObject := by
    cases p with
    | column path =>
      rw [redirect]
      split_ifs <;> rfl
    | object => rfl
    | elements => rfl
    | container => rfl
    | null => rfl
  refine ⟨hobject, fun p => ?_, hlub⟩
  by_cases hp : p.isObject = false
  · exact (hlub _ ((hobject p).trans hp)).1 ⟨p, rfl, rfl⟩
  · cases p with
    | object l =>
      refine le_trans ?_ (s.object_fold nested level (shift nested level l))
      rcases shift_eq_iff.mp (rfl : shift nested level l = shift nested level l)
        with ⟨hbelow, heq⟩ | ⟨hbelow, hthere, heq⟩
      · refine le_sup_of_le_left ?_
        rw [← heq, if_neg hbelow]
      · refine le_sup_of_le_right ?_
        rw [if_pos hthere, ← heq]
    | elements => exact absurd rfl hp
    | column => exact absurd rfl hp
    | container => exact absurd rfl hp
    | null => exact absurd rfl hp

end InferenceState

end Haute
