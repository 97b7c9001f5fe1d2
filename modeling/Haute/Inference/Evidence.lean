import Haute.Inference.Walk
import Mathlib.Order.Bounds.Image
import Mathlib.Order.WithBot

/-!
# Evidence by place

What a state has recorded, read place by place: an array's elements, and by their full paths the
columns, the containers and the null leaves. Types form a join semilattice under `widenType`, so the
evidence of a merge is the join of the evidence (`evidence_merge`), and evidence that is moved to
other places is accounted for by least upper bounds (`Moves`).
-/

namespace Haute

instance : Max ColType := ⟨fun s t => widenType (some s) t⟩

/-- The narrowest type that fits both: a join. -/
instance : SemilatticeSup ColType :=
  SemilatticeSup.mk' (fun s t => by cases s <;> cases t <;> rfl)
    (fun r s t => by cases r <;> cases s <;> cases t <;> rfl) (fun s => by cases s <;> rfl)

theorem widenType_some (s t : ColType) : widenType (some s) t = s ⊔ t := rfl

/-- What was recorded at a place: nothing, a value without a type, or a type. -/
abbrev Recorded := WithBot (WithBot ColType)

/-- What an optional record adds. -/
def recorded {α : Type} : Option α → WithBot α
  | none => ⊥
  | some a => a

@[simp] theorem recorded_none {α : Type} : recorded (none : Option α) = ⊥ := rfl

@[simp] theorem recorded_some {α : Type} (a : α) : recorded (some a) = (a : WithBot α) := rfl

theorem recorded_eq_bot_iff {α : Type} {o : Option α} : recorded o = ⊥ ↔ o = none := by
  cases o <;> simp

/-- The keys of the object hops that a path ends with. -/
def ownKeys (path : List Seg) : ObjectPath := (ownPart path).map Seg.name

theorem arrayPrefix_append_ownKeys (path : List Seg) :
    arrayPrefix path ++ objectHops (ownKeys path) = path := by
  rw [ownKeys, objectHops_ownPart, arrayPrefix_append_ownPart]

/-- Where evidence stands. -/
inductive Site where
  /-- Objects at a level. -/
  | object (level : Level)
  /-- The scalar elements of an array. -/
  | elements (level : Level)
  /-- A leaf, by its full path. -/
  | column (path : List Seg)
  /-- An object or an array, by its full path. -/
  | container (path : List Seg)
  /-- A null leaf, by its full path. -/
  | null (path : List Seg)

namespace InferenceState

/-- The type of a leaf. -/
def columnAt (s : InferenceState) (level : Level) (keys : ObjectPath) : Option ColType :=
  (s.levels.get? level).bind fun columns => columns.get? keys

def containerAt (s : InferenceState) (level : Level) (keys : ObjectPath) : Option Unit :=
  if keys ∈ (s.containerPaths.get? level).getD ∅ then some () else none

def nullAt (s : InferenceState) (level : Level) (keys : ObjectPath) : Option Unit :=
  (s.nullLeaves.get? level).bind fun nulls => nulls.get? keys

/-- What a state has recorded at a place. -/
def evidence (s : InferenceState) : Site → Recorded
  | .object level => recorded ((s.levels.get? level).map fun _ => ⊥)
  | .elements level => recorded ((s.scalarLevels.get? level).map recorded)
  | .column path => recorded ((s.columnAt (arrayPrefix path) (ownKeys path)).map WithBot.some)
  | .container path => recorded ((s.containerAt (arrayPrefix path) (ownKeys path)).map fun _ => ⊥)
  | .null path => recorded ((s.nullAt (arrayPrefix path) (ownKeys path)).map fun _ => ⊥)

/-! ### Merging joins -/

variable (s t : InferenceState)

/-- A merge of nested dictionaries, read at two keys. -/
theorem get?_mergeWith_mergeWith {κ ι ν : Type} [DecidableEq κ] [DecidableEq ι]
    (g : Option ν → ν → ν)
    (d e : OrdDict κ (OrdDict ι ν)) (k : κ) (i : ι) :
    ((d.mergeWith (fun o v => (o.getD .empty).mergeWith g v) e).get? k).bind
      (fun inner => inner.get? i)
      = match (e.get? k).bind fun inner => inner.get? i with
        | none => (d.get? k).bind fun inner => inner.get? i
        | some v => some (g ((d.get? k).bind fun inner => inner.get? i) v) := by
  rw [OrdDict.get?_mergeWith]
  cases hk : e.get? k with
  | none => rfl
  | some inner =>
    have hheld : ((d.get? k).getD .empty).get? i = (d.get? k).bind fun inner => inner.get? i := by
      cases d.get? k <;> rfl
    simp only [Option.bind_some, OrdDict.get?_mergeWith, hheld]
    cases inner.get? i <;> rfl

theorem columnAt_merge (level : Level) (keys : ObjectPath) :
    (s.merge t).columnAt level keys = match t.columnAt level keys with
      | none => s.columnAt level keys
      | some type => some (widenType (s.columnAt level keys) type) := by
  have h := get?_mergeWith_mergeWith widenType s.levels t.levels level keys
  simp only [columnAt, merge]
  cases ht : (t.levels.get? level).bind fun columns => columns.get? keys with
  | none => exact h.trans (by rw [ht])
  | some type => exact h.trans (by rw [ht])

theorem nullAt_merge (level : Level) (keys : ObjectPath) :
    (s.merge t).nullAt level keys = match t.nullAt level keys with
      | none => s.nullAt level keys
      | some u => some u := by
  have h := get?_mergeWith_mergeWith (fun _ u => u) s.nullLeaves t.nullLeaves level keys
  simp only [nullAt, merge]
  cases ht : (t.nullLeaves.get? level).bind fun nulls => nulls.get? keys with
  | none => exact h.trans (by rw [ht])
  | some u => exact h.trans (by rw [ht])

theorem containerAt_merge (level : Level) (keys : ObjectPath) :
    (s.merge t).containerAt level keys =
      (s.containerAt level keys).or (t.containerAt level keys) := by
  have hmem : keys ∈ ((s.merge t).containerPaths.get? level).getD ∅ ↔
      keys ∈ (s.containerPaths.get? level).getD ∅ ∨
        keys ∈ (t.containerPaths.get? level).getD ∅ := by
    simp only [merge, OrdDict.get?_mergeWith]
    cases t.containerPaths.get? level <;> simp
  simp only [containerAt, hmem]
  split_ifs <;> simp_all

/-- **Merging joins the evidence**, place by place. -/
theorem evidence_merge (p : Site) : (s.merge t).evidence p = s.evidence p ⊔ t.evidence p := by
  cases p with
  | object level =>
    simp only [evidence, merge, OrdDict.get?_mergeWith]
    cases s.levels.get? level <;> cases t.levels.get? level <;> simp
  | elements level =>
    simp only [evidence, merge, OrdDict.get?_mergeWith]
    rcases s.scalarLevels.get? level with _ | _ | a <;> rcases t.scalarLevels.get? level
      with _ | _ | b <;>
      simp [mergeScalars, widenType_some, ← WithBot.coe_sup]
  | column path =>
    simp only [evidence, columnAt_merge]
    rcases s.columnAt (arrayPrefix path) (ownKeys path) with _ | a <;>
      rcases t.columnAt (arrayPrefix path) (ownKeys path) with _ | b <;>
      simp [widenType_some, ← WithBot.coe_sup]
  | container path =>
    simp only [evidence, containerAt_merge]
    cases s.containerAt (arrayPrefix path) (ownKeys path) <;>
      cases t.containerAt (arrayPrefix path) (ownKeys path) <;> simp
  | null path =>
    simp only [evidence, nullAt_merge]
    cases s.nullAt (arrayPrefix path) (ownKeys path) <;>
      cases t.nullAt (arrayPrefix path) (ownKeys path) <;> simp

end InferenceState

/-! ### Moving evidence -/

/-- Whether the evidence at a place is of objects. -/
def Site.isObject : Site → Bool
  | .object _ => true
  | _ => false

/-- `after` holds at each place the join of what `before` held at the places taken there, and loses
no object. -/
structure Moves (r : Site → Site) (before after : InferenceState) : Prop where
  isObject (p : Site) : (r p).isObject = p.isObject
  le (p : Site) : before.evidence p ≤ after.evidence (r p)
  isLUB (q : Site) (hq : q.isObject = false) :
    IsLUB (before.evidence '' {p | r p = q}) (after.evidence q)

theorem Moves.refl (s : InferenceState) : Moves id s s :=
  ⟨fun _ => rfl, fun _ => le_rfl, fun q _ => by simp⟩

theorem Moves.trans {r₁ r₂ : Site → Site} {s t u : InferenceState} (h₁ : Moves r₁ s t)
    (h₂ : Moves r₂ t u) :
    Moves (r₂ ∘ r₁) s u := by
  refine ⟨fun p => (h₂.isObject _).trans (h₁.isObject p), fun p => (h₁.le p).trans (h₂.le _),
    fun q hq => ⟨?_, ?_⟩⟩
  · rintro _ ⟨p, rfl, rfl⟩
    exact (h₁.le p).trans (h₂.le _)
  · intro x hx
    refine (h₂.isLUB q hq).2 ?_
    rintro _ ⟨p, hp, rfl⟩
    have hp' : p.isObject = false := by
      rw [← h₂.isObject p, hp]
      exact hq
    refine (h₁.isLUB p hp').2 ?_
    rintro _ ⟨o, rfl, rfl⟩
    exact hx ⟨o, hp, rfl⟩

end Haute
