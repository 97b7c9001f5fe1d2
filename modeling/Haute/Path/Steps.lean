import Haute.Path.Levels

/-!
# Levels as steps

A level is a chain of array steps: from one level, some object hops and then an array. The
shred walks a record one step at a time, so what it reaches is described by the steps:
`levelOf` and `stepsOf` are inverse on levels, and one level is above another exactly when
its steps begin the other's.
-/

namespace Haute

/-- One step down: the object hops that locate an array, and the array's key. -/
abbrev Step := List String × String

/-- The segments of one step. -/
def stepSegments (step : Step) : List Seg := objectHops step.1 ++ [⟨step.2, true⟩]

/-- The level that some steps lead to. -/
def levelOf (steps : List Step) : Level := steps.flatMap stepSegments

/-- The steps of a path, after some object hops. -/
def stepsFrom : List String → List Seg → List Step
  | _, [] => []
  | hops, seg :: segs =>
    if seg.isArray then (hops, seg.name) :: stepsFrom [] segs
    else stepsFrom (hops ++ [seg.name]) segs

/-- The steps of a level. -/
def stepsOf (level : Level) : List Step := stepsFrom [] level

@[simp] theorem levelOf_nil : levelOf [] = [] := rfl

@[simp] theorem levelOf_cons (step : Step) (steps : List Step) :
    levelOf (step :: steps) = stepSegments step ++ levelOf steps := List.flatMap_cons

@[simp] theorem levelOf_append (ps qs : List Step) :
    levelOf (ps ++ qs) = levelOf ps ++ levelOf qs :=
  List.flatMap_append

@[simp] theorem stepsOf_nil : stepsOf [] = [] := rfl

theorem stepsFrom_objectHops_append (hops more : List String) (segs : List Seg) :
    stepsFrom hops (objectHops more ++ segs) = stepsFrom (hops ++ more) segs := by
  induction more generalizing hops with
  | nil => simp [objectHops]
  | cons key more ih =>
    have hcons : objectHops (key :: more) ++ segs = ⟨key, false⟩ :: (objectHops more ++ segs) := rfl
    rw [hcons, stepsFrom, if_neg Bool.false_ne_true, ih]
    simp

theorem stepsOf_stepSegments_append (step : Step) (segs : List Seg) :
    stepsOf (stepSegments step ++ segs) = step :: stepsOf segs := by
  rw [stepsOf, stepSegments, List.append_assoc, stepsFrom_objectHops_append]
  simp [stepsFrom, stepsOf]

theorem stepsOf_levelOf_append (steps : List Step) (segs : List Seg) :
    stepsOf (levelOf steps ++ segs) = steps ++ stepsOf segs := by
  induction steps with
  | nil => rfl
  | cons step steps ih =>
    rw [levelOf_cons, List.append_assoc, stepsOf_stepSegments_append, ih, List.cons_append]

@[simp] theorem stepsOf_levelOf (steps : List Step) : stepsOf (levelOf steps) = steps := by
  have := stepsOf_levelOf_append steps []
  rwa [List.append_nil, stepsOf_nil, List.append_nil] at this

private theorem levelOf_stepsFrom (hops : List String) {segs : List Seg}
    (h : IsLevel (objectHops hops ++ segs)) :
    levelOf (stepsFrom hops segs) = objectHops hops ++ segs := by
  induction segs generalizing hops with
  | nil =>
    rcases hops.eq_nil_or_concat with rfl | ⟨front, last, rfl⟩
    · rfl
    · have := h ⟨last, false⟩ (by simp [objectHops])
      simp at this
  | cons seg segs ih =>
    obtain ⟨name, isArray⟩ := seg
    rw [stepsFrom]
    cases isArray with
    | true =>
      have hrest : IsLevel (objectHops [] ++ segs) := by
        intro seg hseg
        refine h seg ?_
        rw [List.getLast?_append, List.getLast?_cons]
        cases segs with
        | nil => simp [objectHops] at hseg
        | cons s segs =>
          have : (s :: segs).getLast? = some seg := hseg
          simp [this]
      rw [if_pos rfl, levelOf_cons, ih [] hrest]
      simp [stepSegments, objectHops]
    | false =>
      have hhops : objectHops (hops ++ [name]) ++ segs = objectHops hops ++
          ⟨name, false⟩ :: segs := by
        simp [objectHops]
      rw [if_neg Bool.false_ne_true, ih (hops ++ [name]) (hhops ▸ h), hhops]

/-- A level is where its steps lead. -/
theorem levelOf_stepsOf {level : Level} (h : IsLevel level) : levelOf (stepsOf level) = level :=
  levelOf_stepsFrom [] h

theorem levelOf_injective : Function.Injective levelOf := fun ps qs h => by
  rw [← stepsOf_levelOf ps, h, stepsOf_levelOf]

/-- One level is above another exactly when its steps begin the other's. -/
theorem levelOf_prefix_iff {ps qs : List Step} : levelOf ps <+: levelOf qs ↔ ps <+: qs := by
  constructor
  · rintro ⟨segs, h⟩
    refine ⟨stepsOf segs, ?_⟩
    rw [← stepsOf_levelOf_append, h, stepsOf_levelOf]
  · rintro ⟨rest, rfl⟩
    rw [levelOf_append]
    exact List.prefix_append _ _

theorem length_le_length_levelOf (steps : List Step) : steps.length ≤ (levelOf steps).length := by
  induction steps with
  | nil => simp
  | cons step steps ih =>
    simp only [levelOf_cons, stepSegments, List.length_append, List.length_cons, List.length_nil]
    omega

end Haute
