import Mathlib.Data.List.Induction
import Mathlib.Logic.Basic

/-!
# Runs of a machine

A `Machine` is a set of initial states with a labelled step relation. `Run` is a finite
run with the events it took, oldest first, and `Reachable` forgets the events. An
invariant is proved once, by `Reachable.invariant`: it holds where a run starts, and each
step keeps it. `Run.invariant` is the same rule for a statement about the state and the
events so far; `restrict` keeps the steps that meet a condition.

A component whose operations are functions is the machine `Machine.ofFn`; its runs are
the folds of its operations.
-/

/-- Initial states and labelled steps. -/
structure Machine (State Event : Type*) where
  /-- The states a run may start in. -/
  init : State → Prop
  /-- One step, with the event it takes. -/
  step : State → Event → State → Prop

namespace Machine

variable {State Event : Type*} {m : Machine State Event}

/-- A run and its events, oldest first. -/
inductive Run (m : Machine State Event) : List Event → State → Prop where
  /-- A run that has only started. -/
  | start {s : State} (h : m.init s) : Run m [] s
  /-- A run with one more step. -/
  | next {es : List Event} {s t : State} {e : Event} (hs : Run m es s) (h : m.step s e t) :
      Run m (es ++ [e]) t

/-- The states some run ends in. -/
def Reachable (m : Machine State Event) (s : State) : Prop := ∃ es, m.Run es s

/-- **The invariant rule for runs**: what holds at the start, and is carried by every
step a run can take, holds of every run. -/
theorem Run.invariant {P : List Event → State → Prop} (hinit : ∀ s, m.init s → P [] s)
    (hstep : ∀ es s e t, m.Run es s → P es s → m.step s e t → P (es ++ [e]) t)
    {es : List Event} {s : State} (hrun : m.Run es s) : P es s := by
  induction hrun with
  | start h => exact hinit _ h
  | next hs h ih => exact hstep _ _ _ _ hs ih h

/-- **The invariant rule.** -/
theorem Reachable.invariant {P : State → Prop} (hinit : ∀ s, m.init s → P s)
    (hstep : ∀ s e t, P s → m.step s e t → P t) {s : State} (h : m.Reachable s) : P s := by
  obtain ⟨es, hrun⟩ := h
  exact @Run.invariant _ _ _ (fun _ s => P s) hinit (fun _ s e t _ hs => hstep s e t hs) _ _ hrun

/-- The machine that takes only the steps meeting `C`: its runs are the runs of `m` all of
whose steps meet `C`. -/
def restrict (m : Machine State Event) (C : State → Event → Prop) : Machine State Event :=
  ⟨m.init, fun s e t => C s e ∧ m.step s e t⟩

/-- A run of the restricted machine is a run. -/
theorem Run.of_restrict {C : State → Event → Prop} {es : List Event} {s : State}
    (hrun : (m.restrict C).Run es s) : m.Run es s := by
  induction hrun with
  | start h => exact .start h
  | next _ h ih => exact .next ih h.2

/-- The machine started from one state. -/
def startFrom (m : Machine State Event) (s : State) : Machine State Event :=
  ⟨fun t => t = s, m.step⟩

/-- What every step keeps, a run from any state keeps. -/
theorem Run.keeps {P : State → Prop} {s t : State} {es : List Event}
    (hrun : (m.startFrom s).Run es t) (hs : P s)
    (hstep : ∀ s e t, P s → m.step s e t → P t) : P t := by
  induction hrun with
  | start h => exact h ▸ hs
  | next _ h ih => exact hstep _ _ _ ih h

/-- The machine of operations that are functions. -/
def ofFn (start : State) (f : State → Event → State) : Machine State Event :=
  ⟨fun s => s = start, fun s e t => t = f s e⟩

/-- A run of functions is their fold. -/
theorem run_ofFn_iff {start : State} {f : State → Event → State} {es : List Event} {s : State} :
    (ofFn start f).Run es s ↔ s = es.foldl f start := by
  constructor
  · intro hrun
    induction hrun with
    | start h => exact h
    | next hs h ih =>
      rw [List.foldl_append, ← ih]
      exact h
  · rintro rfl
    induction es using List.reverseRecOn with
    | nil => exact .start rfl
    | append_singleton es e ih =>
      rw [List.foldl_append]
      exact .next ih rfl

/-- The machine of operations that are functions where they can be taken. -/
def ofPartial (start : State) (f : State → Event → Option State) : Machine State Event :=
  ⟨fun s => s = start, fun s e t => f s e = some t⟩

/-- A run of partial functions is their fold, where that is defined. -/
theorem run_ofPartial_iff {start : State} {f : State → Event → Option State} {es : List Event}
    {s : State} : (ofPartial start f).Run es s ↔ es.foldlM f start = some s := by
  constructor
  · intro hrun
    induction hrun with
    | start h => exact congrArg some (Eq.symm h)
    | next hs h ih =>
      rw [List.foldlM_append, ih]
      change (f _ _ >>= fun s => [].foldlM f s) = some _
      rw [show f _ _ = some _ from h]
      rfl
  · intro h
    induction es using List.reverseRecOn generalizing s with
    | nil => exact .start (Option.some.inj h).symm
    | append_singleton es e ih =>
      rw [List.foldlM_append] at h
      obtain ⟨t, ht, h⟩ := Option.bind_eq_some_iff.mp h
      have hlast : f t e = some s := by simpa using h
      exact .next (ih ht) hlast

end Machine
