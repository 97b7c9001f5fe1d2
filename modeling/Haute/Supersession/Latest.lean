import Haute.Supersession.Registry

/-!
# Only the latest result, and every permit back

What `run_latest` promises, over runs in which no handler that holds a permit is cancelled
while it drains: one call of a key is active at a time, a call returns only if it is the
one registered last for its key, and every permit is released once. The condition is needed:
`permit_lost_while_draining` is a run with one cancellation.
-/

namespace Haute

open Function (update update_self update_of_ne)

/-- What a call that has ended returns or raises. -/
def Call.outcome? {K R : Type} (call : Call K R) : Option (Except CallError R) :=
  match call.phase with
  | .ended outcome => some outcome
  | _ => none

theorem Call.outcome?_eq_some_iff {K R : Type} {call : Call K R} {outcome : Except CallError R} :
    call.outcome? = some outcome ↔ call.phase = .ended outcome := by
  unfold Call.outcome?
  cases call.phase <;> simp

namespace Coordinator

variable {K R : Type} [DecidableEq K] {x y : Coordinator K R} {c : ℕ} {call : Call K R}

/-- No cancellation is delivered to a handler of `_acquire_limiter_unless_superseded` that
holds a permit. -/
def Calm (x : Coordinator K R) (e : CoordinatorEvent K R) : Prop :=
  ∀ c call, e = .cancel c → x.calls c = some call → call.draining = true →
    call.acquireTask ≠ .returned

/-- What the coordinator promises. -/
structure SupersedesWell (x : Coordinator K R) : Prop where
  /-- One call of a key has the slot. -/
  oneActive : ∀ c d call other, x.calls c = some call → x.calls d = some other →
    call.occupies = true →
    other.occupies = true → call.key = other.key → c = d
  /-- A call that returns in the next step is the one registered last. -/
  latest : ∀ e y c call value, x.step e = some y → y.calls c = some call →
    call.phase = .ended (.ok value) →
    (∃ old, x.calls c = some old ∧ old.phase = .ended (.ok value)) ∨ y.latest call.key = some c
  /-- A call gets one permit at most, and it is released once or still held. -/
  permits : ∀ c call, x.calls c = some call → x.grants c ≤ 1 ∧
    x.releases c + (if call.holdsPermit then 1 else 0) = x.grants c
  /-- A call that has ended has given its permit back, or left it to its background future,
  which gives it back once it is done. -/
  ended : ∀ c call, x.calls c = some call → call.inFlight = false → call.background ≠ .running →
    x.releases c = x.grants c

/-! ### Returning -/

/-- Nothing but what had returned before has returned. -/
def NoReturn (x y : Coordinator K R) : Prop :=
  ∀ c call value, y.calls c = some call → call.phase = .ended (.ok value) →
    ∃ old, x.calls c = some old ∧ old.phase = .ended (.ok value)

omit [DecidableEq K] in
theorem noReturn_update (hcalls : y.calls = update x.calls c (some call))
    (h : ∀ value, call.phase = .ended (.ok value) →
      ∃ old, x.calls c = some old ∧ old.phase = .ended (.ok value)) : NoReturn x y := by
  intro d new value hnew hphase
  rw [hcalls] at hnew
  by_cases hd : d = c
  · rw [hd, update_self] at hnew
    obtain rfl := Option.some.inj hnew
    rw [hd]
    exact h value hphase
  · rw [update_of_ne hd] at hnew
    exact ⟨new, hnew, hphase⟩

theorem noReturn_finish (x : Coordinator K R) (c : ℕ) (call : Call K R) (error : CallError)
    (release : Bool) :
    NoReturn x (x.finish c call (.error error) release) :=
  noReturn_update (calls_finish x c call _ release) fun value h => by cases h

theorem noReturn_enterActive (x : Coordinator K R) (c : ℕ) (call : Call K R) :
    NoReturn x (x.enterActive c call) := by
  unfold enterActive
  split_ifs
  · exact noReturn_finish x c call _ _
  · exact @noReturn_update _ _ x _ c { call with phase := .waitingAgain } rfl fun value h =>
      by cases h
  · exact @noReturn_update _ _ x _ c { call with phase := .working } rfl fun value h => by cases h

theorem noReturn_enterLimiter (x : Coordinator K R) (c : ℕ) (call : Call K R) :
    NoReturn x (x.enterLimiter c call) := by
  unfold enterLimiter
  split_ifs
  · exact noReturn_finish x c call _ _
  · exact @noReturn_update _ _ x _ c { call with phase := .waiting } rfl fun value h => by cases h
  · split
    · exact noReturn_enterActive x c call
    · exact @noReturn_update _ _ x _ c { call with phase := .acquiring } rfl fun value h =>
        by cases h

theorem noReturn_start {key : K} {limiter cancelActive : Option ℕ} :
    NoReturn x (x.start c key limiter cancelActive) := by
  have hretain : (x.retainState key).2.calls = x.calls := by
    unfold retainState
    split <;> rfl
  intro d new value hnew hphase
  obtain ⟨old, hold, hended⟩ := noReturn_enterLimiter _ c _ d new value hnew hphase
  refine noReturn_update (x := x) (congrArg (update · c _) hretain) (fun value h => ?_) d old
    value hold hended
  cases h

theorem noReturn_resume (hstep : x.resume c call = some y) : NoReturn x y := by
  unfold resume at hstep
  split at hstep
  case h_1 =>
    cases hstep
    exact noReturn_enterLimiter x c call
  case h_2 =>
    split_ifs at hstep <;> cases hstep
    · exact @noReturn_update _ _ x _ c _ rfl fun value h => by cases h
    · exact @noReturn_update _ _ x _ c _ rfl fun value h => by cases h
  case h_3 =>
    split_ifs at hstep
    cases hstep
    exact noReturn_enterActive x c call
  case h_4 =>
    split_ifs at hstep
    cases hstep
    exact @noReturn_update _ _ x _ c _ rfl fun value h => by cases h
  case h_5 =>
    split_ifs at hstep
    cases hstep
    exact noReturn_finish x c call _ _
  case h_6 =>
    cases hstep
    exact noReturn_enterActive x c call
  case h_7 => cases hstep
  case h_8 => cases hstep

theorem noReturn_cancel (hstep : x.cancel c call = some y) : NoReturn x y := by
  unfold cancel at hstep
  split at hstep
  case h_1 =>
    cases hstep
    exact noReturn_finish x c call _ _
  case h_2 =>
    cases hstep
    exact @noReturn_update _ _ x _ c _ rfl fun value h => by cases h
  case h_3 =>
    split_ifs at hstep
    cases hstep
    exact @noReturn_update _ _ x _ c _ rfl fun value h => by cases h
  case h_4 =>
    split_ifs at hstep
    cases hstep
    exact noReturn_finish x c call _ _
  case h_5 =>
    split_ifs at hstep
    cases hstep
    exact noReturn_finish x c call _ _
  case h_6 =>
    cases hstep
    exact noReturn_finish x c call _ _
  case h_7 =>
    cases hstep
    exact noReturn_finish (x.clearActive call) c call _ _
  case h_8 => cases hstep

/-- **A call that returns is the latest**: its generation is still its key's newest, and
nobody is registered in between. -/
theorem latest_of_step (h : x.Registry) {e : CoordinatorEvent K R} (hstep : x.step e = some y)
    {value : R} (hcall : y.calls c = some call) (hphase : call.phase = .ended (.ok value)) :
    (∃ old, x.calls c = some old ∧ old.phase = .ended (.ok value)) ∨
      y.latest call.key = some c := by
  have hkept (hno : NoReturn x y) :
      (∃ old, x.calls c = some old ∧ old.phase = .ended (.ok value)) ∨ y.latest call.key = some c :=
    .inl (hno c call value hcall hphase)
  -- only a worker that returns ends a call with a value
  cases e
  case start d key limiter cancelActive =>
    simp only [step] at hstep
    split at hstep
    next =>
      cases hstep
      exact hkept noReturn_start
    next => cases hstep
  case resume d =>
    obtain ⟨old, -, hstep⟩ := Option.bind_eq_some_iff.mp hstep
    exact hkept (noReturn_resume hstep)
  case cancel d =>
    obtain ⟨old, -, hstep⟩ := Option.bind_eq_some_iff.mp hstep
    exact hkept (noReturn_cancel hstep)
  case grant d =>
    obtain ⟨old, hold, hstep⟩ := Option.bind_eq_some_iff.mp hstep
    unfold grant at hstep
    split at hstep
    next hacquiring _ =>
      split_ifs at hstep
      cases hstep
      exact hkept
        (@noReturn_update _ _ x _ d { old with acquireTask := .returned } rfl fun value h =>
        ⟨old, hold, h⟩)
    next => cases hstep
  case acquireEnds d =>
    obtain ⟨old, hold, hstep⟩ := Option.bind_eq_some_iff.mp hstep
    split_ifs at hstep
    cases hstep
    exact hkept (@noReturn_update _ _ x _ d _ rfl fun value h => ⟨old, hold, h⟩)
  case notice d =>
    obtain ⟨old, hold, hstep⟩ := Option.bind_eq_some_iff.mp hstep
    split_ifs at hstep
    cases hstep
    exact hkept (@noReturn_update _ _ x _ d _ rfl fun value h => ⟨old, hold, h⟩)
  case supersededEnds d =>
    obtain ⟨old, hold, hstep⟩ := Option.bind_eq_some_iff.mp hstep
    split_ifs at hstep
    cases hstep
    exact hkept (@noReturn_update _ _ x _ d _ rfl fun value h => ⟨old, hold, h⟩)
  case workerReturns d result =>
    obtain ⟨old, hold, hstep⟩ := Option.bind_eq_some_iff.mp hstep
    split at hstep
    next hworking =>
      cases hstep
      -- a superseded worker's value is dropped, and a current one is the newest of its key
      by_cases hsuperseded : x.isSuperseded old = true
      · refine hkept ?_
        rw [workerEnds, if_pos hsuperseded]
        exact noReturn_finish (x.clearActive old) d old _ _
      · rw [workerEnds, if_neg hsuperseded] at hcall ⊢
        have hflight : old.inFlight = true := inFlight_of_phase hworking fun _ h => by cases h
        have hnewest := (h.newest d old hold hflight).2
          (not_not.mp fun hne => hsuperseded (decide_eq_true hne))
        rw [calls_finish] at hcall
        by_cases hc : c = d
        · rw [hc, update_self] at hcall
          obtain rfl := Option.some.inj hcall
          rw [hc, (finish_fields _ _ _ _ _).2.2.2]
          exact .inr hnewest
        · rw [update_of_ne hc] at hcall
          exact .inl ⟨call, hcall, hphase⟩
    next => cases hstep
  case workerRaises d error background =>
    obtain ⟨old, hold, hstep⟩ := Option.bind_eq_some_iff.mp hstep
    split at hstep
    next =>
      rcases background with _ | done
      · cases hstep
        refine hkept ?_
        unfold workerEnds
        split_ifs
        · exact noReturn_finish (x.clearActive old) d old _ _
        · exact noReturn_finish (x.clearActive old) d old _ _
      · cases hstep
        exact hkept (noReturn_finish x d _ _ _)
    next => cases hstep
  case backgroundDone d =>
    obtain ⟨old, hold, hstep⟩ := Option.bind_eq_some_iff.mp hstep
    split_ifs at hstep
    cases hstep
    exact hkept (@noReturn_update _ _ x _ d { old with background := .clearing }
      (congrArg (update · d _) (releasePermit_frame x d old.limiter).1) fun value h =>
        ⟨old, hold, h⟩)
  case clear d =>
    obtain ⟨old, hold, hstep⟩ := Option.bind_eq_some_iff.mp hstep
    split_ifs at hstep
    cases hstep
    exact hkept (@noReturn_update _ _ x _ d { old with background := .none }
      (congrArg (update · d _) (prune_frame (x.clearActive old) old.key old.state).1) fun value h =>
        ⟨old, hold, h⟩)

/-! ### Every run -/

/-- Permits and seats, in every run that meets the condition. -/
theorem invariant_of_reachable (h : ((machine K R).restrict Calm).Reachable x) :
    x.Accounts ∧ x.Registry := by
  refine h.invariant (P := fun x => x.Accounts ∧ x.Registry) ?_ ?_
  · rintro x ⟨available, rfl⟩
    refine ⟨fun _ => ⟨rfl, rfl⟩, ?_⟩
    exact {
      fresh := fun _ _ h => by cases h
      keyed := fun _ _ _ h => by cases h
      seated := fun _ _ h => by cases h
      occupied := fun _ _ h => by cases h
      alone := fun _ _ _ _ h => by cases h
      newest := fun _ _ h => by cases h
      referred := fun _ => ⟨∅, rfl, fun c => by
        constructor
        · intro hmem
          cases hmem
        · rintro ⟨_, hcall, -⟩
          cases hcall⟩ }
  · rintro x e y ⟨haccounts, hregistry⟩ ⟨hcalm, hstep⟩
    exact ⟨accounts_step haccounts hcalm hstep, registry_step hregistry haccounts hstep⟩

/-- **Only the latest result, and every permit back.** -/
theorem supersession_keeps_order (h : ((machine K R).restrict Calm).Reachable x) :
    x.SupersedesWell := by
  obtain ⟨haccounts, hregistry⟩ := invariant_of_reachable h
  refine ⟨?_, fun e y c call value hstep hcall hphase =>
    latest_of_step hregistry hstep hcall hphase, ?_, ?_⟩
  · intro c d call other hcall hother hoccupies hoccupies' hkey
    refine hregistry.alone c d call other hcall hother hoccupies hoccupies' ?_
    have hat := hregistry.seated c call hcall (Call.seated_of_occupies hoccupies)
    have hat' := hregistry.seated d other hother (Call.seated_of_occupies hoccupies')
    rw [hkey] at hat
    exact Option.some.inj (hat.symm.trans hat')
  · intro c call hcall
    obtain ⟨-, hgrants, hreleases⟩ := haccounts.accounted hcall
    refine ⟨?_, hreleases⟩
    rw [hgrants]
    split_ifs <;> omega
  · intro c call hcall hended hbackground
    obtain ⟨-, -, hreleases⟩ := haccounts.accounted hcall
    rw [Call.holdsPermit, hended, decide_eq_false hbackground, Bool.or_false, Bool.and_false]
      at hreleases
    exact hreleases

/-- The steps a list of events takes are a run. -/
theorem run_of_foldlM {C : Coordinator K R → CoordinatorEvent K R → Prop} {available : ℕ → ℕ}
    {es : List (CoordinatorEvent K R)} (hC : ∀ x, ∀ e ∈ es, C x e)
    (h : es.foldlM step (new available) = some y) : ((machine K R).restrict C).Run es y := by
  induction es using List.reverseRecOn generalizing y with
  | nil => exact .start ⟨available, (Option.some.inj h).symm⟩
  | append_singleton es e ih =>
    rw [List.foldlM_append] at h
    obtain ⟨t, ht, h⟩ := Option.bind_eq_some_iff.mp h
    have hlast : t.step e = some y := by simpa using h
    exact .next (ih (fun x e he => hC x e (List.mem_append_left _ he)) ht)
      ⟨hC t e (List.mem_append_right _ (List.mem_singleton_self e)), hlast⟩

/-- A call gets its permit and works, and a newer one of its key, which waits for it to be done,
works after it. -/
def twoCalls : List (CoordinatorEvent String ℕ) :=
  [.start 0 "k" (some 0) (some 5), .grant 0, .resume 0, .supersededEnds 0, .resume 0,
    .start 1 "k" (some 0) none, .workerReturns 0 7, .resume 1, .grant 1, .resume 1,
    .supersededEnds 1, .resume 1]

/-- The older call is superseded and has given its permit back; the newer one returns, and is the
one registered last. -/
theorem supersession_keeps_order_two : ∃ x y : Coordinator String ℕ,
    twoCalls.foldlM step (new fun _ => 1) = some x ∧ x.step (.workerReturns 1 8) = some y ∧
      (x.calls 0).bind Call.outcome? = some (.error .superseded) ∧ x.grants 0 = 1 ∧
      x.releases 0 = x.grants 0 ∧
      (y.calls 1).bind Call.outcome? = some (.ok 8) ∧ y.latest "k" = some 1 := by
  have hsome : ((twoCalls.foldlM step (new fun _ => 1)).bind fun x =>
      x.step (.workerReturns 1 8)).isSome = true := by decide +kernel
  obtain ⟨y, hy⟩ := Option.isSome_iff_exists.mp hsome
  obtain ⟨x, hx, hstep⟩ := Option.bind_eq_some_iff.mp hy
  have hcalm : ∀ x, ∀ e ∈ twoCalls, Calm x e := by
    intro x e he c call hcancel
    subst hcancel
    simp [twoCalls] at he
  have hwell := supersession_keeps_order ⟨_, run_of_foldlM hcalm hx⟩
  -- what the run and the step after it leave
  have hleft : (twoCalls.foldlM step (new fun _ => 1)).map (fun x =>
      ((x.calls 0).map fun call => (call.inFlight, decide (call.background = .running)),
        (x.calls 0).bind Call.outcome?, x.grants 0, (x.calls 1).bind Call.outcome?)) =
      some (some (false, false), some (.error .superseded), 1, none) := by decide +kernel
  have hreturned : ((twoCalls.foldlM step (new fun _ => 1)).bind fun x =>
      x.step (.workerReturns 1 8)).map (fun y =>
        ((y.calls 1).bind Call.outcome?, (y.calls 1).map Call.key)) =
      some (some (.ok 8), some "k") := by decide +kernel
  rw [hx] at hleft
  rw [hy] at hreturned
  obtain ⟨hold, hleft⟩ := Prod.mk.inj (Option.some.inj hleft)
  obtain ⟨hsuperseded, hleft⟩ := Prod.mk.inj hleft
  obtain ⟨hgrants, hworking⟩ := Prod.mk.inj hleft
  obtain ⟨hanswer, hkey⟩ := Prod.mk.inj (Option.some.inj hreturned)
  obtain ⟨call, hcall, hfields⟩ := Option.map_eq_some_iff.mp hold
  obtain ⟨hended, hbackground⟩ := Prod.mk.inj hfields
  obtain ⟨newer, hnewer, houtcome⟩ := Option.bind_eq_some_iff.mp hanswer
  rw [hnewer] at hkey
  refine ⟨x, y, hx, hstep, hsuperseded, hgrants,
    hwell.ended 0 call hcall hended (of_decide_eq_false hbackground), hanswer, ?_⟩
  rcases hwell.latest _ _ 1 newer 8 hstep hnewer (Call.outcome?_eq_some_iff.mp houtcome) with
    ⟨before, hbefore, hphase⟩ | hlatest
  · rw [hbefore, Option.bind_some, Call.outcome?_eq_some_iff.mpr hphase] at hworking
    cases hworking
  · rw [← hlatest, Option.some.inj hkey]

/-- A call gets its permit in the turn in which a newer one supersedes it, and is cancelled
in the next. -/
def cancelledWhileDraining : List (CoordinatorEvent String ℕ) :=
  [.start 0 "k" (some 0) none, .grant 0, .start 1 "k" (some 0) none, .notice 0,
    .resume 0, .cancel 0]

/-- The call has ended, and its permit is never released. -/
theorem permit_lost_while_draining : ∃ x : Coordinator String ℕ, (machine String ℕ).Reachable x ∧
    (x.calls 0).map (fun call => (call.inFlight, call.background)) = some (false, .none) ∧
    x.grants 0 = 1 ∧ x.releases 0 = 0 ∧ x.available 0 = 0 := by
  have hsome : (cancelledWhileDraining.foldlM step (new fun _ => 1)).isSome = true :=
    by decide +kernel
  obtain ⟨x, hx⟩ := Option.isSome_iff_exists.mp hsome
  have hrun := run_of_foldlM (C := fun _ _ => True) (fun _ _ _ => trivial) hx
  have hfields : (cancelledWhileDraining.foldlM step (new fun _ => 1)).map (fun x =>
      ((x.calls 0).map (fun call => (call.inFlight, call.background)), x.grants 0, x.releases 0,
        x.available 0)) = some (some (false, .none), 1, 0, 0) := by decide +kernel
  rw [hx] at hfields
  obtain ⟨h1, h⟩ := Prod.mk.inj (Option.some.inj hfields)
  obtain ⟨h2, h⟩ := Prod.mk.inj h
  obtain ⟨h3, h4⟩ := Prod.mk.inj h
  exact ⟨x, ⟨_, hrun.of_restrict⟩, h1, h2, h3, h4⟩

end Coordinator

end Haute
