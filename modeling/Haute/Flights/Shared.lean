import Haute.Flights.LatestWins

/-!
# Shared flights

`SharedFlights` runs one flight per key for every concurrent request. When the last
subscriber leaves a flight that has no outcome yet, the key is released and the flight's
token cancelled, so that a later request starts afresh while the abandoned run winds down.
Flights and events are those of the latest-wins queue; there is no group and no slot.
-/

namespace Haute

/-- The table of running flights, and every flight it has ever made. -/
structure SharedFlights (K T : Type) where
  flights : ℕ → Option (Flight Unit K T)
  /-- How many flights have been made. -/
  count : ℕ
  /-- How many subscriptions have been made. -/
  subscriptions : ℕ
  /-- `_flights`. -/
  table : K → Option ℕ

namespace SharedFlights

variable {K T : Type}

/-- No flights. -/
def empty : SharedFlights K T := ⟨fun _ => none, 0, 0, fun _ => none⟩

/-- Store a flight under its number. -/
def put (s : SharedFlights K T) (f : ℕ) (flight : Flight Unit K T) : SharedFlights K T :=
  { s with flights := Function.update s.flights f (some flight) }

variable [DecidableEq K]

/-- `_release_locked`. -/
def release (s : SharedFlights K T) (f : ℕ) (key : K) : SharedFlights K T :=
  if s.table key = some f then { s with table := Function.update s.table key none } else s

/-- `subscribe`, under the lock. -/
def subscribe (s : SharedFlights K T) (key : K) : SharedFlights K T :=
  match (s.table key).bind fun f => (s.flights f).map fun flight => (f, flight) with
  | some (f, flight) =>
    { s.put f { flight with subscribers := insert s.subscriptions flight.subscribers } with
      subscriptions := s.subscriptions + 1 }
  | none =>
    { flights := Function.update s.flights s.count (some (.new key () s.subscriptions .starting))
      count := s.count + 1
      subscriptions := s.subscriptions + 1
      table := Function.update s.table key (some s.count) }

/-- `_detach`, under the lock. -/
def detach (s : SharedFlights K T) (f : ℕ) (flight : Flight Unit K T) (subscriber : ℕ) :
    SharedFlights K T :=
  if (flight.without subscriber).subscribers.Nonempty ∨ flight.outcome.done then
    s.put f (flight.without subscriber)
  else (s.put f { flight.without subscriber with abandoned := true }).release f flight.key

/-- What a step does; `none` where it cannot be taken. -/
def step (s : SharedFlights K T) : FlightEvent Unit K T → Option (SharedFlights K T)
  | .subscribe _ key => some (s.subscribe key)
  | .start f => do
    let flight ← s.flights f
    if flight.stage = .starting then some (s.put f { flight with stage := .running }) else none
  | .resolve f end_ => do
    let flight ← s.flights f
    if flight.stage = .running then
      some (s.put f { flight with stage := .returned, outcome := .ofRun end_ })
    else none
  | .finish f => do
    let flight ← s.flights f
    if flight.stage = .returned then
      some ((s.put f { flight with stage := .finished }).release f flight.key)
    else none
  | .detach f subscriber => do
    let flight ← s.flights f
    some (s.detach f flight subscriber)
  | .cancelToken f => do
    let flight ← s.flights f
    if flight.abandoned then some (s.put f { flight with tokenCancelled := true }) else none
  | .replace _ => none
  | .cancelOutcome _ => none

/-- The runs of the shared flights. -/
def machine : Machine (SharedFlights K T) (FlightEvent Unit K T) := .ofPartial empty step

/-! ### The invariant -/

/-- A key's flight is the one of its flights that runs and is not abandoned. -/
structure Invariant (s : SharedFlights K T) : Prop where
  fresh : ∀ f, s.count ≤ f → s.flights f = none
  table : ∀ key f, s.table key = some f → ∃ flight, s.flights f = some flight ∧ flight.key = key
  runs : ∀ f flight, s.flights f = some flight →
    (s.table flight.key = some f ↔ flight.stage.inFlight = true ∧ flight.abandoned = false)
  stage : ∀ f flight, s.flights f = some flight →
    flight.stage.inFlight = true ∨ flight.stage = .finished
  ok : ∀ f flight, s.flights f = some flight → flight.Ok
  cancelling : ∀ f flight, s.flights f = some flight → flight.cancelling = false

variable {s : SharedFlights K T}

omit [DecidableEq K] in
theorem invariant_empty : Invariant (empty : SharedFlights K T) where
  fresh _ _ := rfl
  table _ _ h := by cases h
  runs _ _ h := by cases h
  stage _ _ h := by cases h
  ok _ _ h := by cases h
  cancelling _ _ h := by cases h

omit [DecidableEq K] in
theorem Invariant.lt_count (h : Invariant s) {f : ℕ} {flight : Flight Unit K T}
    (hf : s.flights f = some flight) : f < s.count := by
  by_contra hlt
  rw [h.fresh f (by omega)] at hf
  cases hf

/-- **Storing one flight**, with the table's entry for its key. -/
theorem Invariant.store (h : Invariant s) {f count subscriptions : ℕ} {new : Flight Unit K T}
    {entry : Option ℕ} (hcount : s.count ≤ count) (hf : f < count)
    (hkey : ∀ flight, s.flights f = some flight → flight.key = new.key)
    (hself : entry = some f ↔ new.stage.inFlight = true ∧ new.abandoned = false)
    (hother : ∀ f' ≠ f, (entry = some f' ↔ s.table new.key = some f'))
    (hstage : new.stage.inFlight = true ∨ new.stage = .finished) (hok : new.Ok)
    (hcancelling : new.cancelling = false) :
    Invariant ⟨Function.update s.flights f (some new), count, subscriptions,
      Function.update s.table new.key entry⟩ where
  fresh f' hf' := by
    change count ≤ f' at hf'
    simp only [Function.update_apply]
    rw [if_neg (by omega)]
    exact h.fresh f' (by omega)
  table key f' hentry := by
    change Function.update s.table new.key entry key = some f' at hentry
    change ∃ flight, Function.update s.flights f (some new) f' = some flight ∧ flight.key = key
    rw [Function.update_apply] at hentry ⊢
    split_ifs at hentry with hk
    · rcases eq_or_ne f' f with rfl | hne
      · exact ⟨new, if_pos rfl, hk.symm⟩
      · rw [if_neg hne, hk]
        exact h.table new.key f' ((hother f' hne).mp hentry)
    · obtain ⟨flight, hflight, hfk⟩ := h.table key f' hentry
      refine ⟨flight, ?_, hfk⟩
      rw [if_neg, hflight]
      rintro rfl
      exact hk (hfk.symm.trans (hkey flight hflight))
  runs f' flight' hf' := by
    change Function.update s.flights f (some new) f' = some flight' at hf'
    change Function.update s.table new.key entry flight'.key = some f' ↔ _
    rw [Function.update_apply] at hf' ⊢
    split_ifs at hf' with heq
    · obtain rfl := Option.some.inj hf'
      rw [if_pos rfl, heq]
      exact hself
    · rw [← h.runs f' flight' hf']
      split_ifs with hk
      · rw [hother f' heq, hk]
      · rfl
  stage f' flight' hf' := by
    simp only [Function.update_apply] at hf'
    split_ifs at hf'
    · obtain rfl := Option.some.inj hf'
      exact hstage
    · exact h.stage f' flight' hf'
  ok f' flight' hf' := by
    simp only [Function.update_apply] at hf'
    split_ifs at hf'
    · obtain rfl := Option.some.inj hf'
      exact hok
    · exact h.ok f' flight' hf'
  cancelling f' flight' hf' := by
    simp only [Function.update_apply] at hf'
    split_ifs at hf'
    · obtain rfl := Option.some.inj hf'
      exact hcancelling
    · exact h.cancelling f' flight' hf'

/-- A step that leaves a flight in the table or out of it. -/
theorem Invariant.put (h : Invariant s) {f : ℕ} {flight new : Flight Unit K T} (subscriptions : ℕ)
    (hf : s.flights f = some flight) (hkey : new.key = flight.key)
    (hruns : new.stage.inFlight = true ∧ new.abandoned = false ↔
      flight.stage.inFlight = true ∧ flight.abandoned = false)
    (hstage : new.stage.inFlight = true ∨ new.stage = .finished) (hok : new.Ok)
    (hcancelling : new.cancelling = false) :
    Invariant { s.put f new with subscriptions := subscriptions } := by
  have hstored := @Invariant.store _ _ _ _ h f _ subscriptions new (s.table new.key) le_rfl
    (h.lt_count hf) (fun old hold => by rw [Option.some.inj (hold.symm.trans hf), hkey])
    (by rw [hkey, hruns]; exact h.runs f flight hf) (fun _ _ => Iff.rfl) hstage hok hcancelling
  rwa [Function.update_eq_self] at hstored

/-- A step that takes a flight out of the table, if it is there. -/
theorem Invariant.release (h : Invariant s) {f : ℕ} {flight new : Flight Unit K T}
    (hf : s.flights f = some flight) (hkey : new.key = flight.key)
    (hruns : ¬(new.stage.inFlight = true ∧ new.abandoned = false))
    (hstage : new.stage.inFlight = true ∨ new.stage = .finished) (hok : new.Ok)
    (hcancelling : new.cancelling = false) : Invariant ((s.put f new).release f flight.key) := by
  have hstored :=
    fun entry hself hother => @Invariant.store _ _ _ _ h f _ s.subscriptions new entry le_rfl
    (h.lt_count hf) (fun old hold => by rw [Option.some.inj (hold.symm.trans hf), hkey])
      hself hother
    hstage hok hcancelling
  unfold SharedFlights.release
  by_cases hentry : s.table flight.key = some f
  · rw [if_pos (by exact hentry), ← hkey]
    refine hstored none (by simp [hruns]) fun f' hne => ?_
    rw [hkey, hentry]
    simp [Ne.symm hne]
  · rw [if_neg (by exact hentry)]
    have hkept := hstored (s.table new.key) (by simp [hkey, hentry, hruns]) fun _ _ => Iff.rfl
    rwa [Function.update_eq_self] at hkept

omit [DecidableEq K] in
/-- A step of one flight, where the flight is at the stage for it. -/
private theorem guarded_eq_some {flight? : Option (Flight Unit K T)} {p : Flight Unit K T → Prop}
    [DecidablePred p] {g : Flight Unit K T → SharedFlights K T} {t : SharedFlights K T} :
    (do let flight ← flight?; if p flight then some (g flight) else none) = some t ↔
      ∃ flight, flight? = some flight ∧ p flight ∧ t = g flight := by
  rcases flight? with _ | flight
  · simp
  · by_cases hp : p flight <;> simp [hp, eq_comm]

omit [DecidableEq K] in
/-- A flight that is not abandoned has no flag set. -/
theorem Invariant.no_flags (h : Invariant s) {f : ℕ} {flight : Flight Unit K T}
    (hf : s.flights f = some flight) (hab : flight.abandoned = false) :
    ¬(flight.cancelling ∨ flight.abandoned ∨ flight.tokenCancelled) := by
  have htoken := (h.ok f flight hf).token
  rw [hab] at htoken
  simpa [h.cancelling f flight hf, hab] using htoken

omit [DecidableEq K] in
/-- A pending flight is in flight. -/
theorem Invariant.inFlight_of_pending (h : Invariant s) {f : ℕ} {flight : Flight Unit K T}
    (hf : s.flights f = some flight) (hpending : flight.outcome.done = false) :
    flight.stage.inFlight = true := by
  rcases h.stage f flight hf with hstage | hstage
  · exact hstage
  · rcases (h.ok f flight hf).stage_of_pending hpending with h | h | h | h | h <;>
      rw [h] at hstage <;>
      cases hstage

/-- **Every step keeps the invariant, and every flight follows on.** -/
theorem Invariant.step {t : SharedFlights K T} {e : FlightEvent Unit K T} (h : Invariant s)
    (hstep : s.step e = some t) : Invariant t ∧ Carries s.flights t.flights := by
  rcases e with ⟨group, key⟩ | f | ⟨f, end_⟩ | f | f | ⟨f, subscriber⟩ | f | f
  case subscribe =>
    obtain rfl := Option.some.inj hstep
    unfold subscribe
    -- a key that is in the table has a flight to join
    rcases htable : s.table key with _ | f
    · -- a new flight
      have hfresh := h.fresh s.count le_rfl
      refine ⟨@Invariant.store _ _ _ _ h s.count _ _ (.new key () s.subscriptions .starting) _
        (Nat.le_succ _) (Nat.lt_succ_self _) (fun flight hf => by rw [hfresh] at hf; cases hf)
        (by simp [Flight.new, Stage.inFlight]) (fun f' hne => ?_) (.inl rfl)
        (Flight.ok_new _ _ _ (.inl rfl)) rfl, Carries.update fun flight hf => by
          rw [hfresh] at hf; cases hf⟩
      simp [Flight.new, htable, Ne.symm hne]
    · obtain ⟨flight, hf, rfl⟩ := h.table key f htable
      obtain ⟨hflight, hab⟩ := (h.runs f flight hf).mp htable
      have hflags := h.no_flags hf hab
      simp only [Option.bind_some, hf, Option.map_some]
      refine ⟨h.put _ hf rfl Iff.rfl (h.stage f flight hf)
        ((h.ok f flight hf).join _ hflags (.inl hflight)) (h.cancelling f flight hf),
        Carries.update fun flight' hf' => ?_⟩
      obtain rfl := Option.some.inj (hf.symm.trans hf')
      refine .of_subscribers id id id fun hc => ?_
      rcases hc with hc | hc | hc | hc | hc
      · exact absurd (.inl hc) hflags
      · exact absurd (.inr (.inl hc)) hflags
      · exact absurd (.inr (.inr hc)) hflags
      · rw [hc] at hflight
        cases hflight
      · rw [hc] at hflight
        cases hflight
  case start =>
    obtain ⟨flight, hf, hstage, rfl⟩ := guarded_eq_some.mp hstep
    refine ⟨h.put _ hf rfl (by simp [hstage, Stage.inFlight]) (.inl rfl)
      ((h.ok f flight hf).start hstage) (h.cancelling f flight hf),
        Carries.update fun flight' hf' => ?_⟩
    obtain rfl := Option.some.inj (hf.symm.trans hf')
    exact .of_stage (fun _ => rfl) (by simp [hstage]) (by simp [hstage]) (by simp [hstage])
  case resolve =>
    obtain ⟨flight, hf, hstage, rfl⟩ := guarded_eq_some.mp hstep
    refine ⟨h.put _ hf rfl (by simp [hstage, Stage.inFlight]) (.inl rfl)
      ((h.ok f flight hf).resolve end_) (h.cancelling f flight hf),
        Carries.update fun flight' hf' => ?_⟩
    obtain rfl := Option.some.inj (hf.symm.trans hf')
    have hpending := (h.ok f flight hf).outcome
    rw [hstage] at hpending
    exact .of_stage (fun hdone => by rw [hpending] at hdone; cases hdone) (by simp [hstage])
      (by simp [hstage]) (by simp [hstage])
  case finish =>
    obtain ⟨flight, hf, hstage, rfl⟩ := guarded_eq_some.mp hstep
    refine ⟨h.release hf rfl (by simp [Stage.inFlight]) (.inr rfl)
      ((h.ok f flight hf).finish hstage)
      (h.cancelling f flight hf), ?_⟩
    have hcarries : Carries s.flights (s.put f { flight with stage := .finished }).flights := by
      refine Carries.update fun flight' hf' => ?_
      obtain rfl := Option.some.inj (hf.symm.trans hf')
      exact .of_stage (fun _ => rfl) (by simp [hstage]) (by simp [hstage]) (by simp [hstage])
    unfold SharedFlights.release
    split_ifs <;> exact hcarries
  case detach =>
    obtain ⟨flight, hf, hstep⟩ := Option.bind_eq_some_iff.mp hstep
    obtain rfl := Option.some.inj hstep
    have hok := h.ok f flight hf
    have hnotWaiting : flight.stage ≠ .waiting := by
      intro hw
      rcases h.stage f flight hf with hs | hs <;> rw [hw] at hs <;> cases hs
    have hfollows (abandoned : Bool) (ha : flight.abandoned → abandoned) :
        flight.Follows { flight.without subscriber with abandoned := abandoned } :=
      .of_subscribers id ha id fun _ => Finset.erase_subset _ _
    unfold detach
    -- the last to leave a pending flight abandons it
    split_ifs with hstays
    · refine ⟨h.put _ hf rfl Iff.rfl (h.stage f flight hf)
        (hok.leave _ fun hw => absurd hw hnotWaiting) (h.cancelling f flight hf),
        Carries.update fun flight' hf' => ?_⟩
      obtain rfl := Option.some.inj (hf.symm.trans hf')
      exact hfollows flight.abandoned id
    · simp only [not_or, Bool.not_eq_true, Finset.not_nonempty_iff_eq_empty] at hstays
      have hflight := h.inFlight_of_pending hf hstays.2
      refine ⟨h.release hf rfl (by simp) (.inl hflight) ?_ (h.cancelling f flight hf), ?_⟩
      · have habandoned := hok.abandon hflight hstays.1 flight.cancelling
        exact habandoned
      · have hcarries : Carries s.flights
            (s.put f { flight.without subscriber with abandoned := true }).flights := by
          refine Carries.update fun flight' hf' => ?_
          obtain rfl := Option.some.inj (hf.symm.trans hf')
          exact hfollows true fun _ => rfl
        unfold SharedFlights.release
        split_ifs <;> exact hcarries
  case cancelToken =>
    obtain ⟨flight, hf, hab, rfl⟩ := guarded_eq_some.mp hstep
    refine ⟨h.put _ hf rfl Iff.rfl (h.stage f flight hf) ((h.ok f flight hf).cancelToken hab)
      (h.cancelling f flight hf), Carries.update fun flight' hf' => ?_⟩
    obtain rfl := Option.some.inj (hf.symm.trans hf')
    exact .of_subscribers id id (fun _ => rfl) fun _ => Finset.Subset.refl _
  case replace => cases hstep
  case cancelOutcome => cases hstep

theorem Invariant.of_reachable (h : machine.Reachable s) : Invariant s :=
  h.invariant (fun _ hs => hs ▸ invariant_empty) fun _ _ _ hs hstep => (hs.step hstep).1

end SharedFlights

end Haute
