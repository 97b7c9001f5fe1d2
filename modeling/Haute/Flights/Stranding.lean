import Haute.Flights.Shared

/-!
# No subscriber is stranded

Both owners, over whole runs: a flight with subscribers is one its owner still has, or has
an outcome, or is about to be failed by the request that took its slot; what is cancelled
has no subscribers and gets none.

A group of the queue has one flight at a time. A key of the shared flights has one flight
that is not abandoned, and that is all: an abandoned run winds down beside the one a later
request starts (`two_runs_for_one_key`).
-/

namespace Haute

variable {G K T : Type} [DecidableEq G] [DecidableEq K]

namespace LatestWins

variable {q : LatestWins G K T}

omit [DecidableEq K] in
private theorem carries_finish (h : Invariant q) {f : ℕ} {flight : Flight G K T}
    (hf : q.flights f = some flight) (hstage : flight.stage = .returned) :
    Carries q.flights (q.finish f flight).flights := by
  have hfinished : flight.Follows { flight with stage := .finished } :=
    .of_stage (fun _ => rfl) (by simp [hstage]) (by simp [hstage]) (by simp [hstage])
  have hput : Carries q.flights (q.put f { flight with stage := .finished }).flights :=
    Carries.update fun flight' hf' => Option.some.inj (hf.symm.trans hf') ▸ hfinished
  unfold finish
  rcases hw : (q.lanes flight.group).bind Lane.waiting with _ | w
  · exact hput
  · obtain ⟨next, hnext, hg⟩ := (h.lane flight.group).held w (.inr hw)
    have hwaits := ((h.lane flight.group).waits w next hnext hg).mpr hw
    have hne : w ≠ f := by
      rintro rfl
      rw [Option.some.inj (hnext.symm.trans hf), hstage] at hwaits
      cases hwaits
    have hread : (q.put f { flight with stage := .finished }).flights w = some next := by
      simp [LatestWins.put, hne, hnext]
    simp only [Option.bind_some, hread, Option.map_some]
    intro f' flight' hf'
    simp only [setLane, LatestWins.put, Function.update_apply]
    split_ifs with h1 h2
    · obtain rfl := Option.some.inj (hnext.symm.trans (h1 ▸ hf'))
      exact ⟨_, rfl, .of_stage (fun _ => rfl) (by simp [hwaits]) (by simp) (by simp [hwaits])⟩
    · obtain rfl := Option.some.inj (hf.symm.trans (h2 ▸ hf'))
      exact ⟨_, rfl, hfinished⟩
    · exact ⟨flight', hf', .refl flight'⟩

private theorem carries_subscribe (h : Invariant q) (group : G) (key : K) :
    Carries q.flights (q.subscribe group key).flights := by
  have hfresh := h.fresh q.count le_rfl
  have hl := h.lane group
  unfold subscribe
  rcases hj : ({ q with subscriptions := q.subscriptions + 1 } : LatestWins G K T).joined
      ((q.lanes group).getD ⟨none, none⟩) key with _ | ⟨f, flight⟩
  · simp only [hj]
    have hnew (stage : Stage) : Carries q.flights
        (Function.update q.flights q.count (some (.new key group (q.subscriptions + 1) stage))) :=
      Carries.update fun flight hf => by rw [hfresh] at hf; cases hf
    rcases hlane : q.lanes group with _ | ⟨running, waiting⟩
    · simpa [LatestWins.put, setLane] using hnew .starting
    · rw [hlane] at hl
      obtain ⟨r, rfl⟩ := Option.isSome_iff_exists.mp (hl.running _ rfl)
      rcases waiting with _ | w
      · simpa [LatestWins.put, setLane] using hnew .waiting
      · -- the one that waits loses the slot to the new flight
        obtain ⟨flight, hf, rfl⟩ := hl.held w (.inr rfl)
        have hstage := (hl.waits w flight hf rfl).mpr rfl
        simp only [Option.getD_some, Option.bind_some, hf, Option.map_some]
        intro f' flight' hf'
        simp only [setLane, LatestWins.put, Function.update_apply]
        split_ifs with h1 h2
        · rw [h1, hfresh] at hf'
          cases hf'
        · obtain rfl := Option.some.inj (hf.symm.trans (h2 ▸ hf'))
          exact ⟨_, rfl, .of_stage (fun _ => rfl) (by simp [hstage]) (by simp) (by simp [hstage])⟩
        · exact ⟨flight', hf', .refl flight'⟩
  · simp only [hj]
    obtain ⟨hf, -, hlane⟩ := joined_eq_some hj
    change q.flights f = some flight at hf
    refine Carries.update fun flight' hf' => ?_
    obtain rfl := Option.some.inj (hf.symm.trans hf')
    refine .of_subscribers id id id fun hc => ?_
    -- the flight joined is not cancelled
    exfalso
    have hok := h.ok f flight hf
    have hplace : flight.cancelling = false ∧ flight.stage.inFlight = true ∨
        flight.stage = .waiting := by
      rcases hsome : q.lanes group with _ | lane
      · simp [hsome] at hlane
      rw [hsome] at hl
      simp only [hsome, Option.getD_some] at hlane
      obtain ⟨old, hold, hg⟩ := hl.held f (hlane.imp (fun h => h.1) id)
      rw [Option.some.inj (hold.symm.trans hf)] at hg
      exact hlane.imp (fun hrun => ⟨hrun.2, (hl.inFlight f flight hf hg).mpr hrun.1⟩)
        (hl.waits f flight hf hg).mpr
    have hab := h.abandoned f flight hf
    rcases hplace with ⟨hcancelling, hflight⟩ | hwaits
    · rcases hc with hc | hc | hc | hc | hc
      · simp [hcancelling] at hc
      · simp [hcancelling] at hab; simp [hab] at hc
      · have := hab (hok.token hc); simp [hcancelling] at this
      · simp [hc, Stage.inFlight] at hflight
      · simp [hc, Stage.inFlight] at hflight
    · have hnone := hok.waiting hwaits
      rw [hok.subscribers_of_cancelled hc] at hnone
      exact Finset.not_nonempty_empty hnone

/-- **Every flight follows on.** -/
theorem Invariant.carries {cancelAbandoned : Bool} {t : LatestWins G K T} {e : FlightEvent G K T}
    (h : Invariant q) (hstep : q.step cancelAbandoned e = some t) :
    Carries q.flights t.flights := by
  rcases e with ⟨group, key⟩ | f | ⟨f, end_⟩ | f | f | ⟨f, subscriber⟩ | f | f
  case subscribe =>
    obtain rfl := Option.some.inj hstep
    exact carries_subscribe h group key
  case detach =>
    obtain ⟨flight, hf, hstep⟩ := Option.bind_eq_some_iff.mp hstep
    obtain rfl := Option.some.inj hstep
    have hleave : Carries q.flights (q.put f (flight.without subscriber)).flights := by
      refine Carries.update fun flight' hf' => ?_
      obtain rfl := Option.some.inj (hf.symm.trans hf')
      exact .of_subscribers id id id fun _ => Finset.erase_subset _ _
    unfold LatestWins.detach
    rcases hlane : q.lanes flight.group with _ | lane
    · exact hleave
    simp only
    -- the last to leave drops a waiting flight and abandons a running one
    split_ifs with hnonempty hwaiting hrunning
    · exact hleave
    · refine Carries.update fun flight' hf' => ?_
      obtain rfl := Option.some.inj (hf.symm.trans hf')
      have hwaits :=
        ((h.lane flight.group).waits f flight hf rfl).mpr (by rw [hlane]; exact hwaiting)
      refine ⟨rfl, rfl, fun _ => rfl, fun hc => ?_, fun _ => .inr (.inr (.inr rfl)), fun hr => ?_⟩
      · exact ⟨.inr (.inr (.inr (.inl rfl))), Finset.erase_subset _ _⟩
      · rw [hwaits] at hr
        cases hr
    · refine Carries.update fun flight' hf' => ?_
      obtain rfl := Option.some.inj (hf.symm.trans hf')
      exact .of_subscribers (fun _ => rfl) (fun _ => rfl) id fun _ => Finset.erase_subset _ _
    · exact hleave
  case finish =>
    obtain ⟨flight, hf, hstage, rfl⟩ := guarded_eq_some.mp hstep
    exact carries_finish h hf hstage
  case start =>
    obtain ⟨flight, hf, hstage, rfl⟩ := guarded_eq_some.mp hstep
    refine Carries.update fun flight' hf' => ?_
    obtain rfl := Option.some.inj (hf.symm.trans hf')
    exact .of_stage (fun _ => rfl) (by simp [hstage]) (by simp [hstage]) (by simp [hstage])
  case resolve =>
    obtain ⟨flight, hf, hstage, rfl⟩ := guarded_eq_some.mp hstep
    refine Carries.update fun flight' hf' => ?_
    obtain rfl := Option.some.inj (hf.symm.trans hf')
    have hpending := (h.ok f flight hf).outcome
    rw [hstage] at hpending
    exact .of_stage (fun hdone => by rw [hpending] at hdone; cases hdone) (by simp [hstage])
      (by simp [hstage]) (by simp [hstage])
  case replace =>
    obtain ⟨flight, hf, hstage, rfl⟩ := guarded_eq_some.mp hstep
    refine Carries.update fun flight' hf' => ?_
    obtain rfl := Option.some.inj (hf.symm.trans hf')
    have hpending := (h.ok f flight hf).outcome
    rw [hstage] at hpending
    exact .of_stage (fun hdone => by rw [hpending] at hdone; cases hdone) (by simp [hstage])
      (by simp [hstage]) (fun _ => rfl)
  case cancelToken =>
    obtain ⟨flight, hf, hab, rfl⟩ := guarded_eq_some.mp hstep
    refine Carries.update fun flight' hf' => ?_
    obtain rfl := Option.some.inj (hf.symm.trans hf')
    exact .of_subscribers id id (fun _ => rfl) fun _ => Finset.Subset.refl _
  case cancelOutcome =>
    obtain ⟨flight, hf, hstage, rfl⟩ := guarded_eq_some.mp hstep
    refine Carries.update fun flight' hf' => ?_
    obtain rfl := Option.some.inj (hf.symm.trans hf')
    have hpending := (h.ok f flight hf).outcome
    rw [hstage] at hpending
    exact .of_stage (fun hdone => by rw [hpending] at hdone; cases hdone) (fun _ => .inr rfl)
      (by simp [hstage]) (by simp [hstage])

end LatestWins

/-- **Shared flights never strand a subscriber.** In every reachable state of the
latest-wins queue, whether or not it cancels abandoned runs: a group has at most one flight
whose run is not over; a flight with subscribers is its lane's running or waiting flight,
or has an outcome, or has lost its slot to a newer request, which is then about to fail it;
a replaced flight ends as replaced; a flight whose outcome is cancelled, or is to be, has no
subscribers; and no step takes a flight elsewhere or adds a subscriber to a cancelled one.
In every reachable state of the shared flights: a key has at most one flight whose run is
not over and which is not abandoned; a flight with subscribers is that one, or has an
outcome; what is abandoned or cancelled has no subscribers and gets none. -/
theorem flights_never_strand :
    (∀ (cancelAbandoned : Bool) (q : LatestWins G K T),
      (LatestWins.machine cancelAbandoned).Reachable q →
      (∀ f f' flight flight', q.flights f = some flight → q.flights f' = some flight' →
        flight.group = flight'.group → flight.stage.inFlight = true →
          flight'.stage.inFlight = true →
        f = f') ∧
      (∀ f flight, q.flights f = some flight → flight.subscribers.Nonempty →
        (q.lanes flight.group).bind Lane.running = some f ∨
          (q.lanes flight.group).bind Lane.waiting = some f ∨ flight.outcome.done = true ∨
          flight.stage = .replacing ∧ ∃ t, q.step cancelAbandoned (.replace f) = some t ∧
            ∀ flight', t.flights f = some flight' → flight'.outcome =
              .exception (.replaced flight.key)) ∧
      (∀ f flight, q.flights f = some flight → flight.outcome = .cancelled ∨ flight.Cancelled →
        flight.subscribers = ∅) ∧
      ∀ e t, q.step cancelAbandoned e = some t → Carries q.flights t.flights) ∧
    ∀ s : SharedFlights K T, SharedFlights.machine.Reachable s →
      (∀ f f' flight flight', s.flights f = some flight → s.flights f' = some flight' →
        flight.key = flight'.key → flight.stage.inFlight = true → flight'.stage.inFlight = true →
        flight.abandoned = false → flight'.abandoned = false → f = f') ∧
      (∀ f flight, s.flights f = some flight → flight.subscribers.Nonempty →
        s.table flight.key = some f ∨ flight.outcome.done = true) ∧
      (∀ f flight, s.flights f = some flight → flight.outcome = .cancelled ∨ flight.Cancelled →
        flight.subscribers = ∅) ∧
      ∀ e t, s.step e = some t → Carries s.flights t.flights := by
  refine ⟨fun cancelAbandoned q hq => ?_, fun s hs => ?_⟩
  · have h := LatestWins.Invariant.of_reachable hq
    refine ⟨fun f f' flight flight' hf hf' hg hrun hrun' => ?_, fun f flight hf hsub => ?_,
      fun f flight hf hc => ?_, fun e t hstep => h.carries hstep⟩
    · have h1 := ((h.lane flight.group).inFlight f flight hf rfl).mp hrun
      have h2 := ((h.lane flight.group).inFlight f' flight' hf' hg.symm).mp hrun'
      exact Option.some.inj (h1.symm.trans h2)
    · have hok := h.ok f flight hf
      -- a pending flight runs, waits, or is about to fail as replaced
      by_cases hdone : flight.outcome.done = true
      · exact .inr (.inr (.inl hdone))
      rcases hok.stage_of_pending (by simpa using hdone) with hs | hs | hs | hs | hs
      · exact .inl (((h.lane flight.group).inFlight f flight hf rfl).mp (by rw [hs]; rfl))
      · exact .inl (((h.lane flight.group).inFlight f flight hf rfl).mp (by rw [hs]; rfl))
      · exact .inr (.inl (((h.lane flight.group).waits f flight hf rfl).mp hs))
      · refine .inr (.inr (.inr ⟨hs, _, LatestWins.guarded_eq_some.mpr ⟨flight, hf, hs, rfl⟩,
          fun flight' hf' => ?_⟩))
        have hread : some flight' = some _ := hf'.symm.trans (Function.update_self ..)
        rw [Option.some.inj hread]
      · rw [hok.dropped (.inl hs)] at hsub
        exact absurd hsub Finset.not_nonempty_empty
    · rcases hc with hc | hc
      · exact (h.ok f flight hf).dropped (.inr ((h.ok f flight hf).dropped_of_outcome hc))
      · exact (h.ok f flight hf).subscribers_of_cancelled hc
  · have h := SharedFlights.Invariant.of_reachable hs
    refine ⟨fun f f' flight flight' hf hf' hk hrun hrun' hab hab' => ?_, fun f flight hf hsub => ?_,
      fun f flight hf hc => ?_, fun e t hstep => (h.step hstep).2⟩
    · have h1 := (h.runs f flight hf).mpr ⟨hrun, hab⟩
      have h2 := (h.runs f' flight' hf').mpr ⟨hrun', hab'⟩
      rw [hk] at h1
      exact Option.some.inj (h1.symm.trans h2)
    · by_cases hdone : flight.outcome.done = true
      · exact .inr hdone
      · have hpending : flight.outcome.done = false := by simpa using hdone
        refine .inl ((h.runs f flight hf).mpr ⟨h.inFlight_of_pending hf hpending, ?_⟩)
        by_contra hab
        rw [(h.ok f flight hf).subscribers_of_cancelled (.inr (.inl (by simpa using hab)))] at hsub
        exact Finset.not_nonempty_empty hsub
    · rcases hc with hc | hc
      · exact (h.ok f flight hf).dropped (.inr ((h.ok f flight hf).dropped_of_outcome hc))
      · exact (h.ok f flight hf).subscribers_of_cancelled hc

/-- A request for a key starts a run while the abandoned run for the same key, its token
cancelled, has not returned. -/
theorem two_runs_for_one_key :
    ∃ s : SharedFlights String ℕ, SharedFlights.machine.Reachable s ∧
      ((s.flights 0).map fun flight => (flight.key, flight.stage)) = some ("choices", .running) ∧
      ((s.flights 1).map fun flight => (flight.key, flight.stage)) = some ("choices", .running) :=
  ⟨_, ⟨[.subscribe () "choices", .start 0, .detach 0 0, .cancelToken 0, .subscribe () "choices",
    .start 1], Machine.run_ofPartial_iff.mpr rfl⟩, rfl, rfl⟩

end Haute
