import Haute.Flights.Flight

/-!
# The latest-wins queue

`LatestWinsQueue` runs at most one flight per group and keeps one waiting slot beside it. A
request joins the flight that runs or waits for its key, else it takes the empty lane or
the slot, failing the waiter it takes it from. `LatestWins.step` is the queue under any
interleaving of its callers: `subscribe`, `finish` and `detach` are the sections under the
lock, the other events what the threads do outside it.
-/

namespace Haute

/-- `_Lane`. -/
structure Lane where
  running : Option ℕ
  waiting : Option ℕ

/-- The queue, and every flight it has ever made, by number. -/
structure LatestWins (G K T : Type) where
  flights : ℕ → Option (Flight G K T)
  /-- How many flights have been made. -/
  count : ℕ
  /-- How many subscriptions have been made. -/
  subscriptions : ℕ
  /-- `_lanes`. -/
  lanes : G → Option Lane

/-- One atomic step of some thread. -/
inductive FlightEvent (G K T : Type) where
  /-- The lock section of `subscribe`. -/
  | subscribe (group : G) (key : K)
  /-- `start`: the thread is started. -/
  | start (flight : ℕ)
  /-- The run returns or raises, and its outcome is set. -/
  | resolve (flight : ℕ) (end_ : Except PyError T)
  /-- `_finished`. -/
  | finish (flight : ℕ)
  /-- `replaced.outcome.set_exception`. -/
  | replace (flight : ℕ)
  /-- The lock section of `_detach`. -/
  | detach (flight subscriber : ℕ)
  /-- `flight.token.cancel`. -/
  | cancelToken (flight : ℕ)
  /-- `flight.outcome.cancel`. -/
  | cancelOutcome (flight : ℕ)

namespace LatestWins

variable {G K T : Type}

/-- An empty queue. -/
def empty : LatestWins G K T := ⟨fun _ => none, 0, 0, fun _ => none⟩

/-- Store a flight under its number. -/
def put (q : LatestWins G K T) (f : ℕ) (flight : Flight G K T) : LatestWins G K T :=
  { q with flights := Function.update q.flights f (some flight) }

variable [DecidableEq G]

/-- Set or delete a group's lane. -/
def setLane (q : LatestWins G K T) (group : G) (lane : Option Lane) : LatestWins G K T :=
  { q with lanes := Function.update q.lanes group lane }

section Requests

variable [DecidableEq K]

/-- The flight a request joins: the running one unless it is being cancelled, else the
waiting one. -/
def joined (q : LatestWins G K T) (lane : Lane) (key : K) : Option (ℕ × Flight G K T) :=
  let running := do
    let r ← lane.running
    let flight ← q.flights r
    if flight.key = key ∧ flight.cancelling = false then some (r, flight) else none
  let waiting := do
    let w ← lane.waiting
    let flight ← q.flights w
    if flight.key = key then some (w, flight) else none
  running.or waiting

/-- `subscribe`, under the lock. -/
def subscribe (q : LatestWins G K T) (group : G) (key : K) : LatestWins G K T :=
  let lane := (q.lanes group).getD ⟨none, none⟩
  let q := { q with subscriptions := q.subscriptions + 1 }
  match q.joined lane key with
  | some (f, flight) =>
    -- the lane is there: the flight is in it
    q.put f { flight with subscribers := insert q.subscriptions flight.subscribers }
  | none =>
    let f := q.count
    let q := { q with count := q.count + 1 }
    match lane.running with
    | none => (q.put f (.new key group q.subscriptions .starting)).setLane group
      (some ⟨some f, lane.waiting⟩)
    | some r =>
      let q := match lane.waiting.bind fun w => (q.flights w).map fun flight => (w, flight) with
        | none => q
        | some (w, flight) => q.put w { flight with stage := .replacing }
      (q.put f (.new key group q.subscriptions .waiting)).setLane group (some ⟨some r, some f⟩)

end Requests

/-- `_finished`, under the lock: the waiting flight, if there is one, takes the lane. -/
def finish (q : LatestWins G K T) (f : ℕ) (flight : Flight G K T) : LatestWins G K T :=
  let waiting := (q.lanes flight.group).bind Lane.waiting
  let q := q.put f { flight with stage := .finished }
  match waiting.bind fun w => (q.flights w).map fun next => (w, next) with
  | none => q.setLane flight.group none
  | some (w, next) =>
    (q.put w { next with stage := .starting }).setLane flight.group (some ⟨some w, none⟩)

/-- `_detach`, under the lock. -/
def detach (cancelAbandoned : Bool) (q : LatestWins G K T) (f : ℕ) (flight : Flight G K T)
    (subscriber : ℕ) : LatestWins G K T :=
  match q.lanes flight.group with
  | none => q.put f (flight.without subscriber)
  | some lane =>
    if (flight.without subscriber).subscribers.Nonempty then q.put f (flight.without subscriber)
    else if lane.waiting = some f then
      (q.put f { flight.without subscriber with stage := .dropping }).setLane flight.group
        (some ⟨lane.running, none⟩)
    else if cancelAbandoned ∧ lane.running = some f ∧ flight.outcome.done = false then
      q.put f { flight.without subscriber with cancelling := true, abandoned := true }
    else q.put f (flight.without subscriber)

/-- What a step does; `none` where it cannot be taken. -/
def step [DecidableEq K] (cancelAbandoned : Bool) (q : LatestWins G K T) :
    FlightEvent G K T → Option (LatestWins G K T)
  | .subscribe group key => some (q.subscribe group key)
  | .start f => do
    let flight ← q.flights f
    if flight.stage = .starting then some (q.put f { flight with stage := .running }) else none
  | .resolve f end_ => do
    let flight ← q.flights f
    if flight.stage = .running then
      some (q.put f { flight with stage := .returned, outcome := .ofRun end_ })
    else none
  | .finish f => do
    let flight ← q.flights f
    if flight.stage = .returned then some (q.finish f flight) else none
  | .replace f => do
    let flight ← q.flights f
    if flight.stage = .replacing then
      some (q.put f
        { flight with stage := .replaced, outcome := .exception (.replaced flight.key) })
    else none
  | .detach f subscriber => do
    let flight ← q.flights f
    some (q.detach cancelAbandoned f flight subscriber)
  | .cancelToken f => do
    let flight ← q.flights f
    if flight.abandoned then some (q.put f { flight with tokenCancelled := true }) else none
  | .cancelOutcome f => do
    let flight ← q.flights f
    if flight.stage = .dropping then
      some (q.put f { flight with stage := .dropped, outcome := .cancelled })
    else none

/-- The runs of the queue. -/
def machine [DecidableEq K] (cancelAbandoned : Bool) :
    Machine (LatestWins G K T) (FlightEvent G K T) :=
  .ofPartial empty (step cancelAbandoned)

/-! ### The invariant -/

/-- A group's lane and the flights of the group: the running flight is the one that is in
flight, and the waiting flight the one that waits. -/
structure LaneOk (flights : ℕ → Option (Flight G K T)) (group : G) (lane : Option Lane) : Prop where
  running : ∀ l, lane = some l → l.running.isSome = true
  held : ∀ f, lane.bind Lane.running = some f ∨ lane.bind Lane.waiting = some f →
    ∃ flight, flights f = some flight ∧ flight.group = group
  inFlight : ∀ f flight, flights f = some flight → flight.group = group →
    (flight.stage.inFlight = true ↔ lane.bind Lane.running = some f)
  waits : ∀ f flight, flights f = some flight → flight.group = group →
    (flight.stage = .waiting ↔ lane.bind Lane.waiting = some f)

/-- Every lane is its group's, and every flight is what its stage says. -/
structure Invariant (q : LatestWins G K T) : Prop where
  fresh : ∀ f, q.count ≤ f → q.flights f = none
  lane : ∀ group, LaneOk q.flights group (q.lanes group)
  ok : ∀ f flight, q.flights f = some flight → flight.Ok
  /-- Only a running flight is abandoned here, and it is marked. -/
  abandoned : ∀ f flight, q.flights f = some flight → flight.abandoned → flight.cancelling

variable {q : LatestWins G K T}

omit [DecidableEq G] in
theorem invariant_empty : Invariant (empty : LatestWins G K T) where
  fresh _ _ := rfl
  lane _ := {
    running := fun _ h => by cases h
    held := fun _ h => by simp [empty] at h
    inFlight := fun _ _ h => by cases h
    waits := fun _ _ h => by cases h }
  ok _ _ h := by cases h
  abandoned _ _ h := by cases h

/-- **Storing one flight.** The lane of its group has to fit the flights of the group; the
other groups do not see it. -/
theorem Invariant.store (h : Invariant q) {f count subscriptions : ℕ} {new : Flight G K T}
    {lane : Option Lane} (hcount : q.count ≤ count) (hf : f < count)
    (hgroup : ∀ flight, q.flights f = some flight → flight.group = new.group)
    (hlane : LaneOk (Function.update q.flights f (some new)) new.group lane) (hok : new.Ok)
    (habandoned : new.abandoned → new.cancelling) :
    Invariant ⟨Function.update q.flights f (some new), count, subscriptions,
      Function.update q.lanes new.group lane⟩ where
  fresh f' hf' := by
    change count ≤ f' at hf'
    simp only [Function.update_apply]
    rw [if_neg (by omega)]
    exact h.fresh f' (by omega)
  lane group := by
    change LaneOk _ group (Function.update q.lanes new.group lane group)
    rw [Function.update_apply]
    split_ifs with hg
    · exact hg ▸ hlane
    · -- the flights of another group are those they were
      have hsame : ∀ f' flight', Function.update q.flights f (some new) f' = some flight' →
          flight'.group = group → q.flights f' = some flight' := by
        intro f' flight' hf' hg'
        rw [Function.update_apply] at hf'
        split_ifs at hf' with heq
        · obtain rfl := Option.some.inj hf'
          exact absurd hg'.symm hg
        · exact hf'
      refine ⟨(h.lane group).running, fun f' hf' => ?_, fun f' flight' hf' hg' =>
        (h.lane group).inFlight f' flight' (hsame f' flight' hf' hg') hg', fun f' flight' hf' hg' =>
        (h.lane group).waits f' flight' (hsame f' flight' hf' hg') hg'⟩
      obtain ⟨flight', hflight', hg'⟩ := (h.lane group).held f' hf'
      refine ⟨flight', ?_, hg'⟩
      change Function.update q.flights f (some new) f' = some flight'
      rw [Function.update_apply, if_neg]
      · exact hflight'
      · rintro rfl
        exact hg (hg'.symm.trans (hgroup flight' hflight'))
  ok f' flight' hf' := by
    simp only [Function.update_apply] at hf'
    split_ifs at hf'
    · obtain rfl := Option.some.inj hf'
      exact hok
    · exact h.ok f' flight' hf'
  abandoned f' flight' hf' := by
    simp only [Function.update_apply] at hf'
    split_ifs at hf'
    · obtain rfl := Option.some.inj hf'
      exact habandoned
    · exact h.abandoned f' flight' hf'

omit [DecidableEq G] in
theorem Invariant.lt_count (h : Invariant q) {f : ℕ} {flight : Flight G K T}
    (hf : q.flights f = some flight) : f < q.count := by
  by_contra hlt
  rw [h.fresh f (by omega)] at hf
  cases hf

/-- A step that leaves a flight where its lane has it. -/
theorem Invariant.put (h : Invariant q) {f : ℕ} {flight new : Flight G K T}
    (hf : q.flights f = some flight) (hgroup : new.group = flight.group)
    (hflight : new.stage.inFlight = flight.stage.inFlight)
    (hwaiting : new.stage = .waiting ↔ flight.stage = .waiting) (hok : new.Ok)
    (habandoned : new.abandoned → new.cancelling) : Invariant (q.put f new) := by
  have hlane := h.lane new.group
  suffices hnew : LaneOk (Function.update q.flights f (some new)) new.group (q.lanes new.group) by
    have hstored := @Invariant.store _ _ _ _ _ h f _ q.subscriptions new _ le_rfl (h.lt_count hf)
      (fun old hold => by rw [Option.some.inj (hold.symm.trans hf), hgroup]) hnew hok habandoned
    rwa [Function.update_eq_self] at hstored
  refine ⟨hlane.running, fun f' hf' => ?_, fun f' flight' hf' hg' =>
    ?_, fun f' flight' hf' hg' => ?_⟩
  · obtain ⟨old, hold, hg⟩ := hlane.held f' hf'
    rcases eq_or_ne f' f with rfl | hne
    · exact ⟨new, by simp, rfl⟩
    · exact ⟨old, by simp [hne, hold], hg⟩
  · rw [Function.update_apply] at hf'
    split_ifs at hf' with heq
    · obtain rfl := Option.some.inj hf'
      rw [hflight, heq]
      exact hlane.inFlight f flight hf hgroup.symm
    · exact hlane.inFlight f' flight' hf' hg'
  · rw [Function.update_apply] at hf'
    split_ifs at hf' with heq
    · obtain rfl := Option.some.inj hf'
      rw [hwaiting, heq]
      exact hlane.waits f flight hf hgroup.symm
    · exact hlane.waits f' flight' hf' hg'

omit [DecidableEq G] in
/-- The counter of the subscriptions is read by nobody else. -/
theorem Invariant.subscriptions (h : Invariant q) (n : ℕ) :
    Invariant { q with subscriptions := n } :=
  ⟨h.fresh, h.lane, h.ok, h.abandoned⟩

/-- A waiting flight leaves the slot. -/
theorem Invariant.vacate (h : Invariant q) {f : ℕ} {flight new : Flight G K T} {lane : Lane}
    (hf : q.flights f = some flight) (hlane : q.lanes new.group = some lane)
    (hw : lane.waiting = some f) (hgroup : new.group = flight.group)
    (hflight : new.stage.inFlight = false) (hwaiting : new.stage ≠ .waiting) (hok : new.Ok)
    (habandoned : new.abandoned → new.cancelling) :
    Invariant ((q.put f new).setLane new.group (some ⟨lane.running, none⟩)) := by
  have hl := h.lane new.group
  rw [hlane] at hl
  -- the waiting flight is not the running one
  have hrun : lane.running ≠ some f := by
    intro hrun
    have h1 := (hl.inFlight f flight hf hgroup.symm).mpr hrun
    rw [(hl.waits f flight hf hgroup.symm).mpr hw] at h1
    cases h1
  refine h.store le_rfl (h.lt_count hf)
    (fun old hold => by rw [Option.some.inj (hold.symm.trans hf), hgroup]) ?_ hok habandoned
  refine ⟨?_, fun f' hf' => ?_, fun f' flight' hf' hg' => ?_, fun f' flight' hf' hg' => ?_⟩
  · intro l hlane'
    obtain rfl := Option.some.inj hlane'
    exact hl.running lane rfl
  · have hne : f' ≠ f := by
      rintro rfl
      simp [hrun] at hf'
    obtain ⟨old, hold, hg⟩ := hl.held f' (.inl (by simpa using hf'))
    exact ⟨old, by simp [hne, hold], hg⟩
  · rw [Function.update_apply] at hf'
    split_ifs at hf' with heq
    · obtain rfl := Option.some.inj hf'
      simp [hflight, heq, hrun]
    · exact hl.inFlight f' flight' hf' hg'
  · rw [Function.update_apply] at hf'
    split_ifs at hf' with heq
    · obtain rfl := Option.some.inj hf'
      simp [hwaiting]
    · rw [hl.waits f' flight' hf' hg', Option.bind_some, hw]
      simp [Ne.symm heq]

/-- A new flight opens its group's lane. -/
theorem Invariant.openLane (h : Invariant q) {key : K} {group : G} (hlane : q.lanes group = none)
    (subscriber subscriptions : ℕ) :
    Invariant ⟨Function.update q.flights q.count (some (.new key group subscriber .starting)),
      q.count + 1, subscriptions, Function.update q.lanes group (some ⟨some q.count, none⟩)⟩ := by
  have hl := h.lane group
  rw [hlane] at hl
  have hfresh := h.fresh q.count le_rfl
  refine @Invariant.store _ _ _ _ _ h q.count _ _ (.new key group subscriber .starting) _
    (Nat.le_succ _) (Nat.lt_succ_self _)
    (fun flight hf => by rw [hfresh] at hf; cases hf) ?_ (Flight.ok_new _ _ _ (.inl rfl))
    (fun habandoned => by cases habandoned)
  refine ⟨?_, fun f' hf' => ?_, fun f' flight' hf' hg' => ?_, fun f' flight' hf' hg' => ?_⟩
  · intro l hlane'
    obtain rfl := Option.some.inj hlane'
    rfl
  · obtain rfl : q.count = f' := by simpa using hf'
    exact ⟨_, Function.update_self .., rfl⟩
  · rw [Function.update_apply] at hf'
    split_ifs at hf' with heq
    · obtain rfl := Option.some.inj hf'
      simp [heq, Flight.new, Stage.inFlight]
    · have := hl.inFlight f' flight' hf' hg'
      simpa [Ne.symm heq] using this
  · rw [Function.update_apply] at hf'
    split_ifs at hf' with heq
    · obtain rfl := Option.some.inj hf'
      simp [Flight.new]
    · simpa using hl.waits f' flight' hf' hg'

/-- A new flight takes the empty slot of its group's lane. -/
theorem Invariant.takeSlot (h : Invariant q) {key : K} {group : G} {r : ℕ}
    (hlane : q.lanes group = some ⟨some r, none⟩) (subscriber subscriptions : ℕ) :
    Invariant ⟨Function.update q.flights q.count (some (.new key group subscriber .waiting)),
      q.count + 1, subscriptions, Function.update q.lanes group (some ⟨some r, some q.count⟩)⟩ := by
  have hl := h.lane group
  rw [hlane] at hl
  have hfresh := h.fresh q.count le_rfl
  obtain ⟨running, hrunning, hgroup⟩ := hl.held r (.inl rfl)
  have hne : r ≠ q.count := by
    rintro rfl
    rw [hfresh] at hrunning
    cases hrunning
  refine @Invariant.store _ _ _ _ _ h q.count _ _ (.new key group subscriber .waiting) _
    (Nat.le_succ _) (Nat.lt_succ_self _)
    (fun flight hf => by rw [hfresh] at hf; cases hf) ?_ (Flight.ok_new _ _ _ (.inr rfl))
    (fun habandoned => by cases habandoned)
  refine ⟨?_, fun f' hf' => ?_, fun f' flight' hf' hg' => ?_, fun f' flight' hf' hg' => ?_⟩
  · intro l hlane'
    obtain rfl := Option.some.inj hlane'
    rfl
  · rcases hf' with hf' | hf'
    · obtain rfl : r = f' := by simpa using hf'
      exact ⟨running, by simp [hne, hrunning], hgroup⟩
    · obtain rfl : q.count = f' := by simpa using hf'
      exact ⟨_, Function.update_self .., rfl⟩
  · rw [Function.update_apply] at hf'
    split_ifs at hf' with heq
    · obtain rfl := Option.some.inj hf'
      simp [heq, hne, Flight.new, Stage.inFlight]
    · exact hl.inFlight f' flight' hf' hg'
  · rw [Function.update_apply] at hf'
    split_ifs at hf' with heq
    · obtain rfl := Option.some.inj hf'
      simp [heq, Flight.new]
    · have := hl.waits f' flight' hf' hg'
      simpa [Ne.symm heq] using this

/-- A run that has returned leaves a lane nobody waits in. -/
theorem Invariant.closeLane (h : Invariant q) {f : ℕ} {flight new : Flight G K T} {lane : Lane}
    (hf : q.flights f = some flight) (hlane : q.lanes new.group = some lane)
    (hr : lane.running = some f) (hw : lane.waiting = none) (hgroup : new.group = flight.group)
    (hflight : new.stage.inFlight = false) (hwaiting : new.stage ≠ .waiting) (hok : new.Ok)
    (habandoned : new.abandoned → new.cancelling) :
    Invariant ((q.put f new).setLane new.group none) := by
  have hl := h.lane new.group
  rw [hlane] at hl
  refine h.store le_rfl (h.lt_count hf)
    (fun old hold => by rw [Option.some.inj (hold.symm.trans hf), hgroup]) ?_ hok habandoned
  refine ⟨fun _ hnone => absurd hnone (by simp), fun f' hf' => absurd hf' (by simp),
    fun f' flight' hf' hg' => ?_, fun f' flight' hf' hg' => ?_⟩
  · rw [Function.update_apply] at hf'
    split_ifs at hf' with heq
    · obtain rfl := Option.some.inj hf'
      simp [hflight]
    · rw [hl.inFlight f' flight' hf' hg', Option.bind_some, hr]
      simp [Ne.symm heq]
  · rw [Function.update_apply] at hf'
    split_ifs at hf' with heq
    · obtain rfl := Option.some.inj hf'
      simp [hwaiting]
    · rw [hl.waits f' flight' hf' hg', Option.bind_some, hw]
      simp

/-- A run that has returned leaves its lane to the flight that waits. -/
theorem Invariant.promote (h : Invariant q) {f w : ℕ} {flight next : Flight G K T} {lane : Lane}
    (hf : q.flights f = some flight) (hw : q.flights w = some next)
    (hlane : q.lanes flight.group = some lane) (hrunning : lane.running = some f)
    (hwaiting : lane.waiting = some w) (hnext : next.group = flight.group)
    (hok : ({ flight with stage := .finished } : Flight G K T).Ok)
    (hokNext : ({ next with stage := .starting } : Flight G K T).Ok) :
    Invariant (((q.put f { flight with stage := .finished }).put w
      { next with stage := .starting }).setLane flight.group (some ⟨some w, none⟩)) := by
  have hl := h.lane flight.group
  rw [hlane] at hl
  have hne : f ≠ w := by
    rintro rfl
    have h1 := (hl.inFlight f flight hf rfl).mpr hrunning
    rw [(hl.waits f flight hf rfl).mpr hwaiting] at h1
    cases h1
  -- what the two stores read back
  have hread : ∀ f', ((q.put f { flight with stage := .finished }).put w
      { next with stage := .starting }).flights f' =
        if f' = w then some { next with stage := .starting }
        else if f' = f then some { flight with stage := .finished } else q.flights f' := by
    intro f'
    simp only [LatestWins.put, Function.update_apply]
  constructor
  case fresh =>
    intro f' hf'
    change ((q.put f _).put w _).flights f' = none
    have h1 := h.lt_count hf
    have h2 := h.lt_count hw
    change q.count ≤ f' at hf'
    rw [hread, if_neg (by omega), if_neg (by omega)]
    exact h.fresh f' hf'
  case lane =>
    intro group
    change LaneOk ((q.put f _).put w _).flights group
      (Function.update q.lanes flight.group (some ⟨some w, none⟩) group)
    rw [Function.update_apply]
    split_ifs with hg
    · subst hg
      refine ⟨?_, fun f' hf' => ?_, fun f' flight' hf' hg' => ?_, fun f' flight' hf' hg' => ?_⟩
      · intro l hl'
        obtain rfl := Option.some.inj hl'
        rfl
      · obtain rfl : w = f' := by simpa using hf'
        exact ⟨{ next with stage := .starting }, by rw [hread, if_pos rfl], hnext⟩
      · rw [hread] at hf'
        split_ifs at hf' with h1 h2
        · obtain rfl := Option.some.inj hf'
          simp [h1, Stage.inFlight]
        · obtain rfl := Option.some.inj hf'
          simp [Stage.inFlight, Ne.symm h1]
        · rw [hl.inFlight f' flight' hf' hg', Option.bind_some, hrunning]
          simp [Ne.symm h1, Ne.symm h2]
      · rw [hread] at hf'
        split_ifs at hf' with h1 h2
        · obtain rfl := Option.some.inj hf'
          simp
        · obtain rfl := Option.some.inj hf'
          simp
        · rw [hl.waits f' flight' hf' hg', Option.bind_some, hwaiting]
          simp [Ne.symm h1]
    · have hother := h.lane group
      have hsame : ∀ f' flight', ((q.put f { flight with stage := .finished }).put w
          { next with stage := .starting }).flights f' = some flight' → flight'.group = group →
          q.flights f' = some flight' := by
        intro f' flight' hf' hg'
        rw [hread] at hf'
        split_ifs at hf'
        · obtain rfl := Option.some.inj hf'
          exact absurd (hg'.symm.trans hnext) hg
        · obtain rfl := Option.some.inj hf'
          exact absurd hg'.symm hg
        · exact hf'
      refine ⟨hother.running, fun f' hf' => ?_, fun f' flight' hf' hg' =>
        hother.inFlight f' flight' (hsame f' flight' hf' hg') hg', fun f' flight' hf' hg' =>
        hother.waits f' flight' (hsame f' flight' hf' hg') hg'⟩
      obtain ⟨flight', hflight', hg'⟩ := hother.held f' hf'
      refine ⟨flight', ?_, hg'⟩
      rw [hread, if_neg, if_neg, hflight']
      · rintro rfl
        exact hg (hg'.symm.trans (congrArg Flight.group (Option.some.inj (hflight'.symm.trans hf))))
      · rintro rfl
        exact hg (hg'.symm.trans
          ((congrArg Flight.group (Option.some.inj (hflight'.symm.trans hw))).trans
          hnext))
  case ok =>
    intro f' flight' hf'
    change ((q.put f _).put w _).flights f' = _ at hf'
    rw [hread] at hf'
    split_ifs at hf'
    · obtain rfl := Option.some.inj hf'
      exact hokNext
    · obtain rfl := Option.some.inj hf'
      exact hok
    · exact h.ok f' flight' hf'
  case abandoned =>
    intro f' flight' hf'
    change ((q.put f _).put w _).flights f' = _ at hf'
    rw [hread] at hf'
    split_ifs at hf'
    · obtain rfl := Option.some.inj hf'
      exact h.abandoned w next hw
    · obtain rfl := Option.some.inj hf'
      exact h.abandoned f flight hf
    · exact h.abandoned f' flight' hf'

/-! ### The sections under the lock -/

omit [DecidableEq G] in
/-- A request joins a flight that is not cancelled, in the lane it looks at. -/
theorem joined_eq_some [DecidableEq K] {lane : Lane} {key : K} {f : ℕ} {flight : Flight G K T}
    (hj : q.joined lane key = some (f, flight)) :
    q.flights f = some flight ∧ flight.key = key ∧
      (lane.running = some f ∧ flight.cancelling = false ∨ lane.waiting = some f) := by
  unfold joined at hj
  rcases Option.or_eq_some_iff.mp hj with hrun | ⟨-, hwait⟩
  · obtain ⟨r, hr, hrun⟩ := Option.bind_eq_some_iff.mp hrun
    obtain ⟨flight', hflight', hrun⟩ := Option.bind_eq_some_iff.mp hrun
    split_ifs at hrun with hkey
    cases hrun
    exact ⟨hflight', hkey.1, .inl ⟨hr, hkey.2⟩⟩
  · obtain ⟨w, hw, hwait⟩ := Option.bind_eq_some_iff.mp hwait
    obtain ⟨flight', hflight', hwait⟩ := Option.bind_eq_some_iff.mp hwait
    split_ifs at hwait with hkey
    cases hwait
    exact ⟨hflight', hkey, .inr hw⟩

/-- **A subscription keeps the invariant.** -/
theorem Invariant.subscribe [DecidableEq K] (h : Invariant q) (group : G) (key : K) :
    Invariant (q.subscribe group key) := by
  have hl := h.lane group
  unfold LatestWins.subscribe
  rcases hj : ({ q with subscriptions := q.subscriptions + 1 } : LatestWins G K T).joined
      ((q.lanes group).getD ⟨none, none⟩) key with _ | ⟨f, flight⟩
  · simp only [hj]
    rcases hlane : q.lanes group with _ | ⟨running, waiting⟩
    · -- nothing runs: the flight opens the lane
      simpa [LatestWins.put, setLane] using @Invariant.openLane _ _ _ _ _ h key group hlane
        (q.subscriptions + 1) (q.subscriptions + 1)
    · rw [hlane] at hl
      obtain ⟨r, rfl⟩ := Option.isSome_iff_exists.mp (hl.running _ rfl)
      rcases waiting with _ | w
      · simpa [LatestWins.put, setLane] using 
          @Invariant.takeSlot _ _ _ _ _ h key group r hlane (q.subscriptions + 1)
            (q.subscriptions + 1)
      · -- the flight takes the slot of the one that waits
        obtain ⟨flight, hf, rfl⟩ := hl.held w (.inr rfl)
        have hstage := (hl.waits w flight hf rfl).mpr rfl
        have hvacated := @Invariant.vacate _ _ _ _ _ h w flight { flight with stage := .replacing }
          ⟨some r, some w⟩ hf hlane rfl rfl rfl (by simp) ((h.ok w flight hf).displace hstage)
          (h.abandoned w flight hf)
        have hslot := @Invariant.takeSlot _ _ _ _ _ hvacated key flight.group r (by simp [setLane])
          (q.subscriptions + 1) (q.subscriptions + 1)
        simpa [LatestWins.put, setLane, hf] using hslot
  · simp only [hj]
    obtain ⟨hf, -, hlane⟩ := joined_eq_some hj
    change q.flights f = some flight at hf
    rcases hsome : q.lanes group with _ | lane
    · simp [hsome] at hlane
    rw [hsome] at hl
    simp only [hsome, Option.getD_some] at hlane
    have hg : flight.group = group := by
      obtain ⟨old, hold, hg⟩ := hl.held f (hlane.imp (fun h => h.1) id)
      rwa [Option.some.inj (hold.symm.trans hf)] at hg
    have hok := h.ok f flight hf
    refine (h.subscriptions (q.subscriptions + 1)).put hf rfl rfl Iff.rfl ?_
      (h.abandoned f flight hf)
    rcases hlane with ⟨hrunning, hcancelling⟩ | hwaiting
    · refine hok.join _ ?_ (.inl ((hl.inFlight f flight hf hg).mpr hrunning))
      simp only [hcancelling, Bool.false_eq_true, false_or, not_or]
      refine ⟨fun hab => ?_, fun htoken => ?_⟩
      · rw [h.abandoned f flight hf hab] at hcancelling
        cases hcancelling
      · rw [h.abandoned f flight hf (hok.token htoken)] at hcancelling
        cases hcancelling
    · have hstage := (hl.waits f flight hf hg).mpr hwaiting
      refine hok.join _ (fun hflags => ?_) (.inr hstage)
      have hplace := (hok.cancelled hflags).2
      rw [hstage] at hplace
      simp [Stage.inFlight] at hplace

theorem Invariant.finish (h : Invariant q) {f : ℕ} {flight : Flight G K T}
    (hf : q.flights f = some flight) (hstage : flight.stage = .returned) :
    Invariant (q.finish f flight) := by
  have hl := h.lane flight.group
  have hok := h.ok f flight hf
  have hrunning := (hl.inFlight f flight hf rfl).mp (by rw [hstage]; rfl)
  obtain ⟨lane, hlane, hrunning⟩ := Option.bind_eq_some_iff.mp hrunning
  unfold LatestWins.finish
  simp only [hlane, Option.bind_some]
  rcases hwaiting : lane.waiting with _ | w
  · exact @Invariant.closeLane _ _ _ _ _ h f flight { flight with stage := .finished } lane hf hlane
      hrunning hwaiting rfl rfl (by simp) (hok.finish hstage) (h.abandoned f flight hf)
  · obtain ⟨next, hnext, hg⟩ := hl.held w (.inr (by rw [hlane]; exact hwaiting))
    have hwaits := (hl.waits w next hnext hg).mpr (by rw [hlane]; exact hwaiting)
    have hne : w ≠ f := by
      rintro rfl
      rw [Option.some.inj (hnext.symm.trans hf), hstage] at hwaits
      cases hwaits
    have hread : (q.put f { flight with stage := .finished }).flights w = some next := by
      simp [LatestWins.put, hne, hnext]
    simp only [Option.bind_some, hread, Option.map_some]
    exact h.promote hf hnext hlane hrunning hwaiting hg (hok.finish hstage)
      ((h.ok w next hnext).promote hwaits)

theorem Invariant.detach (h : Invariant q) {f : ℕ} {flight : Flight G K T}
    (hf : q.flights f = some flight) (cancelAbandoned : Bool) (subscriber : ℕ) :
    Invariant (q.detach cancelAbandoned f flight subscriber) := by
  have hl := h.lane flight.group
  have hok := h.ok f flight hf
  have hab := h.abandoned f flight hf
  unfold LatestWins.detach
  rcases hlane : q.lanes flight.group with _ | lane
  · -- no lane: the flight does not wait
    refine h.put hf rfl rfl Iff.rfl (hok.leave _ fun hwaits => ?_) hab
    have := (hl.waits f flight hf rfl).mp hwaits
    simp [hlane] at this
  rw [hlane] at hl
  simp only
  split_ifs with hnonempty hwaiting hrunning
  · exact h.put hf rfl rfl Iff.rfl (hok.leave _ fun _ => hnonempty) hab
  · have hempty := Finset.not_nonempty_iff_eq_empty.mp hnonempty
    have hstage := (hl.waits f flight hf rfl).mpr hwaiting
    exact @Invariant.vacate _ _ _ _ _ h f flight
      { flight.without subscriber with stage := .dropping } lane hf hlane hwaiting rfl rfl (by simp)
        (hok.drop hstage hempty) hab
  · have hempty := Finset.not_nonempty_iff_eq_empty.mp hnonempty
    have hstage := (hl.inFlight f flight hf rfl).mpr hrunning.2.1
    exact h.put hf rfl rfl Iff.rfl (hok.abandon hstage hempty true) fun _ => rfl
  · refine h.put hf rfl rfl Iff.rfl (hok.leave _ fun hwaits => ?_) hab
    exact absurd ((hl.waits f flight hf rfl).mp hwaits) hwaiting

omit [DecidableEq G] in
/-- A step of one flight, where the flight is at the stage for it. -/
theorem guarded_eq_some {flight? : Option (Flight G K T)} {p : Flight G K T → Prop}
    [DecidablePred p]
    {g : Flight G K T → LatestWins G K T} {t : LatestWins G K T} :
    (do let flight ← flight?; if p flight then some (g flight) else none) = some t ↔
      ∃ flight, flight? = some flight ∧ p flight ∧ t = g flight := by
  rcases flight? with _ | flight
  · simp
  · by_cases hp : p flight <;> simp [hp, eq_comm]

/-- **Every step keeps the invariant.** -/
theorem Invariant.step [DecidableEq K] {cancelAbandoned : Bool} {t : LatestWins G K T}
    {e : FlightEvent G K T} (h : Invariant q) (hstep : q.step cancelAbandoned e = some t) :
    Invariant t := by
  rcases e with ⟨group, key⟩ | f | ⟨f, end_⟩ | f | f | ⟨f, subscriber⟩ | f | f
  case subscribe =>
    obtain rfl := Option.some.inj hstep
    exact h.subscribe group key
  case detach =>
    obtain ⟨flight, hf, hstep⟩ := Option.bind_eq_some_iff.mp hstep
    obtain rfl := Option.some.inj hstep
    exact h.detach hf cancelAbandoned subscriber
  case start =>
    obtain ⟨flight, hf, hstage, rfl⟩ := guarded_eq_some.mp hstep
    exact h.put hf rfl (by rw [hstage]; rfl) (by simp [hstage]) ((h.ok f flight hf).start hstage)
      (h.abandoned f flight hf)
  case resolve =>
    obtain ⟨flight, hf, hstage, rfl⟩ := guarded_eq_some.mp hstep
    exact h.put hf rfl (by rw [hstage]; rfl) (by simp [hstage]) ((h.ok f flight hf).resolve end_)
      (h.abandoned f flight hf)
  case finish =>
    obtain ⟨flight, hf, hstage, rfl⟩ := guarded_eq_some.mp hstep
    exact h.finish hf hstage
  case replace =>
    obtain ⟨flight, hf, hstage, rfl⟩ := guarded_eq_some.mp hstep
    exact h.put hf rfl (by rw [hstage]; rfl) (by simp [hstage]) ((h.ok f flight hf).replace hstage)
      (h.abandoned f flight hf)
  case cancelToken =>
    obtain ⟨flight, hf, hab, rfl⟩ := guarded_eq_some.mp hstep
    exact h.put hf rfl rfl Iff.rfl ((h.ok f flight hf).cancelToken hab) (h.abandoned f flight hf)
  case cancelOutcome =>
    obtain ⟨flight, hf, hstage, rfl⟩ := guarded_eq_some.mp hstep
    exact h.put hf rfl (by rw [hstage]; rfl) (by simp [hstage])
      ((h.ok f flight hf).cancelOutcome hstage) (h.abandoned f flight hf)

theorem Invariant.of_reachable [DecidableEq K] {cancelAbandoned : Bool}
    (h : (machine cancelAbandoned).Reachable q) : Invariant q :=
  h.invariant (fun _ hs => hs ▸ invariant_empty) fun _ _ _ hs hstep => hs.step hstep

end LatestWins

end Haute
