import Haute.Data.Runs
import Haute.Json.Errors
import Mathlib.Data.Finset.Basic
import Mathlib.Logic.Function.Basic

/-!
# Flights

A flight is one run of a callable on a thread of its own, with the subscribers that share
its outcome. Its owner's lock guards it, but some of what the owner decides under the lock
it does only after dropping it: starting the flight's thread, failing a flight that has
been replaced, cancelling. `stage` is the program counter of that: it says what has been
decided about the flight and what some thread has still to do for it, so that the steps of
other threads can come in between.
-/

namespace Haute

/-- What ends a flight's outcome with an exception. -/
inductive FlightError (K : Type) where
  /-- `FlightReplacedError`, for the key of the replaced request. -/
  | replaced (key : K)
  /-- What the run raised. -/
  | run (error : PyError)
  deriving DecidableEq

/-- The state of `outcome`, a `Future`. -/
inductive FlightOutcome (K T : Type) where
  | pending
  | result (value : T)
  | exception (error : FlightError K)
  | cancelled

/-- `Future.done`. -/
def FlightOutcome.done {K T : Type} : FlightOutcome K T → Bool
  | .pending => false
  | _ => true

/-- Where a flight is. -/
inductive Stage where
  /-- It is to run; the thread that decided so has yet to start it. -/
  | starting
  /-- Its thread is in the run. -/
  | running
  /-- The run has returned and set the outcome; the owner has yet to be told. -/
  | returned
  /-- The owner has been told. -/
  | finished
  /-- It holds its group's waiting slot. -/
  | waiting
  /-- A newer request has its slot, and is about to fail it. -/
  | replacing
  /-- It has been failed. -/
  | replaced
  /-- Its last subscriber has left it waiting, and is about to cancel its outcome. -/
  | dropping
  /-- Its outcome has been cancelled. -/
  | dropped
  deriving DecidableEq

/-- The flight is its owner's running flight. -/
def Stage.inFlight : Stage → Bool
  | .starting | .running | .returned => true
  | _ => false

/-- `_Flight`. -/
structure Flight (G K T : Type) where
  key : K
  group : G
  outcome : FlightOutcome K T
  /-- The subscriptions, each by its number. -/
  subscribers : Finset ℕ
  /-- `cancelling`. -/
  cancelling : Bool
  /-- Whether its token has been cancelled. -/
  tokenCancelled : Bool
  /-- The thread that emptied it is about to cancel its token. -/
  abandoned : Bool
  stage : Stage

/-- A flight as `_Flight` makes it, with its first subscriber. -/
def Flight.new {G K T : Type} (key : K) (group : G) (subscriber : ℕ) (stage : Stage) :
    Flight G K T where
  key := key
  group := group
  outcome := .pending
  subscribers := {subscriber}
  cancelling := false
  tokenCancelled := false
  abandoned := false
  stage := stage

/-- The flight without one of its subscribers. -/
def Flight.without {G K T : Type} (flight : Flight G K T) (subscriber : ℕ) : Flight G K T :=
  { flight with subscribers := flight.subscribers.erase subscriber }

/-- What a run ends with: a value or what it raised. -/
def FlightOutcome.ofRun {K T : Type} : Except PyError T → FlightOutcome K T
  | .ok value => .result value
  | .error e => .exception (.run e)

/-- What a flight's stage says about it. -/
structure Flight.Ok {G K T : Type} (flight : Flight G K T) : Prop where
  /-- The outcome is set by the run, by the request that takes its slot, or by the
  subscriber that leaves it waiting. -/
  outcome : match flight.stage with
    | .starting | .running | .waiting | .replacing | .dropping => flight.outcome = .pending
    | .returned | .finished => ∃ end_ : Except PyError T, flight.outcome = .ofRun end_
    | .replaced => flight.outcome = .exception (.replaced flight.key)
    | .dropped => flight.outcome = .cancelled
  waiting : flight.stage = .waiting → flight.subscribers.Nonempty
  dropped : flight.stage = .dropping ∨ flight.stage = .dropped → flight.subscribers = ∅
  /-- Whatever is cancelled has no subscribers, and has had its chance to run. -/
  cancelled : flight.cancelling ∨ flight.abandoned ∨ flight.tokenCancelled →
    flight.subscribers = ∅ ∧ (flight.stage.inFlight ∨ flight.stage = .finished)
  token : flight.tokenCancelled → flight.abandoned

theorem Flight.ok_new {G K T : Type} (key : K) (group : G) (subscriber : ℕ) {stage : Stage}
    (h : stage = .starting ∨ stage = .waiting) :
    (Flight.new key group subscriber stage : Flight G K T).Ok := by
  rcases h with rfl | rfl <;>
    exact ⟨rfl, fun _ => Finset.singleton_nonempty _, fun h => by simp [new] at h,
      fun h => by simp [new] at h, fun h => by simp [new] at h⟩

namespace Flight.Ok

variable {G K T : Type} {flight : Flight G K T}

/-- What is cancelled is in flight or finished, so a flight elsewhere is not. -/
private theorem not_cancelled (h : flight.Ok) (hflight : flight.stage.inFlight = false)
    (hfinished : flight.stage ≠ .finished) :
    ¬(flight.cancelling ∨ flight.abandoned ∨ flight.tokenCancelled) := by
  intro hflags
  rcases (h.cancelled hflags).2 with hstage | hstage
  · rw [hflight] at hstage
    cases hstage
  · exact hfinished hstage

theorem start (h : flight.Ok) (hstage : flight.stage = .starting) :
    ({ flight with stage := .running } : Flight G K T).Ok where
  outcome := by simpa [hstage] using h.outcome
  waiting hw := by cases hw
  dropped hd := by simp at hd
  cancelled hc := ⟨(h.cancelled hc).1, .inl rfl⟩
  token := h.token

theorem resolve (h : flight.Ok) (end_ : Except PyError T) :
    ({ flight with stage := .returned, outcome := .ofRun end_ } : Flight G K T).Ok where
  outcome := ⟨end_, rfl⟩
  waiting hw := by cases hw
  dropped hd := by simp at hd
  cancelled hc := ⟨(h.cancelled hc).1, .inl rfl⟩
  token := h.token

theorem finish (h : flight.Ok) (hstage : flight.stage = .returned) :
    ({ flight with stage := .finished } : Flight G K T).Ok where
  outcome := by simpa [hstage] using h.outcome
  waiting hw := by cases hw
  dropped hd := by simp at hd
  cancelled hc := ⟨(h.cancelled hc).1, .inr rfl⟩
  token := h.token

theorem promote (h : flight.Ok) (hstage : flight.stage = .waiting) :
    ({ flight with stage := .starting } : Flight G K T).Ok where
  outcome := by simpa [hstage] using h.outcome
  waiting hw := by cases hw
  dropped hd := by simp at hd
  cancelled hc := ⟨(h.cancelled hc).1, .inl rfl⟩
  token := h.token

theorem displace (h : flight.Ok) (hstage : flight.stage = .waiting) :
    ({ flight with stage := .replacing } : Flight G K T).Ok where
  outcome := by simpa [hstage] using h.outcome
  waiting hw := by cases hw
  dropped hd := by simp at hd
  cancelled hc := absurd hc (h.not_cancelled (by rw [hstage]; rfl) (by simp [hstage]))
  token := h.token

theorem replace (h : flight.Ok) (hstage : flight.stage = .replacing) :
    ({ flight with stage := .replaced, outcome := .exception (.replaced flight.key) } :
      Flight G K T).Ok where
  outcome := rfl
  waiting hw := by cases hw
  dropped hd := by simp at hd
  cancelled hc := absurd hc (h.not_cancelled (by rw [hstage]; rfl) (by simp [hstage]))
  token := h.token

/-- Another subscriber, for a flight that runs or waits and is not cancelled. -/
theorem join (h : flight.Ok) (subscriber : ℕ)
    (hflags : ¬(flight.cancelling ∨ flight.abandoned ∨ flight.tokenCancelled))
    (hstage : flight.stage.inFlight = true ∨ flight.stage = .waiting) :
    ({ flight with subscribers := insert subscriber flight.subscribers } : Flight G K T).Ok where
  outcome := h.outcome
  waiting _ := Finset.insert_nonempty _ _
  dropped hd := by
    rcases hd with hd | hd <;> simp only at hd <;> rw [hd] at hstage <;>
      simp [Stage.inFlight] at hstage
  cancelled hc := absurd hc hflags
  token := h.token

/-- A subscriber leaves; of a flight that waits it is not the last. -/
theorem leave (h : flight.Ok) (subscriber : ℕ)
    (hwaits : flight.stage = .waiting → (flight.without subscriber).subscribers.Nonempty) :
    (flight.without subscriber).Ok where
  outcome := h.outcome
  waiting := hwaits
  dropped hd := by
    change flight.subscribers.erase subscriber = ∅
    rw [h.dropped hd, Finset.erase_empty]
  cancelled hc := by
    obtain ⟨hempty, hstage⟩ := h.cancelled hc
    refine ⟨?_, hstage⟩
    change flight.subscribers.erase subscriber = ∅
    rw [hempty, Finset.erase_empty]
  token := h.token

/-- The last subscriber leaves a flight that waits. -/
theorem drop (h : flight.Ok) {subscriber : ℕ} (hstage : flight.stage = .waiting)
    (hempty : (flight.without subscriber).subscribers = ∅) :
    ({ flight.without subscriber with stage := .dropping } : Flight G K T).Ok where
  outcome := by
    have hout := h.outcome
    rwa [hstage] at hout
  waiting hw := by cases hw
  dropped _ := hempty
  cancelled hc := absurd hc (h.not_cancelled (by rw [hstage]; rfl) (by simp [hstage]))
  token := h.token

/-- The last subscriber leaves a flight that runs. -/
theorem abandon (h : flight.Ok) {subscriber : ℕ} (hstage : flight.stage.inFlight = true)
    (hempty : (flight.without subscriber).subscribers = ∅) (cancelling : Bool) :
    ({ flight.without subscriber with cancelling := cancelling, abandoned := true } : Flight G K
      T).Ok where
  outcome := h.outcome
  waiting hw := by
    change flight.stage = .waiting at hw
    rw [hw] at hstage
    cases hstage
  dropped _ := hempty
  cancelled _ := ⟨hempty, .inl hstage⟩
  token _ := rfl

theorem cancelToken (h : flight.Ok) (habandoned : flight.abandoned = true) :
    ({ flight with tokenCancelled := true } : Flight G K T).Ok where
  outcome := h.outcome
  waiting := h.waiting
  dropped := h.dropped
  cancelled _ := h.cancelled (.inr (.inl habandoned))
  token _ := habandoned

theorem cancelOutcome (h : flight.Ok) (hstage : flight.stage = .dropping) :
    ({ flight with stage := .dropped, outcome := .cancelled } : Flight G K T).Ok where
  outcome := rfl
  waiting hw := by cases hw
  dropped _ := h.dropped (.inl hstage)
  cancelled hc := absurd hc (h.not_cancelled (by rw [hstage]; rfl) (by simp [hstage]))
  token := h.token

end Flight.Ok

/-- It is decided that the flight is to be cancelled: its token, or its outcome. -/
def Flight.Cancelled {G K T : Type} (flight : Flight G K T) : Prop :=
  flight.cancelling ∨ flight.abandoned ∨ flight.tokenCancelled ∨ flight.stage = .dropping ∨
    flight.stage = .dropped

/-- What is cancelled has no subscribers. -/
theorem Flight.Ok.subscribers_of_cancelled {G K T : Type} {flight : Flight G K T} (h : flight.Ok)
    (hcancelled : flight.Cancelled) : flight.subscribers = ∅ := by
  rcases hcancelled with hc | hc | hc | hc | hc
  · exact (h.cancelled (.inl hc)).1
  · exact (h.cancelled (.inr (.inl hc))).1
  · exact (h.cancelled (.inr (.inr hc))).1
  · exact h.dropped (.inl hc)
  · exact h.dropped (.inr hc)

/-- Only a flight that is dropped has a cancelled outcome. -/
theorem Flight.Ok.dropped_of_outcome {G K T : Type} {flight : Flight G K T} (h : flight.Ok)
    (hcancelled : flight.outcome = .cancelled) : flight.stage = .dropped := by
  have hout := h.outcome
  rw [hcancelled] at hout
  rcases hstage : flight.stage <;> rw [hstage] at hout
  case returned | finished =>
    obtain ⟨end_, hend⟩ := hout
    rcases end_ <;> cases hend
  all_goals first | rfl | cases hout

/-- Until its outcome is set a flight runs, waits, or is on its way out. -/
theorem Flight.Ok.stage_of_pending {G K T : Type} {flight : Flight G K T} (h : flight.Ok)
    (hpending : flight.outcome.done = false) : flight.stage = .starting ∨ flight.stage = .running ∨
      flight.stage = .waiting ∨ flight.stage = .replacing ∨ flight.stage = .dropping := by
  have hout := h.outcome
  rcases hstage : flight.stage <;> rw [hstage] at hout <;> simp only at hout ⊢
  case returned | finished =>
    obtain ⟨end_, hend⟩ := hout
    rw [hend] at hpending
    rcases end_ <;> cases hpending
  case replaced | dropped =>
    rw [hout] at hpending
    cases hpending
  all_goals simp

/-- What one step may do to a flight. -/
structure Flight.Follows {G K T : Type} (flight next : Flight G K T) : Prop where
  key : next.key = flight.key
  group : next.group = flight.group
  /-- A set outcome is final. -/
  outcome : flight.outcome.done = true → next.outcome = flight.outcome
  /-- A cancelled flight stays so, and nobody joins it. -/
  cancelled : flight.Cancelled → next.Cancelled ∧ next.subscribers ⊆ flight.subscribers
  /-- A waiting flight is started, or a newer request takes its slot, or it is dropped. -/
  waiting : flight.stage = .waiting → next.stage = .waiting ∨ next.stage = .starting ∨
    next.stage = .replacing ∨ next.stage = .dropping
  /-- A flight that has lost its slot to a newer request ends as replaced. -/
  replacing : flight.stage = .replacing → next.stage = .replacing ∨
    next.outcome = .exception (.replaced flight.key)

/-- Most steps leave a flight alone. -/
theorem Flight.Follows.refl {G K T : Type} (flight : Flight G K T) : flight.Follows flight :=
  ⟨rfl, rfl, fun _ => rfl, fun h => ⟨h, Finset.Subset.refl _⟩, .inl, .inl⟩

/-- A step that moves a flight on without touching its subscribers and flags. -/
theorem Flight.Follows.of_stage {G K T : Type} {flight : Flight G K T} {outcome : FlightOutcome K T}
    {stage : Stage} (hdone : flight.outcome.done = true → outcome = flight.outcome)
    (hdrop : flight.stage = .dropping ∨ flight.stage = .dropped → stage = .dropping ∨
      stage = .dropped)
    (hwaiting : flight.stage = .waiting → stage = .starting ∨ stage = .replacing)
    (hreplacing : flight.stage = .replacing → outcome = .exception (.replaced flight.key)) :
    flight.Follows { flight with outcome := outcome, stage := stage } where
  key := rfl
  group := rfl
  outcome := hdone
  cancelled hc := by
    refine ⟨?_, Finset.Subset.refl _⟩
    rcases hc with hc | hc | hc | hc | hc
    · exact .inl hc
    · exact .inr (.inl hc)
    · exact .inr (.inr (.inl hc))
    · exact .inr (.inr (.inr (hdrop (.inl hc))))
    · exact .inr (.inr (.inr (hdrop (.inr hc))))
  waiting hw := .inr ((hwaiting hw).imp_right .inl)
  replacing hr := .inr (hreplacing hr)

/-- A step that changes a flight's subscribers, and may set its flags. -/
theorem Flight.Follows.of_subscribers {G K T : Type} {flight : Flight G K T}
    {subscribers : Finset ℕ}
    {cancelling abandoned token : Bool} (hc : flight.cancelling → cancelling)
    (ha : flight.abandoned → abandoned) (ht : flight.tokenCancelled → token)
    (hsub : flight.Cancelled → subscribers ⊆ flight.subscribers) :
    flight.Follows { flight with
      subscribers := subscribers
      cancelling := cancelling
      abandoned := abandoned
      tokenCancelled := token } where
  key := rfl
  group := rfl
  outcome _ := rfl
  cancelled h := by
    refine ⟨?_, hsub h⟩
    rcases h with h | h | h | h
    · exact .inl (hc h)
    · exact .inr (.inl (ha h))
    · exact .inr (.inr (.inl (ht h)))
    · exact .inr (.inr (.inr h))
  waiting := .inl
  replacing := .inl

/-- Every flight there is stays, and follows on. -/
def Carries {G K T : Type} (flights next : ℕ → Option (Flight G K T)) : Prop :=
  ∀ f flight, flights f = some flight → ∃ flight', next f = some flight' ∧ flight.Follows flight'

/-- Storing what follows a flight, or a new flight. -/
theorem Carries.update {G K T : Type} {flights : ℕ → Option (Flight G K T)} {f : ℕ}
    {new : Flight G K T} (h : ∀ flight, flights f = some flight → flight.Follows new) :
    Carries flights (Function.update flights f (some new)) := by
  intro f' flight' hf'
  rw [Function.update_apply]
  split_ifs with heq
  · exact ⟨new, rfl, h flight' (heq ▸ hf')⟩
  · exact ⟨flight', hf', .refl flight'⟩

end Haute
