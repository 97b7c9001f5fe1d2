import Haute.Admission.Budget
import Haute.Data.OrdDict
import Haute.Data.Runs
import Mathlib.Data.Finset.Basic
import Mathlib.Algebra.Order.BigOperators.Group.List

/-!
# Reservations in flight

Heavy executions share one budget: `_IN_FLIGHT_RESERVATIONS` holds what each has reserved,
under an id the process counter gave it, and every change to it is made under one lock.
`admitOnce` is an attempt of `create_admitted_execution_context`, `admitGrowth` the whole of
`admit_growth_grant`; both end by reserving, and what they leave then is a context still to
be built around the reservation's release callback.

`Admissions.step` is the process: any thread may attempt an admission, finish or fail to
build a context, call a release callback as often as it likes, or carry out the removal a
callback has begun. The callback sets its flag under a lock of its own before it takes the
admission lock, so other threads may act in between. Waiting for other holders changes
nothing and is left out; an attempt repeated after a wait is another attempt.
-/

namespace Haute

/-- `WorkEstimate`, with the check of its constructor. -/
structure WorkEstimate where
  estimatedBytes : ℤ
  subject : String
  remedy : String
  pos : 0 < estimatedBytes

/-- What a caller asks to be admitted, with the settings and environment it is resolved in. -/
structure AdmissionRequest where
  operation : String
  profile : ExecutionProfile
  settings : PipelineSettings
  env : Environ
  estimate : Option WorkEstimate

/-- A reservation: the profile, the bytes and the operation. -/
abbrev Reservation := ExecutionProfile × ℤ × String

/-- The process-wide registry under the admission lock. -/
structure InFlight where
  /-- `_IN_FLIGHT_RESERVATIONS`. -/
  reservations : OrdDict ℕ Reservation
  /-- The id `_IN_FLIGHT_COUNTER` gives next. -/
  counter : ℕ

namespace InFlight

/-- The summed reservations. -/
def reserved (store : InFlight) : ℤ := (store.reservations.entries.map fun entry => entry.2.2.1).sum

/-- The holders a refusal names: at most eight labels, sorted, each once. -/
def holders (store : InFlight) : List String :=
  (((store.reservations.entries.map fun entry =>
    s!"{entry.2.1.value}:{entry.2.2.2}").dedup).mergeSort
    (fun a b => decide (a ≤ b))).take 8

/-- `ExecutionAdmissionError`, with the figures a refusal carries. -/
def refusal (request : AdmissionRequest) (memoryLimitBytes : ℤ) (reason : String)
    (figures : List (String × Value)) : PyError :=
  .executionAdmission reason
    ([("operation", .str request.operation), ("profile", .str request.profile.value),
      ("memory_limit_bytes", .int memoryLimitBytes)] ++ figures)

/-- An optional figure of a refusal. -/
def figure : Option ℤ → Value
  | none => .none
  | some n => .int n

/-- Add a reservation under the next id. -/
def add (store : InFlight) (reservation : Reservation) : ℕ × InFlight :=
  (store.counter, ⟨store.reservations.insert store.counter reservation, store.counter + 1⟩)

/-- `_reserve_in_flight_budget`: the id reserved, or none for a profile outside the budget. -/
def reserveInFlightBudget (observed : Option ℤ) (store : InFlight) (request : AdmissionRequest)
    (budget : ExecutionBudget) (reservationBytes rss : ℤ) : Except PyError
    (Option (ℕ × InFlight)) :=
  if request.profile.inFlight then do
    let limit ← inFlightLimitBytes observed budget request.settings
    require (store.reserved + reservationBytes ≤ limit)
      (refusal request budget.memoryLimitBytes "in_flight_memory_budget_exceeded"
        [("rss_at_admission_bytes", .int rss),
          ("process_rss_limit_bytes", figure budget.processRssLimitBytes),
          ("in_flight_reserved_bytes", .int store.reserved),
          ("in_flight_limit_bytes", .int limit),
          ("in_flight_operations", .list (store.holders.map .str))])
    return some (store.add (request.profile, reservationBytes, request.operation))
  else .ok none

/-- The checks of `_admit_once` before it reserves: the sampled RSS and its limit. -/
def checkRss (request : AdmissionRequest) (budget : ExecutionBudget) (sample : Option ℤ) :
    Except PyError (ℤ × ℤ) := do
  let rss ← expect sample (refusal request budget.memoryLimitBytes "memory_sampler_unavailable"
    [("rss_at_admission_bytes", .none)])
  require (budget.processRssLimitBytes.all fun limit => rss < limit)
    (refusal request budget.memoryLimitBytes "process_rss_limit_exceeded"
      [("rss_at_admission_bytes", .int rss),
        ("process_rss_limit_bytes", figure budget.processRssLimitBytes)])
  let rssLimit := match budget.processRssLimitBytes with
    | none => rss + budget.memoryLimitBytes
    | some limit => min (rss + budget.memoryLimitBytes) limit
  let allowance := rssLimit - rss
  match request.estimate with
  | none => return (rss, rssLimit)
  | some estimate =>
    require (estimate.estimatedBytes ≤ allowance)
      (refusal request budget.memoryLimitBytes
        (s!"{estimate.subject} needs an estimated {estimate.estimatedBytes} bytes; " ++
          s!"the {request.profile.value} allowance is {allowance} bytes. {estimate.remedy}")
        [("rss_at_admission_bytes", .int rss), ("rss_limit_bytes", .int rssLimit),
          ("process_rss_limit_bytes", figure budget.processRssLimitBytes),
          ("estimated_bytes", .int estimate.estimatedBytes), ("allowance_bytes", .int allowance)])
    return (rss, rssLimit)

/-- One attempt of `create_admitted_execution_context`, up to the reservation. -/
def admitOnce (observed : Option ℤ) (store : InFlight) (request : AdmissionRequest)
    (sample : Option ℤ) : Except PyError (Option (ℕ × InFlight)) := do
  let budget ← executionBudgetForProfile request.env observed request.profile request.settings
  let reservationBytes := match request.estimate with
    | none => budget.memoryLimitBytes
    | some estimate => estimate.estimatedBytes
  let (rss, _) ← checkRss request budget sample
  reserveInFlightBudget observed store request budget reservationBytes rss

/-- `_GrowthGrantTerms`, as far as the grant and its refusal read them. -/
structure GrowthGrantTerms where
  rssAtAdmission : ℤ
  usable : ℤ
  limit : ResolvedMemoryLimit
  processRssLimitBytes : Option ℤ
  rssRoom : Option ℤ
  grant : ℤ

/-- `_growth_grant_terms`: the least of the profile's limit, what the other reservations
leave of the usable memory, and the room below an absolute RSS limit. -/
def growthGrantTerms (observed : Option ℤ) (store : InFlight) (request : AdmissionRequest)
    (sample : Option ℤ) : Except PyError GrowthGrantTerms := do
  let rssLimit ← resolveOptionalRssLimit request.env request.profile
  let available ← requirePositiveAvailableRam observed
  let usable := available - osReserveBytes available request.settings
  let limit ← profileLimitFromSample request.env request.profile available usable
  let rss ← expect sample (refusal request limit.memoryLimitBytes "memory_sampler_unavailable"
    [("rss_at_admission_bytes", .none)])
  let rssRoom := rssLimit.map fun found => found.1 - rss
  let grant := min limit.memoryLimitBytes (usable - store.reserved)
  return {
    rssAtAdmission := rss
    usable := usable
    limit := limit
    processRssLimitBytes := rssLimit.map Prod.fst
    rssRoom := rssRoom
    grant := match rssRoom with
      | none => grant
      | some room => min grant room }

/-- `_GrowthGrantTerms.refusal`. -/
def growthRefusal (store : InFlight) (request : AdmissionRequest) (terms : GrowthGrantTerms) :
    PyError :=
  let reason :=
    if terms.rssRoom.any fun room => room ≤ 0 then "process_rss_limit_exceeded"
    else if 0 < store.reserved ∧ terms.usable - store.reserved ≤ 0 then
      "in_flight_memory_budget_exceeded"
    else "no_memory_available"
  refusal request terms.limit.memoryLimitBytes reason
    [("rss_at_admission_bytes", .int terms.rssAtAdmission),
      ("process_rss_limit_bytes", figure terms.processRssLimitBytes),
      ("in_flight_reserved_bytes", .int store.reserved),
      ("in_flight_limit_bytes", .int terms.usable),
      ("in_flight_operations", .list (store.holders.map .str))]

/-- `admit_growth_grant`, up to the reservation. -/
def admitGrowth (observed : Option ℤ) (store : InFlight) (request : AdmissionRequest)
    (sample : Option ℤ) : Except PyError (ℕ × InFlight) := do
  require request.profile.inFlight
    (.value s!"growth grants need an in-flight profile, not '{request.profile.value}'")
  let terms ← growthGrantTerms observed store request sample
  require (0 < terms.grant) (growthRefusal store request terms)
  return store.add (request.profile, terms.grant, request.operation)

end InFlight

/-- The process: the registry, and who holds the release callback of each reservation. -/
structure Admissions where
  store : InFlight
  /-- Reservations whose context is being built. -/
  building : Finset ℕ
  /-- Reservations a finished context was given. -/
  contexts : Finset ℕ
  /-- Callbacks whose `released` flag is set. -/
  released : Finset ℕ
  /-- Callbacks that have set the flag and not yet removed the reservation. -/
  returning : Finset ℕ
  /-- The reservations removed so far, oldest first. -/
  returned : List ℕ

/-- One atomic step of some thread. -/
inductive AdmissionEvent where
  /-- An attempt of `create_admitted_execution_context`. -/
  | create (request : AdmissionRequest) (sample : Option ℤ)
  /-- `admit_growth_grant`. -/
  | grow (request : AdmissionRequest) (sample : Option ℤ)
  /-- The context of a reservation is built and returned. -/
  | build (id : ℕ)
  /-- Building it raises, and the handler calls the release callback. -/
  | fail (id : ℕ)
  /-- A context's release, or its finalizer, calls the callback. -/
  | release (id : ℕ)
  /-- A callback that has set its flag removes the reservation. -/
  | finish (id : ℕ)

/-- The settings an admission is made under. -/
def AdmissionEvent.settings : AdmissionEvent → Option PipelineSettings
  | .create request _ | .grow request _ => some request.settings
  | _ => none

namespace Admissions

/-- Before any admission. -/
def start : Admissions := ⟨⟨.empty, 1⟩, ∅, ∅, ∅, ∅, []⟩

/-- A new reservation goes to the thread that builds its context. -/
def reserve (s : Admissions) (added : ℕ × InFlight) : Admissions :=
  { s with store := added.2, building := insert added.1 s.building }

/-- The first half of `release`: the flag. A second call ends here. -/
def callRelease (s : Admissions) (id : ℕ) : Admissions :=
  if id ∈ s.released then s
  else { s with released := insert id s.released, returning := insert id s.returning }

/-- The second half: the reservation is removed, if it is still there. -/
def finishRelease (s : Admissions) (id : ℕ) : Admissions :=
  { s with
    store := { s.store with reservations := s.store.reservations.erase id }
    returning := s.returning.erase id
    returned := if id ∈ s.store.reservations.keys then s.returned ++ [id] else s.returned }

/-- What a step does; `none` where it cannot be taken. -/
def step (observed : Option ℤ) (s : Admissions) : AdmissionEvent → Option Admissions
  | .create request sample =>
    match s.store.admitOnce observed request sample with
    | .error _ | .ok none => some s
    | .ok (some added) => some (s.reserve added)
  | .grow request sample =>
    match s.store.admitGrowth observed request sample with
    | .error _ => some s
    | .ok added => some (s.reserve added)
  | .build id =>
    if id ∈ s.building then
      some { s with building := s.building.erase id, contexts := insert id s.contexts }
    else none
  | .fail id =>
    if id ∈ s.building then some ({ s with building := s.building.erase id }.callRelease id)
      else none
  | .release id => if id ∈ s.contexts then some (s.callRelease id) else none
  | .finish id => if id ∈ s.returning then some (s.finishRelease id) else none

/-- The runs of the process, the host's available memory being `observed` throughout. -/
def machine (observed : Option ℤ) : Machine Admissions AdmissionEvent :=
  .ofPartial start (step observed)

/-- Every reservation's callback has been called, and no call is under way. -/
def AllReleased (s : Admissions) : Prop :=
  s.building = ∅ ∧ s.returning = ∅ ∧ s.contexts ⊆ s.released

end Admissions

end Haute
