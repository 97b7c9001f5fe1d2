import Haute.Data.Effect
import Haute.Jobs.Record

/-!
# The job store

`JobStore` as the code keeps it, with what its threads have still to do beside it: the
artifact handles and the heavy values that a section under `_write_lock` has detached are
cleaned and released by its thread once the lock is dropped, so other threads' sections
come in between. The leases being held are their readers' open `with` blocks.

An operation is an `Effect` on the store. A section under the lock is one effect, and what
it has queued stays queued when it raises.

Two readings keep the model small. A dict of artifact handles is always `JobValue.handles`.
And the timers are left out: a timer's callback is an operation of its own, which may come
at any time.
-/

namespace Haute

/-- `_artifact_lease_key`'s pair: a handle's kind, and its path as a string. -/
abbrev LeaseKey := String × String

/-- `_artifact_lease_key`. -/
def artifactLeaseKey (handle : ArtifactHandle) : LeaseKey := (handle.kind, handle.path.getD "None")

/-- `JobStore`, and the work its threads have in hand. -/
structure JobStore where
  ttlSeconds : ℕ
  heavyObjectTtlSeconds : ℕ
  jobs : OrdDict String JobRecord
  runningActivityAt : OrdDict String PyFloat
  artifactLeases : OrdDict LeaseKey ℕ
  deferredArtifactCleanups : OrdDict LeaseKey (String × ArtifactHandle)
  /-- The leases being held, each by its handle. -/
  leases : List ArtifactHandle
  /-- The handles of a job that have been detached and are to be cleaned. -/
  cleanups : List (String × List ArtifactHandle)
  /-- The handles about to be given to their cleaner. -/
  cleaning : List ArtifactHandle
  /-- The heavy values that have been detached and are to be released. -/
  heavyReleases : List ℕ
  /-- The handles cleaners have been called for, oldest first. -/
  cleaned : List ArtifactHandle
  /-- The heavy values that have been released, oldest first. -/
  released : List ℕ

namespace JobRecord

/-- The resource under a field, if its value is one. -/
def resourceAt (job : JobRecord) (key : String) : Option ℕ :=
  match job.get? key with
  | some (.resource r) => some r
  | _ => none

/-- `_detach_heavy_values`: the resources it queues. -/
def detachHeavyValues (job : JobRecord) (keys : List String) : List ℕ :=
  keys.filterMap job.resourceAt

/-- The heavy fields whose value a merge replaces. Two values that own nothing need not be
told apart. -/
def replacedKeys (old fields : JobRecord) : List String :=
  heavyObjectKeys.filter fun key =>
    decide (key ∈ fields.keys ∧ key ∈ old.keys ∧ old.get? key ≠ fields.get? key)

/-- The heavy fields of a record that own something and must not outlive the job: none
while it runs or is completed. -/
def owningKeys (merged : JobRecord) : List String :=
  if merged.hasStatus .running || merged.hasStatus (.ended .completed) then []
  else heavyObjectKeys.filter fun key => (merged.resourceAt key).isSome

/-- `_heavy_objects_expires_at`. -/
def heavyObjectsExpiresAt (job : JobRecord) (heavyObjectTtl : ℕ) : Except PyError PyFloat :=
  match job.get? heavyObjectExpiresAtKey with
  | none | some (.plain .none) => do
    let completedAt ← expect (job.get? "completed_at") (.key "completed_at")
    let x ← floatOf completedAt
    .ok (x.addInt heavyObjectTtl)
  | some expiresAt => floatOf expiresAt

/-- `_prepare_heavy_object_policy_locked`, for a completed job whose `completed_at` is
set. -/
def stampExpiry (job : JobRecord) (heavyObjectTtl : ℕ) : Except PyError JobRecord :=
  if !job.hasHeavyObjects then .ok (job.without [heavyObjectExpiresAtKey])
  else if heavyObjectExpiresAtKey ∈ job.keys then .ok job
  else do
    let expiresAt ← job.heavyObjectsExpiresAt heavyObjectTtl
    .ok (job.insert heavyObjectExpiresAtKey (.plain (.float expiresAt)))

/-- `_prepare_heavy_object_policy_locked`. -/
def prepareHeavyObjectPolicy (job : JobRecord) (heavyObjectTtl : ℕ) (now : PyFloat) :
    Except PyError JobRecord :=
  if job.hasStatus (.ended .completed) then
    stampExpiry (job.setdefault "completed_at" (.plain (.float now))) heavyObjectTtl
  else .ok job

/-- The record a merge stores. -/
def merged (old fields : JobRecord) (heavyObjectTtl : ℕ) (now : PyFloat) :
    Except PyError JobRecord := do
  let job ← ((old.update fields).without (old.update fields).owningKeys).prepareHeavyObjectPolicy
    heavyObjectTtl now
  validateCommonRecord job
  .ok job

/-- The resources a merge detaches. -/
def mergeDetaches (old fields : JobRecord) : List ℕ :=
  old.detachHeavyValues (old.replacedKeys fields) ++
    (old.update fields).detachHeavyValues (old.update fields).owningKeys

/-- `job.get("artifact_handles", {}).values()`. -/
def artifactHandles (job : JobRecord) : Except PyError (List ArtifactHandle) :=
  match job.get? "artifact_handles" with
  | none => .ok []
  | some (.handles hs) => .ok (hs.entries.map Prod.snd)
  | some v => .error (.attribute ("'" ++ v.typeName ++ "' object has no attribute 'values'"))

/-- `job.get("artifact_handles") or {}`. -/
def artifactHandlesOrEmpty (job : JobRecord) : Except PyError (OrdDict String ArtifactHandle) :=
  match job.get? "artifact_handles" with
  | none | some (.plain .none) => .ok .empty
  | some (.handles hs) => .ok hs
  | some v => .error (.attribute ("'" ++ v.typeName ++ "' object has no attribute 'get'"))

/-- The record without its heavy values, as the sweep leaves it. -/
def cleared (job : JobRecord) (heavyObjectTtl : ℕ) (now : PyFloat) : JobRecord :=
  ((job.without (heavyObjectExpiresAtKey :: heavyObjectKeys)).insert "heavy_objects_cleared_at"
    (.plain (.float now))).insert "heavy_objects_retention_seconds" (.plain (.int heavyObjectTtl))

/-- The record without some of its fields, and without an expiry once it has no heavy
values. -/
def withoutResultData (job : JobRecord) (keys : List String) : JobRecord :=
  if (job.without keys).hasHeavyObjects then job.without keys
  else (job.without keys).without [heavyObjectExpiresAtKey]

end JobRecord

namespace JobStore

/-- `JobStore(ttl_seconds, heavy_object_ttl_seconds)`. -/
def new (ttlSeconds heavyObjectTtlSeconds : ℕ) : JobStore :=
  ⟨ttlSeconds, heavyObjectTtlSeconds, .empty, .empty, .empty, .empty, [], [], [], [], [], []⟩

/-- Queue resources for release after the lock. -/
def queueReleases (s : JobStore) (values : List ℕ) : JobStore :=
  { s with heavyReleases := s.heavyReleases ++ values }

/-- Queue a job's handles for cleaning after the lock. -/
def queueCleanup (s : JobStore) (jobId : String) (handles : List ArtifactHandle) : JobStore :=
  { s with cleanups := s.cleanups ++ [(jobId, handles)] }

/-- `self._jobs[job_id] = job`. -/
def putJob (s : JobStore) (jobId : String) (job : JobRecord) : JobStore :=
  { s with jobs := s.jobs.insert jobId job }

/-- `_record_running_activity_locked`. -/
def recordRunningActivity (s : JobStore) (jobId : String) (job : JobRecord) (now : PyFloat) :
    JobStore :=
  { s with runningActivityAt :=
      if job.hasStatus .running then s.runningActivityAt.insert jobId now
      else s.runningActivityAt.erase jobId }

/-- A job and its activity are gone. -/
def dropJob (s : JobStore) (jobId : String) : JobStore :=
  { s with
    jobs := s.jobs.erase jobId
    runningActivityAt := s.runningActivityAt.erase jobId }

/-! ### Merging -/

/-- What an operation is to merge into a job's record. -/
structure Merge where
  jobId : String
  old : JobRecord
  fields : JobRecord
  now : PyFloat

/-- `_store_merged_job_locked`. -/
def storeMergedJobLocked (m : Merge) : Effect JobStore PyError JobRecord := do
  -- what is detached is queued before the merged record is checked
  Effect.modify fun s => s.queueReleases (m.old.detachHeavyValues (m.old.replacedKeys m.fields))
  Effect.modify fun s => s.queueReleases
    ((m.old.update m.fields).detachHeavyValues (m.old.update m.fields).owningKeys)
  let s ← Effect.get
  let job ← Effect.ofExcept (m.old.merged m.fields s.heavyObjectTtlSeconds m.now)
  Effect.modify fun s => (s.putJob m.jobId job).recordRunningActivity m.jobId job m.now
  pure job

/-- An operation that decides what to merge, if anything, and merges it. -/
def merging (decide : JobStore → Except PyError (Option Merge)) :
    Effect JobStore PyError (Option JobRecord) := do
  let s ← Effect.get
  let request ← Effect.ofExcept (decide s)
  match request with
  | none => pure none
  | some m => do
    let job ← storeMergedJobLocked m
    pure (some job)

/-- `_validate_payload_fields`. -/
def validatePayloadFields (fields : JobRecord) : Except PyError Unit :=
  require (lifecycleKeys.filter (· ∈ fields.keys) = [])
    (.value ("Generic job updates may not set lifecycle fields: " ++
      reprList (lifecycleKeys.filter (· ∈ fields.keys))))

/-- A job's record, checked. -/
def requireRecord (s : JobStore) (jobId : String) : Except PyError JobRecord := do
  let old ← expect (s.jobs.get? jobId) (.key jobId)
  validateCommonRecord old
  .ok old

/-- Set the message and the elapsed time, where they are given. -/
def withReport (payload : JobRecord) (message : Option String) (elapsedSeconds : Option PyFloat) :
    JobRecord :=
  let payload := match message with
    | none => payload
    | some message => payload.insert "message" (.str message)
  match elapsedSeconds with
  | none => payload
  | some elapsed => payload.insert "elapsed_seconds" (.plain (.float elapsed))

/-- `LifecycleExpectedStatus`. -/
inductive ExpectedStatus where
  | running
  | completed
  deriving DecidableEq

/-- The status a transition expects. -/
def ExpectedStatus.status : ExpectedStatus → JobStatus
  | .running => .running
  | .completed => .ended .completed

/-- The arguments of `transition_terminal`; `now` is the one given, else the clock's. -/
structure Transition where
  jobId : String
  to_ : TerminalReason
  message : Option String
  fields : JobRecord
  expectedStatus : ExpectedStatus
  elapsedSeconds : Option PyFloat
  now : PyFloat

/-- The payload of a transition. -/
def Transition.payload (a : Transition) : JobRecord :=
  let payload := ((a.fields.insert "status" (.str a.to_.name)).insert "terminal_reason"
    (.str a.to_.name)).insert "ended_at" (.plain (.float a.now))
  let payload :=
    if a.to_ = .completed then payload.setdefault "completed_at" (.plain (.float a.now))
    else payload
  withReport payload a.message a.elapsedSeconds

/-- The reason a record gives for having ended, if it is one. -/
def terminalReason? (job : JobRecord) : Option TerminalReason :=
  match job.get? "terminal_reason" with
  | some (.plain (.str s)) => terminalReasons.find? fun reason => reason.name = s
  | _ => none

/-- A later reason replaces an earlier one of lower precedence. A completed job has no
precedence and is not replaced, and does not replace. -/
def supersedes (to_ old : TerminalReason) : Bool :=
  match to_.precedence, old.precedence with
  | some p, some q => decide (q < p)
  | _, _ => false

/-- Whether a transition is applied to the record. -/
def Transition.appliesTo (a : Transition) (old : JobRecord) : Bool :=
  old.hasStatus a.expectedStatus.status ||
    match terminalReason? old with
    | none => false
    | some reason => supersedes a.to_ reason

/-- What `transition_terminal` merges. -/
def Transition.request (a : Transition) (s : JobStore) : Except PyError (Option Merge) := do
  require (a.expectedStatus ≠ .completed ∨ a.to_ = .error)
    (.value "A completed lifecycle record may only be corrected to 'error'")
  validatePayloadFields a.fields
  let _ ← validateTimestamp "now" (.plain (.float a.now))
  let old ← s.requireRecord a.jobId
  .ok (if a.appliesTo old then some ⟨a.jobId, old, a.payload, a.now⟩ else none)

/-- `transition_terminal`. -/
def transitionTerminal (a : Transition) : Effect JobStore PyError (Option JobRecord) :=
  merging a.request

/-- The arguments of `compare_and_publish_completion`: `published` is what the publisher
returns, `none` where that is no mapping, or what it raises. What it does to the store meanwhile
is an event of its own. -/
structure Completion where
  jobId : String
  published : Except PyError (Option JobRecord)
  /-- The publisher left the job's record as it was. -/
  keepsRecord : Bool
  message : Option String
  elapsedSeconds : Option PyFloat
  /-- The time given. -/
  now : Option PyFloat
  /-- The clock. -/
  clock : PyFloat

/-- The payload of a completion. -/
def Completion.payload (a : Completion) (fields : JobRecord) (timestamp : PyFloat) : JobRecord :=
  withReport ((((fields.insert "status" (.str "completed")).insert "terminal_reason"
    (.str "completed")).insert "ended_at" (.plain (.float timestamp))).insert "completed_at"
      (.plain (.float timestamp))) a.message a.elapsedSeconds

/-- Check the time, where one is given. -/
def validateNow : Option PyFloat → Except PyError Unit
  | none => .ok ()
  | some now => do
    let _ ← validateTimestamp "now" (.plain (.float now))
    .ok ()

/-- What a completion of a running job merges. -/
def Completion.publish (a : Completion) (old : JobRecord) : Except PyError Merge := do
  let published ← a.published
  require a.keepsRecord (.runtime "completion publisher must not mutate its job record")
  let fields ← expect published (.value "completion publisher must return a mapping")
  validatePayloadFields fields
  let _ ← validateTimestamp "now" (.plain (.float (a.now.getD a.clock)))
  .ok ⟨a.jobId, old, a.payload fields (a.now.getD a.clock), a.now.getD a.clock⟩

/-- What `compare_and_publish_completion` merges. -/
def Completion.request (a : Completion) (s : JobStore) : Except PyError (Option Merge) := do
  validateNow a.now
  let old ← s.requireRecord a.jobId
  if old.hasStatus .running then (a.publish old).map some else .ok none

/-- `compare_and_publish_completion`. -/
def compareAndPublishCompletion (a : Completion) : Effect JobStore PyError (Option JobRecord) :=
  merging a.request

/-- The arguments of the guarded updates. -/
structure Update where
  jobId : String
  fields : JobRecord
  expectedStatus : Option String
  /-- The fields that must still be there. -/
  requiredKeys : List String
  now : PyFloat

/-- `_validate_expected_status`. -/
def validateExpectedStatus : Option String → Except PyError Unit
  | none => .ok ()
  | some status => require (JobStatus.ofName status).isSome
      (.value ("Unknown expected job status: " ++ pyRepr status))

/-- `job.get(key) is None`. -/
def fieldIsNone (job : JobRecord) (key : String) : Bool :=
  decide (job.get? key = none ∨ job.get? key = some (.plain .none))

/-- Whether an update is applied to the record. -/
def Update.appliesTo (a : Update) (old : JobRecord) : Bool :=
  a.expectedStatus.all (fun status => decide (old.get? "status" = some (.str status))) &&
    !a.requiredKeys.any (fieldIsNone old)

/-- What a guarded update merges. -/
def Update.request (a : Update) (s : JobStore) : Except PyError (Option Merge) := do
  validatePayloadFields a.fields
  validateExpectedStatus a.expectedStatus
  let old ← s.requireRecord a.jobId
  .ok (if a.appliesTo old then some ⟨a.jobId, old, a.fields, a.now⟩ else none)

/-- `atomic_update_if_heavy_present`. -/
def atomicUpdateIfHeavyPresent (a : Update) : Effect JobStore PyError (Option JobRecord) :=
  merging a.request

/-- `atomic_update`. -/
def atomicUpdate (jobId : String) (fields : JobRecord) (expectedStatus : Option String)
    (now : PyFloat) :
    Effect JobStore PyError (Option JobRecord) :=
  atomicUpdateIfHeavyPresent ⟨jobId, fields, expectedStatus, [], now⟩

/-- `update_job`. -/
def updateJob (jobId : String) (fields : JobRecord) (now : PyFloat) :
    Effect JobStore PyError JobRecord := do
  let result ← atomicUpdate jobId fields none now
  Effect.ofExcept (expect result (.runtime "unguarded job update was unexpectedly skipped"))

/-! ### Sweeping -/

/-- `_clear_heavy_objects_locked`. -/
def clearHeavyObjectsLocked (jobId : String) (job : JobRecord) (now : PyFloat) :
    Effect JobStore PyError Unit := do
  Effect.ofExcept (validateCommonRecord job)
  Effect.modify fun s => s.queueReleases (job.detachHeavyValues heavyObjectKeys)
  let s ← Effect.get
  Effect.ofExcept (validateCommonRecord (job.cleared s.heavyObjectTtlSeconds now))
  Effect.modify fun s => s.putJob jobId (job.cleared s.heavyObjectTtlSeconds now)

/-- Clear a completed job's heavy values once they are due. -/
def clearIfExpired (now : PyFloat) (entry : String × JobRecord) : Effect JobStore PyError Unit := do
  Effect.ofExcept (validateCommonRecord entry.2)
  if entry.2.hasStatus (.ended .completed) && entry.2.hasHeavyObjects then do
    let s ← Effect.get
    let expiresAt ← Effect.ofExcept (entry.2.heavyObjectsExpiresAt s.heavyObjectTtlSeconds)
    if now.lt expiresAt then pure () else clearHeavyObjectsLocked entry.1 entry.2 now
  else pure ()

/-- `_clear_expired_heavy_objects_locked`. -/
def clearExpiredHeavyObjectsLocked (now : PyFloat) : Effect JobStore PyError Unit := do
  let s ← Effect.get
  Effect.forEach (clearIfExpired now) s.jobs.entries

/-- `_clear_expired_heavy_objects`, for one job: a timer's callback. -/
def clearExpiredHeavyObjects (jobId : String) (now : PyFloat) : Effect JobStore PyError Unit := do
  let s ← Effect.get
  match s.jobs.get? jobId with
  | none => pure ()
  | some job => do
    Effect.ofExcept (validateCommonRecord job)
    if job.hasStatus (.ended .completed) then do
      let expiresAt ← Effect.ofExcept (job.heavyObjectsExpiresAt s.heavyObjectTtlSeconds)
      if expiresAt.le now && job.hasHeavyObjects then clearHeavyObjectsLocked jobId job now
      else pure ()
    else pure ()

/-- `_remove_job_locked`. -/
def removeJobLocked (jobId : String) : Effect JobStore PyError Unit := do
  let s ← Effect.get
  match s.jobs.get? jobId with
  | none => pure ()
  | some job => do
    let handles ← Effect.ofExcept job.artifactHandles
    Effect.modify fun s => ((s.queueReleases (job.detachHeavyValues heavyObjectKeys)).dropJob
      jobId).queueCleanup jobId handles

/-- `float(job["created_at"])`. -/
def createdAt (job : JobRecord) : Except PyError PyFloat := do
  let v ← expect (job.get? "created_at") (.key "created_at")
  floatOf v

/-- `_job_eviction_timestamp_locked`. -/
def jobEvictionTimestampLocked (jobId : String) (job : JobRecord) :
    Effect JobStore PyError PyFloat :=
  if job.hasStatus .running then do
    let created ← Effect.ofExcept (createdAt job)
    let s ← Effect.get
    pure ((s.runningActivityAt.get? jobId).getD created)
  else do
    Effect.modify fun s => { s with runningActivityAt := s.runningActivityAt.erase jobId }
    Effect.ofExcept (createdAt job)

/-- Whether a job's metadata has outlived its TTL. -/
def isStale (now : PyFloat) (entry : String × JobRecord) : Effect JobStore PyError Bool := do
  let timestamp ← jobEvictionTimestampLocked entry.1 entry.2
  let s ← Effect.get
  pure (timestamp.lt (now.addInt (-s.ttlSeconds)))

/-- `_evict_stale_locked`. -/
def evictStaleLocked (now : PyFloat) : Effect JobStore PyError Unit := do
  clearExpiredHeavyObjectsLocked now
  let s ← Effect.get
  let stale ← Effect.filterM (isStale now) s.jobs.entries
  Effect.forEach (fun entry => removeJobLocked entry.1) stale

/-! ### The public operations -/

/-- `create_job`, for the id the UUID gives; the clock is read twice. -/
def createJob (jobId : String) (initialStatus : JobRecord) (now now' : PyFloat) :
    Effect JobStore PyError String := do
  Effect.ofExcept do
    require (initialStatus.hasStatus .running) (.value "New jobs must have status 'running'")
    require (terminalKeys.filter (· ∈ initialStatus.keys) = [])
      (.value ("New jobs may not include terminal metadata: " ++
        reprList (terminalKeys.filter (· ∈ initialStatus.keys))))
    match initialStatus.get? "created_at" with
    | none | some (.plain .none) => .ok ()
    | some createdAt => do
      let _ ← validateTimestamp "created_at" createdAt
      .ok ()
  evictStaleLocked now
  Effect.ofExcept (validateCommonRecord
    (initialStatus.setdefault "created_at" (.plain (.float now'))))
  Effect.modify fun s => (s.putJob jobId
    (initialStatus.setdefault "created_at" (.plain (.float now')))).recordRunningActivity jobId
      (initialStatus.setdefault "created_at" (.plain (.float now'))) now'
  pure jobId

/-- `_snapshot`. -/
def snapshot (job : JobRecord) : Effect JobStore PyError JobRecord := do
  Effect.ofExcept (validateCommonRecord job)
  pure job

/-- `get_job`. -/
def getJob (jobId : String) (now : PyFloat) : Effect JobStore PyError (Option JobRecord) := do
  evictStaleLocked now
  let s ← Effect.get
  match s.jobs.get? jobId with
  | none => pure none
  | some job => do
    let job ← snapshot job
    pure (some job)

/-- `list_jobs`. -/
def listJobs (now : PyFloat) : Effect JobStore PyError (OrdDict String JobRecord) := do
  evictStaleLocked now
  let s ← Effect.get
  Effect.forEach (fun entry => do let _ ← snapshot entry.2) s.jobs.entries
  pure s.jobs

/-- `has_job_matching`. -/
def hasJobMatching (predicate : JobRecord → Bool) (now : PyFloat) :
    Effect JobStore PyError Bool := do
  evictStaleLocked now
  let s ← Effect.get
  pure (s.jobs.entries.any fun entry => predicate entry.2)

/-- `has_job_with_status`. -/
def hasJobWithStatus (status : String) (now : PyFloat) : Effect JobStore PyError Bool := do
  Effect.ofExcept (validateExpectedStatus (some status))
  hasJobMatching (fun job => decide (job.get? "status" = some (.str status))) now

/-- The expiry a successful access gives a job's heavy values, if it is later than theirs. -/
def refreshedExpiry (s : JobStore) (job : JobRecord) (requiredKeys : List String) (now : PyFloat) :
    Except PyError (Bool × Option JobRecord) :=
  if job.hasStatus (.ended .completed) && !requiredKeys.any (fieldIsNone job) then do
    let created ← createdAt job
    let current ← job.heavyObjectsExpiresAt s.heavyObjectTtlSeconds
    let refreshed := (now.addInt s.heavyObjectTtlSeconds).min (created.addInt s.ttlSeconds)
    if current.lt refreshed then do
      validateCommonRecord (job.insert heavyObjectExpiresAtKey (.plain (.float refreshed)))
      .ok (true, some (job.insert heavyObjectExpiresAtKey (.plain (.float refreshed))))
    else .ok (true, none)
  else .ok (false, none)

/-- `touch_heavy_objects`; the clock is read twice. -/
def touchHeavyObjects (jobId : String) (requiredKeys : List String) (now now' : PyFloat) :
    Effect JobStore PyError Bool := do
  evictStaleLocked now
  let s ← Effect.get
  match s.jobs.get? jobId with
  | none => pure false
  | some job => do
    let (present, updated) ← Effect.ofExcept (s.refreshedExpiry job requiredKeys now')
    match updated with
    | none => pure present
    | some job => do
      Effect.modify fun s => s.putJob jobId job
      pure present

/-- `clear_result_data`. -/
def clearResultData (jobId : String) (keys : List String) : Effect JobStore PyError Unit := do
  let s ← Effect.get
  match s.jobs.get? jobId with
  | none => pure ()
  | some job => do
    Effect.ofExcept (validateCommonRecord job)
    Effect.modify fun s =>
      s.queueReleases (job.detachHeavyValues (keys.filter (· ∈ heavyObjectKeys)))
    Effect.ofExcept (validateCommonRecord (job.withoutResultData keys))
    Effect.modify fun s => s.putJob jobId (job.withoutResultData keys)

/-- `delete_job`. -/
def deleteJob (jobId : String) : Effect JobStore PyError Unit := removeJobLocked jobId

/-- `clear_all`. -/
def clearAll : Effect JobStore PyError Unit := do
  let s ← Effect.get
  Effect.forEach removeJobLocked s.jobs.keys
  Effect.modify fun s => { s with runningActivityAt := .empty }

/-! ### Artifacts -/

/-- `detach_artifact_handle`. -/
def detachArtifactHandle (jobId key : String) : Effect JobStore PyError Bool := do
  let s ← Effect.get
  match s.jobs.get? jobId with
  | none => pure false
  | some old => do
    let handles ← Effect.ofExcept old.artifactHandlesOrEmpty
    match handles.get? key with
    | none => pure false
    | some handle => do
      Effect.modify fun s => (s.putJob jobId (old.insert "artifact_handles"
        (.handles (handles.erase key)))).queueCleanup jobId [handle]
      pure true

/-- A lease's first half: the handle is held until the reader is done. -/
def lease (jobId key : String) (now : PyFloat) : Effect JobStore PyError ArtifactHandle := do
  evictStaleLocked now
  let s ← Effect.get
  let job ← Effect.ofExcept (expect (s.jobs.get? jobId)
    (.artifactHandleUnavailable ("Job " ++ pyRepr jobId ++ " no longer exists.")))
  let handles ← Effect.ofExcept job.artifactHandlesOrEmpty
  let handle ← Effect.ofExcept (expect (handles.get? key)
    (.artifactHandleUnavailable
      ("Job " ++ pyRepr jobId ++ " holds no " ++ pyRepr key ++ " artifact.")))
  Effect.modify fun s => { s with
    artifactLeases := s.artifactLeases.upsert (artifactLeaseKey handle) fun n => n.getD 0 + 1
    leases := handle :: s.leases }
  pure handle

/-- One lease of a key is given back: the handle deferred for it goes to its cleaner with
the last. -/
def releaseLeaseOf (s : JobStore) (key : LeaseKey) (remaining : ℕ) : JobStore :=
  if remaining = 0 then
    { s with
      artifactLeases := s.artifactLeases.erase key
      deferredArtifactCleanups := s.deferredArtifactCleanups.erase key
      cleaning := s.cleaning ++ ((s.deferredArtifactCleanups.get? key).map Prod.snd).toList }
  else { s with artifactLeases := s.artifactLeases.insert key remaining }

/-- A lease's second half, once the reader is done. -/
def endLease (handle : ArtifactHandle) : Effect JobStore PyError Unit := do
  let s ← Effect.get
  let n ← Effect.ofExcept (expect (s.artifactLeases.get? (artifactLeaseKey handle))
    (.key (artifactLeaseKey handle).2))
  Effect.modify fun s => { s.releaseLeaseOf (artifactLeaseKey handle) (n - 1) with
    leases := s.leases.erase handle }

/-- One handle of `_cleanup_artifact_handles`: deferred while it is leased. -/
def cleanupArtifactHandle (jobId : String) (s : JobStore) (handle : ArtifactHandle) : JobStore :=
  if 0 < (s.artifactLeases.get? (artifactLeaseKey handle)).getD 0 then
    { s with deferredArtifactCleanups :=
        s.deferredArtifactCleanups.insert (artifactLeaseKey handle) (jobId, handle) }
  else { s with cleaning := s.cleaning ++ [handle] }

/-- `_cleanup_artifact_handles`, under the lock. -/
def cleanupArtifactHandles (jobId : String) (handles : List ArtifactHandle) (s : JobStore) :
    JobStore :=
  handles.foldl (cleanupArtifactHandle jobId) s

/-- `release_detached_artifact_handles`. -/
def releaseDetachedArtifactHandles (jobId : String) (handles : List ArtifactHandle) :
    Effect JobStore PyError Unit := Effect.modify (cleanupArtifactHandles jobId handles)

end JobStore

end Haute
