import Haute.Data.Runs
import Haute.Jobs.Sweep

/-!
# Runs of the job store

A run takes the sections under the lock, and the work its threads do after them, one at a
time in any order. A UUID is new: a job is created under an id no job has. A thread
releases and cleans what it has queued, and gives back a lease it holds.

After the machine, what each operation does besides sweeping.
-/

namespace Haute

/-- Stamping the expiry of a completed job's heavy values touches two fields. -/
theorem JobRecord.get?_of_prepareHeavyObjectPolicy {job new : JobRecord} {ttl : ℕ} {now : PyFloat}
    {key : String} (h : job.prepareHeavyObjectPolicy ttl now = .ok new)
    (hkey : key ≠ "completed_at")
    (hexpires : key ≠ heavyObjectExpiresAtKey) : new.get? key = job.get? key := by
  have hset : (job.setdefault "completed_at" (.plain (.float now))).get? key = job.get? key :=
    OrdDict.get?_upsert_ne hkey _ _
  unfold prepareHeavyObjectPolicy stampExpiry at h
  split_ifs at h
  · cases h
    rw [get?_without, if_neg (by simpa using hexpires), hset]
  · cases h
    exact hset
  · obtain ⟨expiresAt, -, h⟩ := bind_eq_ok_iff.mp h
    cases h
    rw [OrdDict.insert, OrdDict.get?_upsert_ne hexpires, hset]
  · cases h
    rfl

/-- The fields a merge writes itself are two. -/
theorem JobRecord.get?_of_merged {old fields new : JobRecord} {ttl : ℕ}
    {now : PyFloat} {key : String}
    (h : old.merged fields ttl now = .ok new) (hkey : key ≠ "completed_at")
    (hexpires : key ≠ heavyObjectExpiresAtKey) :
    new.get? key = if key ∈ (old.update fields).owningKeys then none
      else (fields.get? key).or (old.get? key) := by
  unfold merged at h
  obtain ⟨job, hjob, h⟩ := bind_eq_ok_iff.mp h
  obtain ⟨_, -, h⟩ := bind_eq_ok_iff.mp h
  cases h
  rw [get?_of_prepareHeavyObjectPolicy hjob hkey hexpires, get?_without, get?_update]

/-- A merged record passes its check. -/
theorem JobRecord.check_of_merged {old fields new : JobRecord} {ttl : ℕ} {now : PyFloat}
    (h : old.merged fields ttl now = .ok new) : validateCommonRecord new = .ok () := by
  unfold merged at h
  obtain ⟨job, -, h⟩ := bind_eq_ok_iff.mp h
  obtain ⟨_, hcheck, h⟩ := bind_eq_ok_iff.mp h
  cases h
  exact hcheck

namespace JobStore

open Relation (ReflTransGen)

/-- One section under the lock, or one piece of the work after it. -/
inductive JobEvent where
  | createJob (jobId : String) (initialStatus : JobRecord) (now now' : PyFloat)
  | getJob (jobId : String) (now : PyFloat)
  | listJobs (now : PyFloat)
  | hasJobMatching (predicate : JobRecord → Bool) (now : PyFloat)
  | hasJobWithStatus (status : String) (now : PyFloat)
  | touchHeavyObjects (jobId : String) (requiredKeys : List String) (now now' : PyFloat)
  /-- A timer's callback. -/
  | timer (jobId : String) (now : PyFloat)
  | transitionTerminal (a : Transition)
  | compareAndPublishCompletion (a : Completion)
  /-- `atomic_update_if_heavy_present`, and so `atomic_update` and `update_job`. -/
  | update (a : Update)
  | clearResultData (jobId : String) (keys : List String)
  | deleteJob (jobId : String)
  | clearAll
  | detachArtifactHandle (jobId key : String)
  | releaseDetachedArtifactHandles (jobId : String) (handles : List ArtifactHandle)
  | lease (jobId key : String) (now : PyFloat)
  | endLease (handle : ArtifactHandle)
  /-- A thread takes up the handles it has detached. -/
  | cleanup (jobId : String) (handles : List ArtifactHandle)
  /-- A thread calls a handle's cleaner. -/
  | clean (handle : ArtifactHandle)
  /-- A thread releases a heavy value it has detached. -/
  | release (value : ℕ)

/-- Whether the event can happen: a UUID is new, and threads do the work they have. -/
def enabled (s : JobStore) : JobEvent → Prop
  | .createJob jobId _ _ _ => jobId ∉ s.jobs.keys
  | .endLease handle => handle ∈ s.leases
  | .cleanup jobId handles => (jobId, handles) ∈ s.cleanups
  | .clean handle => handle ∈ s.cleaning
  | .release value => value ∈ s.heavyReleases
  | _ => True

/-- `_run_artifact_cleaners`, for one handle: a kind without a cleaner is only logged. -/
def runCleaner (cleaners : List String) (handle : ArtifactHandle) (s : JobStore) : JobStore :=
  { s with
    cleaning := s.cleaning.erase handle
    cleaned := if handle.kind ∈ cleaners then s.cleaned ++ [handle] else s.cleaned }

/-- `_release_heavy_values`, for one value. -/
def releaseHeavyValue (value : ℕ) (s : JobStore) : JobStore :=
  { s with
    heavyReleases := s.heavyReleases.erase value
    released := s.released ++ [value] }

/-- What an event does. -/
def perform (cleaners : List String) : JobEvent → Effect JobStore PyError Unit
  | .createJob jobId initialStatus now now' => (createJob jobId initialStatus now now').void
  | .getJob jobId now => (getJob jobId now).void
  | .listJobs now => (listJobs now).void
  | .hasJobMatching predicate now => (hasJobMatching predicate now).void
  | .hasJobWithStatus status now => (hasJobWithStatus status now).void
  | .touchHeavyObjects jobId requiredKeys now now' =>
    (touchHeavyObjects jobId requiredKeys now now').void
  | .timer jobId now => clearExpiredHeavyObjects jobId now
  | .transitionTerminal a => (transitionTerminal a).void
  | .compareAndPublishCompletion a => (compareAndPublishCompletion a).void
  | .update a => (atomicUpdateIfHeavyPresent a).void
  | .clearResultData jobId keys => clearResultData jobId keys
  | .deleteJob jobId => deleteJob jobId
  | .clearAll => clearAll
  | .detachArtifactHandle jobId key => (detachArtifactHandle jobId key).void
  | .releaseDetachedArtifactHandles jobId handles => releaseDetachedArtifactHandles jobId handles
  | .lease jobId key now => (lease jobId key now).void
  | .endLease handle => endLease handle
  | .cleanup jobId handles => Effect.modify fun s => cleanupArtifactHandles jobId handles
      { s with cleanups := s.cleanups.erase (jobId, handles) }
  | .clean handle => Effect.modify (runCleaner cleaners handle)
  | .release value => Effect.modify (releaseHeavyValue value)

/-- The runs of a store, whose handles the given kinds have cleaners for. -/
def machine (cleaners : List String) (ttlSeconds heavyObjectTtlSeconds : ℕ) :
    Machine JobStore JobEvent where
  init s := s = new ttlSeconds heavyObjectTtlSeconds
  step s e t := s.enabled e ∧ t = (perform cleaners e s).2

/-- What an event asks to merge into a job's record: nothing, if it raises first, or finds
the job in another state. -/
def requested (s : JobStore) : JobEvent → Option Merge
  | .transitionTerminal a => (a.request s).toOption.join
  | .compareAndPublishCompletion a => (a.request s).toOption.join
  | .update a => (a.request s).toOption.join
  | _ => none

variable {s t : JobStore}

/-! ### Sweeps -/

open Effect (Moves)

/-- A snapshot leaves the store. -/
theorem snapshot_apply_snd (job : JobRecord) (s : JobStore) : (snapshot job s).2 = s := by
  unfold snapshot
  exact Effect.bind_apply_snd (fun _ _ => rfl) s

/-- A read leaves what its eviction left. -/
theorem getJob_apply_snd (jobId : String) (now : PyFloat) (s : JobStore) :
    (getJob jobId now s).2 = (evictStaleLocked now s).2 := by
  refine Effect.bind_apply_snd (fun _ t => ?_) s
  simp only [Effect.bind_apply, Effect.get_apply]
  rcases t.jobs.get? jobId with _ | job
  · rfl
  · exact (Effect.bind_apply_snd (fun _ _ => rfl) t).trans (snapshot_apply_snd job t)

/-- Listing jobs changes the store as its eviction does. -/
theorem listJobs_apply_snd (now : PyFloat) (s : JobStore) :
    (listJobs now s).2 = (evictStaleLocked now s).2 := by
  refine Effect.bind_apply_snd (fun _ t => ?_) s
  simp only [Effect.bind_apply, Effect.get_apply]
  refine (Effect.bind_apply_snd (fun _ _ => rfl) t).trans
    (Effect.forEach_apply_snd (fun entry u => ?_) _ t)
  exact (Effect.bind_apply_snd (fun _ _ => rfl) u).trans (snapshot_apply_snd entry.2 u)

/-- Looking for a job changes the store as its eviction does. -/
theorem hasJobMatching_apply_snd (predicate : JobRecord → Bool) (now : PyFloat) (s : JobStore) :
    (hasJobMatching predicate now s).2 = (evictStaleLocked now s).2 :=
  Effect.bind_apply_snd (fun _ _ => rfl) s

/-- Clearing everything is a sweep. -/
theorem sweeps_clearAll : Moves Sweeps clearAll :=
  .bind .get fun _ => .bind (.forEach sweeps_removeJobLocked _) fun _ t => .single (.activity t _)

/-- A timer's callback clears one job's heavy values, if anything. -/
theorem sweeps_clearExpiredHeavyObjects (jobId : String) (now : PyFloat) :
    Moves Sweeps (clearExpiredHeavyObjects jobId now) := by
  intro s
  unfold clearExpiredHeavyObjects
  simp only [Effect.bind_apply, Effect.get_apply]
  rcases hjob : s.jobs.get? jobId with _ | job
  · exact .refl
  simp only [Effect.bind_apply, Effect.ofExcept_apply]
  rcases hcheck : validateCommonRecord job with e | _
  · exact .refl
  simp only
  split_ifs with hcompleted
  · simp only [Effect.bind_apply, Effect.ofExcept_apply]
    rcases job.heavyObjectsExpiresAt s.heavyObjectTtlSeconds with e | expiresAt
    · exact .refl
    simp only
    split_ifs with hdue
    · have hvalid := valid_of_check hcheck hcompleted
      rw [clearHeavyObjectsLocked_apply hvalid]
      exact .single (.clear s jobId job now hjob hvalid)
    · exact .refl
  · exact .refl

/-! ### Artifacts and leases leave the jobs alone -/

/-- Cleaning handles up leaves the jobs and the heavy objects' releases. -/
theorem cleanupArtifactHandles_frame (jobId : String) (handles : List ArtifactHandle)
    (s : JobStore) :
    (cleanupArtifactHandles jobId handles s).jobs = s.jobs ∧
      (cleanupArtifactHandles jobId handles s).heavyReleases = s.heavyReleases ∧
      (cleanupArtifactHandles jobId handles s).released = s.released := by
  unfold cleanupArtifactHandles
  induction handles generalizing s with
  | nil => exact ⟨rfl, rfl, rfl⟩
  | cons handle handles ih =>
    obtain ⟨h1, h2, h3⟩ := ih (cleanupArtifactHandle jobId s handle)
    have hone : (cleanupArtifactHandle jobId s handle).jobs = s.jobs ∧
        (cleanupArtifactHandle jobId s handle).heavyReleases = s.heavyReleases ∧
        (cleanupArtifactHandle jobId s handle).released = s.released := by
      unfold cleanupArtifactHandle
      split_ifs <;> exact ⟨rfl, rfl, rfl⟩
    exact ⟨h1.trans hone.1, h2.trans hone.2.1, h3.trans hone.2.2⟩

/-- Ending a lease leaves the jobs and the heavy objects' releases. -/
theorem releaseLeaseOf_frame (s : JobStore) (key : LeaseKey) (remaining : ℕ) :
    (s.releaseLeaseOf key remaining).jobs = s.jobs ∧
      (s.releaseLeaseOf key remaining).heavyReleases = s.heavyReleases ∧
      (s.releaseLeaseOf key remaining).released = s.released := by
  unfold releaseLeaseOf
  split_ifs <;> exact ⟨rfl, rfl, rfl⟩

/-! ### Merges -/

/-- **What a merge does.** The resources it detaches are queued even when the merged record
does not pass its check. -/
theorem storeMergedJobLocked_apply (m : Merge) (s : JobStore) :
    storeMergedJobLocked m s = match m.old.merged m.fields s.heavyObjectTtlSeconds m.now with
      | .error e => (.error e, s.queueReleases (m.old.mergeDetaches m.fields))
      | .ok job => (.ok job, ((s.queueReleases (m.old.mergeDetaches m.fields)).putJob m.jobId
          job).recordRunningActivity m.jobId job m.now) := by
  have hqueue (a b : List ℕ) : (s.queueReleases a).queueReleases b = s.queueReleases (a ++ b) := by
    simp [queueReleases]
  have httl (a : List ℕ) : (s.queueReleases a).heavyObjectTtlSeconds =
      s.heavyObjectTtlSeconds := rfl
  unfold storeMergedJobLocked
  simp only [Effect.bind_apply, Effect.modify_apply, Effect.get_apply,
    Effect.ofExcept_apply, hqueue,
    httl, JobRecord.mergeDetaches]
  rcases m.old.merged m.fields s.heavyObjectTtlSeconds m.now with e | job <;> rfl

/-- An operation that merges: what it asks for is merged, and otherwise it does nothing. -/
theorem merging_apply (decide : JobStore → Except PyError (Option Merge)) (s : JobStore) :
    (merging decide s).2 = match (decide s).toOption.join with
      | none => s
      | some m => (storeMergedJobLocked m s).2 := by
  unfold merging
  simp only [Effect.bind_apply, Effect.get_apply, Effect.ofExcept_apply]
  rcases decide s with e | _ | m
  · rfl
  · rfl
  · simp only [Effect.bind_apply, Except.toOption, Option.join_some]
    rcases storeMergedJobLocked m s with ⟨_ | job, t⟩ <;> rfl

/-- The events that merge do what they ask for, and nothing else. -/
theorem perform_of_requested {cleaners : List String} {e : JobEvent} {m : Merge}
    (h : s.requested e = some m) : (perform cleaners e s).2 = (storeMergedJobLocked m s).2 := by
  cases e
  case transitionTerminal a | compareAndPublishCompletion a | update a =>
    rw [perform, Effect.void_apply_snd]
    refine (merging_apply _ s).trans ?_
    change (Except.toOption _).join = some m at h
    rw [h]
  all_goals cases h

/-- A record is required when it is held and valid. -/
theorem requireRecord_eq_ok_iff {jobId : String} {job : JobRecord} :
    s.requireRecord jobId = .ok job ↔
      s.jobs.get? jobId = some job ∧ validateCommonRecord job = .ok () := by
  unfold requireRecord
  rw [bind_eq_ok_iff]
  constructor
  · rintro ⟨old, hold, h⟩
    obtain ⟨_, hcheck, h⟩ := bind_eq_ok_iff.mp h
    cases h
    exact ⟨expect_eq_ok_iff.mp hold, hcheck⟩
  · rintro ⟨hold, hcheck⟩
    exact ⟨job, expect_eq_ok_iff.mpr hold, bind_eq_ok_iff.mpr ⟨(), hcheck, rfl⟩⟩

/-- **What a transition asks for.** -/
theorem Transition.request_eq_some_iff {a : Transition} {m : Merge} :
    a.request s = .ok (some m) ↔
      (a.expectedStatus ≠ .completed ∨ a.to_ = .error) ∧ validatePayloadFields a.fields = .ok () ∧
      (∃ x, validateTimestamp "now" (.plain (.float a.now)) = .ok x) ∧
      s.requireRecord a.jobId = .ok m.old ∧ a.appliesTo m.old = true ∧
      m = ⟨a.jobId, m.old, a.payload, a.now⟩ := by
  unfold Transition.request
  constructor
  · intro h
    obtain ⟨_, hexpected, h⟩ := bind_eq_ok_iff.mp h
    obtain ⟨_, hfields, h⟩ := bind_eq_ok_iff.mp h
    obtain ⟨x, hx, h⟩ := bind_eq_ok_iff.mp h
    obtain ⟨old, hold, h⟩ := bind_eq_ok_iff.mp h
    have h := Except.ok.inj h
    split_ifs at h with happlies
    obtain rfl := Option.some.inj h
    exact ⟨of_decide_eq_true (require_eq_ok_iff.mp hexpected), hfields, ⟨x, hx⟩,
      hold, happlies, rfl⟩
  · rintro ⟨hexpected, hfields, ⟨x, hx⟩, hold, happlies, hm⟩
    refine bind_eq_ok_iff.mpr ⟨(), require_eq_ok_iff.mpr (decide_eq_true hexpected), ?_⟩
    refine bind_eq_ok_iff.mpr ⟨(), hfields, bind_eq_ok_iff.mpr ⟨x, hx, ?_⟩⟩
    refine bind_eq_ok_iff.mpr ⟨m.old, hold, ?_⟩
    rw [if_pos happlies, ← hm]

/-- **What a completion asks for.** -/
theorem Completion.request_eq_some_iff {a : Completion} {m : Merge} :
    a.request s = .ok (some m) ↔ validateNow a.now = .ok () ∧ s.requireRecord a.jobId = .ok m.old ∧
      m.old.hasStatus .running = true ∧ a.publish m.old = .ok m := by
  unfold Completion.request
  constructor
  · intro h
    obtain ⟨_, hnow, h⟩ := bind_eq_ok_iff.mp h
    obtain ⟨old, hold, h⟩ := bind_eq_ok_iff.mp h
    split_ifs at h with hrunning
    · obtain ⟨m', hm', h⟩ := map_eq_ok_iff.mp h
      obtain rfl := Option.some.inj h
      have hold' : m'.old = old := by
        unfold Completion.publish at hm'
        obtain ⟨_, _, hm'⟩ := bind_eq_ok_iff.mp hm'
        obtain ⟨_, _, hm'⟩ := bind_eq_ok_iff.mp hm'
        obtain ⟨_, _, hm'⟩ := bind_eq_ok_iff.mp hm'
        obtain ⟨_, _, hm'⟩ := bind_eq_ok_iff.mp hm'
        obtain ⟨_, _, hm'⟩ := bind_eq_ok_iff.mp hm'
        cases hm'
        rfl
      rw [hold']
      exact ⟨hnow, hold, hrunning, hm'⟩
    · cases h
  · rintro ⟨hnow, hold, hrunning, hm⟩
    refine bind_eq_ok_iff.mpr ⟨(), hnow, bind_eq_ok_iff.mpr ⟨m.old, hold, ?_⟩⟩
    rw [if_pos hrunning]
    exact map_eq_ok_iff.mpr ⟨m, hm, rfl⟩

/-- **What an update asks for.** -/
theorem Update.request_eq_some_iff {a : Update} {m : Merge} :
    a.request s = .ok (some m) ↔
      validatePayloadFields a.fields = .ok () ∧ validateExpectedStatus a.expectedStatus = .ok () ∧
      s.requireRecord a.jobId = .ok m.old ∧ a.appliesTo m.old = true ∧
      m = ⟨a.jobId, m.old, a.fields, a.now⟩ := by
  unfold Update.request
  constructor
  · intro h
    obtain ⟨_, hfields, h⟩ := bind_eq_ok_iff.mp h
    obtain ⟨_, hexpected, h⟩ := bind_eq_ok_iff.mp h
    obtain ⟨old, hold, h⟩ := bind_eq_ok_iff.mp h
    have h := Except.ok.inj h
    split_ifs at h with happlies
    obtain rfl := Option.some.inj h
    exact ⟨hfields, hexpected, hold, happlies, rfl⟩
  · rintro ⟨hfields, hexpected, hold, happlies, hm⟩
    refine bind_eq_ok_iff.mpr ⟨(), hfields, bind_eq_ok_iff.mpr ⟨(), hexpected, ?_⟩⟩
    refine bind_eq_ok_iff.mpr ⟨m.old, hold, ?_⟩
    rw [if_pos happlies, ← hm]

theorem toOption_join_eq_some_iff {x : Except PyError (Option Merge)} {m : Merge} :
    x.toOption.join = some m ↔ x = .ok (some m) := by
  rcases x with e | _ | m' <;> simp [Except.toOption]

/-- What is merged is merged into the job's record. -/
theorem get?_of_requested {e : JobEvent} {m : Merge} (h : s.requested e = some m) :
    s.jobs.get? m.jobId = some m.old ∧ validateCommonRecord m.old = .ok () := by
  cases e
  case transitionTerminal a =>
    obtain ⟨-, -, -, hold, -, hm⟩ :=
      Transition.request_eq_some_iff.mp (toOption_join_eq_some_iff.mp h)
    rw [hm]
    exact requireRecord_eq_ok_iff.mp hold
  case compareAndPublishCompletion a =>
    obtain ⟨-, hold, -, hm⟩ := Completion.request_eq_some_iff.mp (toOption_join_eq_some_iff.mp h)
    unfold Completion.publish at hm
    obtain ⟨_, _, hm⟩ := bind_eq_ok_iff.mp hm
    obtain ⟨_, _, hm⟩ := bind_eq_ok_iff.mp hm
    obtain ⟨_, _, hm⟩ := bind_eq_ok_iff.mp hm
    obtain ⟨_, _, hm⟩ := bind_eq_ok_iff.mp hm
    obtain ⟨_, _, hm⟩ := bind_eq_ok_iff.mp hm
    have hid : m.jobId = a.jobId := (congrArg Merge.jobId (Except.ok.inj hm)).symm
    rw [hid]
    exact requireRecord_eq_ok_iff.mp hold
  case update a =>
    obtain ⟨-, -, hold, -, hm⟩ := Update.request_eq_some_iff.mp (toOption_join_eq_some_iff.mp h)
    rw [hm]
    exact requireRecord_eq_ok_iff.mp hold
  all_goals cases h

/-! ### Every operation -/

/-- What an operation does after it has swept the store. -/
inductive OwnPart (cleaners : List String) : JobEvent → JobStore → JobStore → Prop where
  /-- It reads, or it raises. -/
  | nothing (e : JobEvent) (s : JobStore) : OwnPart cleaners e s s
  | create (s : JobStore) {jobId : String} {initialStatus : JobRecord} {now now' : PyFloat}
      (hstatus : initialStatus.hasStatus .running = true)
      (hcheck : validateCommonRecord
        (initialStatus.setdefault "created_at" (.plain (.float now'))) = .ok ()) :
      OwnPart cleaners (.createJob jobId initialStatus now now') s
        ((s.putJob jobId (initialStatus.setdefault "created_at"
          (.plain (.float now')))).recordRunningActivity jobId
            (initialStatus.setdefault "created_at" (.plain (.float now'))) now')
  | touch (s : JobStore) {jobId : String} {requiredKeys : List String} {now now' : PyFloat}
      {job : JobRecord} {expiresAt : PyFloat} (hjob : s.jobs.get? jobId = some job)
      (hcheck : validateCommonRecord
        (job.insert heavyObjectExpiresAtKey (.plain (.float expiresAt))) = .ok ()) :
      OwnPart cleaners (.touchHeavyObjects jobId requiredKeys now now') s
        (s.putJob jobId (job.insert heavyObjectExpiresAtKey (.plain (.float expiresAt))))
  | merge (s : JobStore) {e : JobEvent} {m : Merge} (h : s.requested e = some m) :
      OwnPart cleaners e s (storeMergedJobLocked m s).2
  /-- The cleared record does not pass its check. -/
  | clearFails (s : JobStore) {jobId : String} {keys : List String} {job : JobRecord}
    {error : PyError}
      (hjob : s.jobs.get? jobId = some job) (hvalid : validateCommonRecord job = .ok ())
      (herror : validateCommonRecord (job.withoutResultData keys) = .error error) :
      OwnPart cleaners (.clearResultData jobId keys) s
        (s.queueReleases (job.detachHeavyValues (keys.filter (· ∈ heavyObjectKeys))))
  | clear (s : JobStore) {jobId : String} {keys : List String} {job : JobRecord}
      (hjob : s.jobs.get? jobId = some job) (hvalid : validateCommonRecord job = .ok ())
      (hcheck : validateCommonRecord (job.withoutResultData keys) = .ok ()) :
      OwnPart cleaners (.clearResultData jobId keys) s
        ((s.queueReleases (job.detachHeavyValues (keys.filter (· ∈ heavyObjectKeys)))).putJob jobId
          (job.withoutResultData keys))
  | detach (s : JobStore) {jobId key : String} {old : JobRecord}
    {handles : OrdDict String ArtifactHandle}
      {handle : ArtifactHandle} (hjob : s.jobs.get? jobId = some old)
      (hhandles : old.artifactHandlesOrEmpty = .ok handles)
        (hhandle : handles.get? key = some handle) :
      OwnPart cleaners (.detachArtifactHandle jobId key) s
        ((s.putJob jobId
          (old.insert "artifact_handles" (.handles (handles.erase key)))).queueCleanup
          jobId [handle])
  | releaseDetached (s : JobStore) (jobId : String) (handles : List ArtifactHandle) :
      OwnPart cleaners (.releaseDetachedArtifactHandles jobId handles) s
        (cleanupArtifactHandles jobId handles s)
  | lease (s : JobStore) {jobId key : String} {now : PyFloat} {job : JobRecord}
      {handles : OrdDict String ArtifactHandle} {handle : ArtifactHandle}
      (hjob : s.jobs.get? jobId = some job) (hhandles : job.artifactHandlesOrEmpty = .ok handles)
      (hhandle : handles.get? key = some handle) :
      OwnPart cleaners (.lease jobId key now) s { s with
        artifactLeases := s.artifactLeases.upsert (artifactLeaseKey handle) fun n => n.getD 0 + 1
        leases := handle :: s.leases }
  | endLease (s : JobStore) {handle : ArtifactHandle} {n : ℕ}
      (hn : s.artifactLeases.get? (artifactLeaseKey handle) = some n) :
      OwnPart cleaners (.endLease handle) s
        { s.releaseLeaseOf (artifactLeaseKey handle) (n - 1) with leases := s.leases.erase handle }
  | cleanup (s : JobStore) (jobId : String) (handles : List ArtifactHandle) :
      OwnPart cleaners (.cleanup jobId handles) s (cleanupArtifactHandles jobId handles
        { s with cleanups := s.cleanups.erase (jobId, handles) })
  | clean (s : JobStore) (handle : ArtifactHandle) :
      OwnPart cleaners (.clean handle) s (runCleaner cleaners handle s)
  | release (s : JobStore) (value : ℕ) : OwnPart cleaners (.release value) s
    (releaseHeavyValue value s)

/-- The events whose operation sweeps the store first. -/
def JobEvent.sweeps : JobEvent → Bool
  | .createJob .. | .getJob .. | .listJobs .. | .hasJobMatching .. | .hasJobWithStatus ..
  | .touchHeavyObjects .. | .timer .. | .deleteJob .. | .clearAll | .lease .. => true
  | _ => false

/-- The time at which an event's operation evicts what is stale first. -/
def JobEvent.sweepsAt : JobEvent → Option PyFloat
  | .createJob _ _ now _ | .getJob _ now | .listJobs now | .hasJobMatching _ now
  | .hasJobWithStatus _ now | .touchHeavyObjects _ _ now _ | .lease _ _ now => some now
  | _ => none

/-- What an operation sweeps the store to before its own part, as far as the sweep gets. -/
inductive Swept : JobEvent → JobStore → JobStore → Prop where
  /-- It does not, or raises first. -/
  | nothing (e : JobEvent) (s : JobStore) : Swept e s s
  | evict {e : JobEvent} {now : PyFloat} (h : e.sweepsAt = some now) (s : JobStore) :
      Swept e s (evictStaleLocked now s).2
  | timer (jobId : String) (now : PyFloat) (s : JobStore) :
      Swept (.timer jobId now) s (clearExpiredHeavyObjects jobId now s).2
  | delete (jobId : String) (s : JobStore) : Swept (.deleteJob jobId) s (removeJobLocked jobId s).2
  | clearAll (s : JobStore) : Swept .clearAll s (clearAll s).2

private theorem perform_createJob {cleaners : List String} (jobId : String)
    (initialStatus : JobRecord)
    (now now' : PyFloat) (s : JobStore) : ∃ mid,
    Swept (.createJob jobId initialStatus now now') s mid ∧
      OwnPart cleaners (.createJob jobId initialStatus now now') mid
        (createJob jobId initialStatus now now' s).2 := by
  unfold createJob
  simp only [Effect.bind_apply, Effect.ofExcept_apply]
  split
  case h_2 _ _ hchecks =>
    obtain rfl := (Prod.mk.inj hchecks).2
    exact ⟨s, .nothing _ _, .nothing _ _⟩
  rename_i _ hchecks
  obtain ⟨_, hstatus, -⟩ := bind_eq_ok_iff.mp (Prod.mk.inj hchecks).1
  have hstatus := require_eq_ok_iff.mp hstatus
  obtain rfl := (Prod.mk.inj hchecks).2
  have hswept : Swept (.createJob jobId initialStatus now now') s _ := .evict rfl s
  rcases hrun : evictStaleLocked now s with ⟨_ | _, mid⟩ <;> rw [hrun] at hswept
  · exact ⟨mid, hswept, .nothing _ _⟩
  · refine ⟨mid, hswept, ?_⟩
    simp only
    rcases hcheck : validateCommonRecord
      (initialStatus.setdefault "created_at" (.plain (.float now'))) with e | _
    · exact .nothing _ _
    · exact .create mid hstatus hcheck

private theorem perform_touch {cleaners : List String} (jobId : String) (requiredKeys : List String)
    (now now' : PyFloat) (s : JobStore) :
    ∃ mid, Swept (.touchHeavyObjects jobId requiredKeys now now') s mid ∧
      OwnPart cleaners (.touchHeavyObjects jobId requiredKeys now now') mid
        (touchHeavyObjects jobId requiredKeys now now' s).2 := by
  unfold touchHeavyObjects
  simp only [Effect.bind_apply]
  have hswept : Swept (.touchHeavyObjects jobId requiredKeys now now') s _ := .evict rfl s
  rcases hrun : evictStaleLocked now s with ⟨_ | _, mid⟩ <;> rw [hrun] at hswept
  · exact ⟨mid, hswept, .nothing _ _⟩
  refine ⟨mid, hswept, ?_⟩
  simp only [Effect.get_apply]
  rcases hjob : mid.jobs.get? jobId with _ | job
  · exact .nothing _ _
  simp only [Effect.bind_apply, Effect.ofExcept_apply]
  rcases hrefresh : mid.refreshedExpiry job requiredKeys now' with e | ⟨present, _ | updated⟩
  · exact .nothing _ _
  · exact .nothing _ _
  · -- the record stored is the job's, with a later expiry
    have hupdated : ∃ expiresAt : PyFloat,
        updated = job.insert heavyObjectExpiresAtKey (.plain (.float expiresAt)) ∧
          validateCommonRecord updated = .ok () := by
      unfold refreshedExpiry at hrefresh
      split_ifs at hrefresh
      · obtain ⟨created, -, hrefresh⟩ := bind_eq_ok_iff.mp hrefresh
        obtain ⟨current, -, hrefresh⟩ := bind_eq_ok_iff.mp hrefresh
        dsimp only at hrefresh
        split_ifs at hrefresh
        · obtain ⟨_, hcheck, hrefresh⟩ := bind_eq_ok_iff.mp hrefresh
          cases hrefresh
          exact ⟨_, rfl, hcheck⟩
        · cases hrefresh
      · cases hrefresh
    obtain ⟨expiresAt, rfl, hcheck⟩ := hupdated
    exact .touch mid hjob hcheck

private theorem perform_lease {cleaners : List String} (jobId key : String) (now : PyFloat)
    (s : JobStore) : ∃ mid, Swept (.lease jobId key now) s mid ∧
      OwnPart cleaners (.lease jobId key now) mid (lease jobId key now s).2 := by
  unfold lease
  simp only [Effect.bind_apply]
  have hswept : Swept (.lease jobId key now) s _ := .evict rfl s
  rcases hrun : evictStaleLocked now s with ⟨_ | _, mid⟩ <;> rw [hrun] at hswept
  · exact ⟨mid, hswept, .nothing _ _⟩
  refine ⟨mid, hswept, ?_⟩
  simp only [Effect.get_apply, Effect.ofExcept_apply]
  rcases hjob : mid.jobs.get? jobId with _ | job
  · exact .nothing _ _
  simp only [expect]
  rcases hhandles : job.artifactHandlesOrEmpty with e | handles
  · exact .nothing _ _
  simp only
  rcases hhandle : handles.get? key with _ | handle
  · exact .nothing _ _
  · exact .lease mid hjob hhandles hhandle

private theorem perform_clearResultData {cleaners : List String} (jobId : String)
    (keys : List String)
    (s : JobStore) :
    OwnPart cleaners (.clearResultData jobId keys) s (clearResultData jobId keys s).2 := by
  unfold clearResultData
  simp only [Effect.bind_apply, Effect.get_apply]
  rcases hjob : s.jobs.get? jobId with _ | job
  · exact .nothing _ _
  simp only [Effect.bind_apply, Effect.ofExcept_apply]
  rcases hvalid : validateCommonRecord job with e | _
  · exact .nothing _ _
  simp only [Effect.modify_apply]
  rcases hcheck : validateCommonRecord (job.withoutResultData keys) with e | _
  · exact .clearFails s hjob hvalid hcheck
  · exact .clear s hjob hvalid hcheck

private theorem perform_detach {cleaners : List String} (jobId key : String) (s : JobStore) :
    OwnPart cleaners (.detachArtifactHandle jobId key) s (detachArtifactHandle jobId key s).2 := by
  unfold detachArtifactHandle
  simp only [Effect.bind_apply, Effect.get_apply]
  rcases hjob : s.jobs.get? jobId with _ | old
  · exact .nothing _ _
  simp only [Effect.bind_apply, Effect.ofExcept_apply]
  rcases hhandles : old.artifactHandlesOrEmpty with e | handles
  · exact .nothing _ _
  simp only
  rcases hhandle : handles.get? key with _ | handle
  · exact .nothing _ _
  · exact .detach s hjob hhandles hhandle

private theorem perform_endLease {cleaners : List String} (handle : ArtifactHandle) (s : JobStore) :
    OwnPart cleaners (.endLease handle) s (endLease handle s).2 := by
  unfold endLease
  simp only [Effect.bind_apply, Effect.get_apply, Effect.ofExcept_apply]
  rcases hn : s.artifactLeases.get? (artifactLeaseKey handle) with _ | n
  · exact .nothing _ _
  · exact .endLease s hn

/-- **What every event does**: a sweep, if its operation sweeps, and its own part. -/
theorem perform_swept (cleaners : List String) (e : JobEvent) (s : JobStore) :
    ∃ mid, Swept e s mid ∧ OwnPart cleaners e mid (perform cleaners e s).2 := by
  have hmerge (h : (perform cleaners e s).2 = match s.requested e with
      | none => s
      | some m => (storeMergedJobLocked m s).2) :
      ∃ mid, Swept e s mid ∧ OwnPart cleaners e mid (perform cleaners e s).2 := by
    refine ⟨s, .nothing e s, ?_⟩
    rw [h]
    rcases hreq : s.requested e with _ | m
    · exact .nothing _ _
    · exact .merge s hreq
  have hread {mid : JobStore} (hswept : Swept e s mid) (hperform : (perform cleaners e s).2 = mid) :
      ∃ mid, Swept e s mid ∧ OwnPart cleaners e mid (perform cleaners e s).2 := by
    rw [hperform]
    exact ⟨mid, hswept, .nothing _ _⟩
  rcases e with ⟨jobId, initialStatus, now, now'⟩ | ⟨jobId, now⟩ | now | ⟨predicate,
    now⟩ | ⟨status, now⟩ |
    ⟨jobId, requiredKeys, now, now'⟩ | ⟨jobId, now⟩ | a | a | a | ⟨jobId,
      keys⟩ | jobId | _ | ⟨jobId, key⟩ |
    ⟨jobId, handles⟩ | ⟨jobId, key, now⟩ | handle | ⟨jobId, handles⟩ | handle | value
  case createJob =>
    rw [perform, Effect.void_apply_snd]
    exact perform_createJob jobId initialStatus now now' s
  case getJob =>
    exact hread (.evict rfl s) ((Effect.void_apply_snd _ s).trans (getJob_apply_snd jobId now s))
  case listJobs =>
    exact hread (.evict rfl s) ((Effect.void_apply_snd _ s).trans (listJobs_apply_snd now s))
  case hasJobMatching =>
    exact hread (.evict rfl s)
      ((Effect.void_apply_snd _ s).trans (hasJobMatching_apply_snd predicate now s))
  case hasJobWithStatus =>
    have hperform : (perform cleaners (.hasJobWithStatus status now) s).2 =
        (hasJobWithStatus status now s).2 := Effect.void_apply_snd _ s
    rw [hasJobWithStatus, Effect.bind_apply, Effect.ofExcept_apply] at hperform
    rcases hstatus : validateExpectedStatus (some status) with error | _ <;>
      rw [hstatus] at hperform
    · exact hread (.nothing _ s) hperform
    · exact hread (.evict rfl s) (hperform.trans (hasJobMatching_apply_snd _ now s))
  case touchHeavyObjects =>
    rw [perform, Effect.void_apply_snd]
    exact perform_touch jobId requiredKeys now now' s
  case timer => exact hread (.timer jobId now s) rfl
  case transitionTerminal | compareAndPublishCompletion | update =>
    refine hmerge ?_
    rw [perform, Effect.void_apply_snd]
    exact merging_apply _ s
  case clearResultData => exact ⟨s, .nothing _ s, perform_clearResultData jobId keys s⟩
  case deleteJob => exact hread (.delete jobId s) rfl
  case clearAll => exact hread (.clearAll s) rfl
  case detachArtifactHandle =>
    rw [perform, Effect.void_apply_snd]
    exact ⟨s, .nothing _ s, perform_detach jobId key s⟩
  case releaseDetachedArtifactHandles => exact ⟨s, .nothing _ s, .releaseDetached s jobId handles⟩
  case lease =>
    rw [perform, Effect.void_apply_snd]
    exact perform_lease jobId key now s
  case endLease => exact ⟨s, .nothing _ s, perform_endLease handle s⟩
  case cleanup => exact ⟨s, .nothing _ s, .cleanup s jobId handles⟩
  case clean => exact ⟨s, .nothing _ s, .clean s handle⟩
  case release => exact ⟨s, .nothing _ s, .release s value⟩

/-- What every event does, its sweep taken as a chain of changes. -/
theorem perform_cases (cleaners : List String) (e : JobEvent) (s : JobStore) :
    ∃ mid, Sweeps s mid ∧ (e.sweeps = false → mid = s) ∧
      OwnPart cleaners e mid (perform cleaners e s).2 := by
  obtain ⟨mid, hswept, hown⟩ := perform_swept cleaners e s
  refine ⟨mid, ?_, fun hsweeps => ?_, hown⟩
  · cases hswept
    case nothing => exact .refl
    case evict now _ => exact sweeps_evictStaleLocked now s
    case timer jobId now => exact sweeps_clearExpiredHeavyObjects jobId now s
    case delete jobId => exact sweeps_removeJobLocked jobId s
    case clearAll => exact sweeps_clearAll s
  · cases hswept
    case nothing => rfl
    case evict now hnow =>
      have hswept : e.sweeps = true := by cases e <;> first | rfl | cases hnow
      rw [hswept] at hsweeps
      cases hsweeps
    all_goals cases hsweeps

end JobStore

end Haute
