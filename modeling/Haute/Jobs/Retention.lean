import Haute.Jobs.Eviction
import Haute.Jobs.Precedence

/-!
# How long jobs are kept

In every run the store has the time of the last activity of exactly the running jobs, and a job
goes by being deleted or by outliving its TTL, and in no other way, whatever else is run and
whatever raises (`jobs_retained`). Each answer of a store is that of the jobs as the time of the
call leaves them (`reads_view`): a job that has outlived its TTL is never seen again, and no
lease is taken on it.
-/

namespace Haute

namespace JobStore

variable {s t : JobStore} {jobId : String} {cleaners : List String}

/-- Whether an event deletes a job. -/
def JobEvent.deletes (jobId : String) : JobEvent → Bool
  | .deleteJob id => decide (id = jobId)
  | .clearAll => true
  | _ => false

/-- An event spares a job: it does not delete it, and where it evicts what is stale, the job has
not outlived its TTL. -/
def Spared (jobId : String) (s : JobStore) (e : JobEvent) : Prop :=
  e.deletes jobId = false ∧ ∀ now job, e.sweepsAt = some now → s.jobs.get? jobId = some job →
    s.outlived now jobId job = false

/-! ### Sweeps -/

theorem keeps_clearExpiredHeavyObjects (jobId : String) (now : PyFloat) (s : JobStore) :
    Keeps s (clearExpiredHeavyObjects jobId now s).2 := by
  unfold clearExpiredHeavyObjects
  simp only [Effect.bind_apply, Effect.get_apply]
  rcases hjob : s.jobs.get? jobId with _ | job
  · exact .refl s
  simp only [Effect.bind_apply, Effect.ofExcept_apply]
  rcases hcheck : validateCommonRecord job with error | _
  · exact .refl s
  simp only
  split_ifs with hcompleted
  · simp only [Effect.bind_apply, Effect.ofExcept_apply]
    rcases job.heavyObjectsExpiresAt s.heavyObjectTtlSeconds with error | expiresAt
    · exact .refl s
    simp only
    split_ifs
    · rw [clearHeavyObjectsLocked_apply (valid_of_check hcheck hcompleted)]
      exact keeps_withCleared hjob now
    · exact .refl s
  · exact .refl s

/-- Removing some jobs, whatever their time. -/
theorem forEach_removeJobLocked_ids (ids : List String) (s : JobStore) :
    (s.Recorded → (Effect.forEach removeJobLocked ids s).2.Recorded) ∧
      ((Effect.forEach removeJobLocked ids s).1 = .ok () → ∀ id,
        (Effect.forEach removeJobLocked ids s).2.jobs.get? id =
          if id ∈ ids then none else s.jobs.get? id) := by
  induction ids generalizing s with
  | nil => exact ⟨id, fun _ id => rfl⟩
  | cons jobId ids ih =>
    rw [Effect.forEach, Effect.bind_apply]
    rcases removeJobLocked_cases jobId s with ⟨hsame, hnone⟩ | ⟨job, handles, -, hremoved⟩
    · rcases hrun : removeJobLocked jobId s with ⟨_ | _, mid⟩ <;> rw [hrun] at hsame hnone <;>
        obtain rfl : mid = s := hsame
      · exact ⟨id, fun hok => by cases hok⟩
      refine ⟨(ih mid).1, fun hok id => ((ih mid).2 hok id).trans ?_⟩
      by_cases hid : id = jobId
      · rw [hid, hnone rfl, ite_self, ite_self]
      · simp only [List.mem_cons, hid, false_or]
    · rw [hremoved]
      obtain ⟨hrecorded, hget⟩ := ih (s.withRemoved jobId job handles)
      refine ⟨fun hs => hrecorded (hs.withRemoved jobId job handles),
        fun hok id => (hget hok id).trans ?_⟩
      rw [get?_withRemoved]
      by_cases hid : id = jobId
      · rw [if_pos hid, ite_self, if_pos (hid ▸ List.mem_cons_self)]
      · simp only [hid, if_false, List.mem_cons, false_or]

theorem get?_removeJobLocked {id : String} (hid : id ≠ jobId) (s : JobStore) :
    (removeJobLocked jobId s).2.jobs.get? id = s.jobs.get? id := by
  rcases removeJobLocked_cases jobId s with ⟨hsame, -⟩ | ⟨job, handles, -, hremoved⟩
  · rw [hsame]
  · rw [hremoved]
    exact (get?_withRemoved ..).trans (if_neg hid)

theorem Recorded.clearAll (hs : s.Recorded) : (JobStore.clearAll s).2.Recorded := by
  unfold JobStore.clearAll
  simp only [Effect.bind_apply, Effect.get_apply]
  obtain ⟨hrecorded, hget⟩ := forEach_removeJobLocked_ids s.jobs.keys s
  rcases hrun : Effect.forEach removeJobLocked s.jobs.keys s with ⟨_ | _, mid⟩ <;>
    rw [hrun] at hrecorded hget
  · exact hrecorded hs
  -- no job is left
  have hnone : ∀ id, mid.jobs.get? id = none := by
    intro id
    refine (hget rfl id).trans ?_
    split_ifs with hid
    · rfl
    · exact OrdDict.get?_eq_none_iff.mpr hid
  intro id
  refine ⟨fun h => (by cases h), fun h => ?_⟩
  change (mid.jobs.get? id).bind JobRecord.status? = _ at h
  rw [hnone id] at h
  cases h

/-- A sweep leaves the activity of exactly the running jobs. -/
theorem Recorded.swept {e : JobEvent} (hs : s.Recorded) (h : Swept e s t) : t.Recorded := by
  cases h
  case nothing => exact hs
  case evict now _ => exact (evictStaleLocked_spec now s).1.recorded hs
  case timer jobId now => exact (keeps_clearExpiredHeavyObjects jobId now s).recorded hs
  case delete jobId =>
    rcases removeJobLocked_cases jobId s with ⟨hsame, -⟩ | ⟨job, handles, -, hremoved⟩
    · rwa [hsame]
    · rw [hremoved]
      exact hs.withRemoved jobId job handles
  case clearAll => exact hs.clearAll

/-- A sweep leaves a job that its event spares. -/
theorem Spared.stored_of_swept {e : JobEvent} (hspared : Spared jobId s e) {old : JobRecord}
    (hold : s.jobs.get? jobId = some old) (h : Swept e s t) :
    ∃ new, t.jobs.get? jobId = some new := by
  cases h
  case nothing => exact ⟨old, hold⟩
  case evict now hnow =>
    obtain ⟨new, hnew, -⟩ := (evictStaleLocked_spec now s).1.kept jobId old hold
      (hspared.2 now old hnow hold)
    exact ⟨new, hnew⟩
  case timer id now =>
    obtain ⟨new, hnew, -⟩ := (keeps_clearExpiredHeavyObjects id now s).kept jobId old hold
    exact ⟨new, hnew⟩
  case delete id =>
    have hne : jobId ≠ id := fun heq => of_decide_eq_false hspared.1 heq.symm
    exact ⟨old, (get?_removeJobLocked hne s).trans hold⟩
  case clearAll => cases hspared.1

/-! ### The operations after them -/

theorem Recorded.of_eq (hs : s.Recorded) (hactivity : t.runningActivityAt = s.runningActivityAt)
    (hjobs : t.jobs = s.jobs) : t.Recorded := by
  intro id
  unfold statusOf
  rw [hactivity, hjobs]
  exact hs id

/-- A record is replaced by one of the same status. -/
theorem Recorded.putJob (hs : s.Recorded) {old new : JobRecord}
    (hold : s.jobs.get? jobId = some old)
    (hstatus : new.get? "status" = old.get? "status") : (s.putJob jobId new).Recorded := by
  intro id
  refine (hs id).trans ?_
  unfold statusOf JobStore.putJob
  rw [OrdDict.insert, OrdDict.get?_upsert]
  split_ifs with hid
  · have hsame : new.status? = old.status? := by
      unfold JobRecord.status?
      rw [hstatus]
    rw [hid, hold, Option.bind_some, Option.bind_some, hsame]
  · rfl

/-- A record is stored, and its activity with it. -/
theorem Recorded.recordRunningActivity (hs : s.Recorded) (jobId : String) (job : JobRecord)
    (now : PyFloat) : ((s.putJob jobId job).recordRunningActivity jobId job now).Recorded := by
  intro id
  have hjobs : ((s.putJob jobId job).recordRunningActivity jobId job now).jobs.get? id =
      if id = jobId then some job else s.jobs.get? id := OrdDict.get?_upsert _ _ _ _
  unfold statusOf
  rw [hjobs]
  change (OrdDict.get? (if job.hasStatus .running then s.runningActivityAt.insert jobId now
    else s.runningActivityAt.erase jobId) id).isSome = true ↔ _
  by_cases hid : id = jobId
  · subst hid
    rw [if_pos rfl, Option.bind_some, ← JobRecord.hasStatus_iff]
    split_ifs with hrunning
    · rw [OrdDict.insert, OrdDict.get?_upsert_self]
      exact ⟨fun _ => hrunning, fun _ => rfl⟩
    · rw [OrdDict.get?_erase, if_pos rfl]
      exact ⟨fun h => (by cases h), fun h => absurd h hrunning⟩
  · rw [if_neg hid]
    split_ifs
    · rw [OrdDict.insert, OrdDict.get?_upsert_ne hid]
      exact hs id
    · rw [OrdDict.get?_erase, if_neg hid]
      exact hs id

theorem runningActivityAt_cleanupArtifactHandles (jobId : String) (handles : List ArtifactHandle)
    (s : JobStore) :
    (cleanupArtifactHandles jobId handles s).runningActivityAt = s.runningActivityAt := by
  unfold cleanupArtifactHandles
  induction handles generalizing s with
  | nil => rfl
  | cons handle handles ih =>
    refine (ih _).trans ?_
    unfold cleanupArtifactHandle
    split_ifs <;> rfl

theorem Recorded.ownPart {e : JobEvent} (hs : s.Recorded) (h : OwnPart cleaners e s t) :
    t.Recorded := by
  cases h
  case create jobId initialStatus now now' hstatus hcheck =>
    exact hs.recordRunningActivity jobId _ now'
  case touch hcheck hjob => exact hs.putJob hjob (OrdDict.get?_upsert_ne (by decide) _ _)
  case merge m hreq =>
    rw [storeMergedJobLocked_apply]
    rcases m.old.merged m.fields s.heavyObjectTtlSeconds m.now with error | new
    · exact hs.of_eq rfl rfl
    · exact Recorded.recordRunningActivity (hs.of_eq rfl rfl) m.jobId new m.now
  case clear hvalid hcheck hjob =>
    refine Recorded.putJob (s := s.queueReleases _) (hs.of_eq rfl rfl) hjob ?_
    rcases keepsLifecycle_withoutResultData hvalid hcheck "status" (by decide) with h | ⟨h, -⟩
    · exact h
    · exact absurd h (by decide)
  case detach hhandles hhandle hjob =>
    exact (hs.putJob hjob (OrdDict.get?_upsert_ne (by decide) _ _)).of_eq rfl rfl
  case releaseDetached jobId handles =>
    exact hs.of_eq (runningActivityAt_cleanupArtifactHandles jobId handles s)
      (cleanupArtifactHandles_frame jobId handles s).1
  case endLease handle n hn =>
    refine hs.of_eq ?_ (s.releaseLeaseOf_frame (artifactLeaseKey handle) (n - 1)).1
    unfold releaseLeaseOf
    split_ifs <;> rfl
  case cleanup jobId handles =>
    exact hs.of_eq (runningActivityAt_cleanupArtifactHandles jobId handles _)
      (cleanupArtifactHandles_frame jobId handles _).1
  all_goals exact hs.of_eq rfl rfl

/-- No operation drops a job but by its sweep. -/
theorem stored_of_ownPart {e : JobEvent} (h : OwnPart cleaners e s t) {old : JobRecord}
    (hold : s.jobs.get? jobId = some old) : ∃ new, t.jobs.get? jobId = some new := by
  have hframe {jobs : OrdDict String JobRecord} (hjobs : jobs = s.jobs) :
      ∃ new, jobs.get? jobId = some new := ⟨old, hjobs ▸ hold⟩
  have hput {jobs : OrdDict String JobRecord} {id : String} {job : JobRecord}
      (hjobs : jobs = s.jobs.insert id job) : ∃ new, jobs.get? jobId = some new := by
    rw [hjobs, OrdDict.insert, OrdDict.get?_upsert]
    split_ifs
    · exact ⟨job, rfl⟩
    · exact ⟨old, hold⟩
  cases h
  case create | touch | clear | detach => exact hput rfl
  case merge m hreq =>
    rw [storeMergedJobLocked_apply]
    rcases m.old.merged m.fields s.heavyObjectTtlSeconds m.now with error | new
    · exact hframe rfl
    · exact hput rfl
  case releaseDetached jobId handles =>
    exact hframe (cleanupArtifactHandles_frame jobId handles s).1
  case endLease handle n hn =>
    exact hframe (s.releaseLeaseOf_frame (artifactLeaseKey handle) (n - 1)).1
  case cleanup jobId handles => exact hframe (cleanupArtifactHandles_frame jobId handles _).1
  all_goals exact hframe rfl

/-! ### Runs -/

theorem Recorded.perform (hs : s.Recorded) (cleaners : List String) (e : JobEvent) :
    (perform cleaners e s).2.Recorded := by
  obtain ⟨mid, hswept, hown⟩ := perform_swept cleaners e s
  exact (hs.swept hswept).ownPart hown

/-- A job that an event spares is still there after it. -/
theorem Spared.stored {e : JobEvent} (hspared : Spared jobId s e) {old : JobRecord}
    (hold : s.jobs.get? jobId = some old) (cleaners : List String) :
    ∃ new, (JobStore.perform cleaners e s).2.jobs.get? jobId = some new := by
  obtain ⟨mid, hswept, hown⟩ := perform_swept cleaners e s
  obtain ⟨kept, hkept⟩ := hspared.stored_of_swept hold hswept
  exact stored_of_ownPart hown hkept

/-- A job's time of creation stays. -/
theorem get?_createdAt_of_perform {e : JobEvent} (henabled : s.enabled e) {old new : JobRecord}
    (hold : s.jobs.get? jobId = some old)
    (hnew : (JobStore.perform cleaners e s).2.jobs.get? jobId = some new) :
    new.get? "created_at" = old.get? "created_at" := by
  rcases get?_of_perform cleaners e s hnew with
    ⟨old', hold', hkeeps⟩ | ⟨_, _, _, rfl⟩ | ⟨m, hreq, hid, hmerged⟩
  · obtain rfl := Option.some.inj (hold.symm.trans hold')
    rcases hkeeps "created_at" (by decide) with h | ⟨h, -⟩
    · exact h
    · exact absurd h (by decide)
  · exact absurd (OrdDict.mem_keys_iff.mpr ⟨old, hold⟩) henabled
  have hmold := (get?_of_requested hreq).1
  rw [hid, hold] at hmold
  obtain rfl := Option.some.inj hmold
  rw [JobRecord.get?_of_merged_of_notMem hmerged (by decide) (by decide) (by decide)]
  -- a payload has no time of creation of its own
  have hends {reason : TerminalReason} (h : JobRecord.Ends m.fields reason) :
      (m.old.update m.fields).get? "created_at" = m.old.get? "created_at" := by
    rw [JobRecord.get?_update, h.createdAt]
    rfl
  cases e
  case transitionTerminal a =>
    exact hends (Transition.wellFormed_of_merged (toOption_join_eq_some_iff.mp hreq) hmerged).2
  case compareAndPublishCompletion a =>
    exact hends (Completion.wellFormed_of_merged (toOption_join_eq_some_iff.mp hreq) hmerged).2.2
  case update a => exact get?_update_of_request (toOption_join_eq_some_iff.mp hreq) (by decide)
  all_goals cases hreq

/-- A merge that leaves a job running renews the time it is kept from. -/
theorem get?_runningActivityAt_of_requested {e : JobEvent} {m : Merge} {new : JobRecord}
    (h : s.requested e = some m)
    (hmerged : m.old.merged m.fields s.heavyObjectTtlSeconds m.now = .ok new)
    (hrunning : new.hasStatus .running = true) :
    (JobStore.perform cleaners e s).2.runningActivityAt.get? m.jobId = some m.now := by
  rw [perform_of_requested h, storeMergedJobLocked_apply, hmerged]
  dsimp only
  unfold JobStore.recordRunningActivity
  rw [if_pos hrunning]
  exact OrdDict.get?_upsert_self _ _ _

/-- **How jobs go.** Of exactly the running jobs the store has the time of the last activity,
which each update renews; and from any state of a run, a job stays, with its time of creation,
as long as no event deletes it and no eviction comes when it has outlived its TTL. -/
theorem jobs_retained {ttlSeconds heavyObjectTtlSeconds : ℕ}
    (h : (machine cleaners ttlSeconds heavyObjectTtlSeconds).Reachable s) :
    (∀ jobId, (s.runningActivityAt.get? jobId).isSome = true ↔ s.statusOf jobId = some .running) ∧
      (∀ e m new, s.requested e = some m →
        m.old.merged m.fields s.heavyObjectTtlSeconds m.now = .ok new →
          new.hasStatus .running = true →
        (JobStore.perform cleaners e s).2.runningActivityAt.get? m.jobId = some m.now) ∧
      ∀ jobId old es t, s.jobs.get? jobId = some old →
        (((machine cleaners ttlSeconds heavyObjectTtlSeconds).restrict
          (Spared jobId)).startFrom s).Run
          es t →
        ∃ new, t.jobs.get? jobId = some new ∧ new.get? "created_at" = old.get? "created_at" := by
  have hrecorded : s.Recorded := by
    refine h.invariant (P := Recorded) (fun s hs => ?_) fun s e t hs hstep => ?_
    · rw [show s = _ from hs]
      exact fun id => ⟨fun h => (by cases h), fun h => (by cases h)⟩
    · rw [hstep.2]
      exact hs.perform cleaners e
  refine ⟨hrecorded, fun e m new => get?_runningActivityAt_of_requested,
    fun jobId old es t hold hrun => ?_⟩
  refine hrun.keeps (P := fun t => ∃ new, t.jobs.get? jobId = some new ∧
    new.get? "created_at" = old.get? "created_at") ⟨old, hold, rfl⟩ ?_
  rintro s e t ⟨mid, hmid, hcreated⟩ ⟨hspared, henabled, rfl⟩
  obtain ⟨new, hnew⟩ := hspared.stored hmid cleaners
  exact ⟨new, hnew, (get?_createdAt_of_perform henabled hmid hnew).trans hcreated⟩

/-- A job is still there for who asks for it within its TTL. -/
theorem jobs_retained_createRunning : ∃ job,
    (perform [] (.getJob "j" (.finite 2))
      (perform [] createRunning (new 10 10)).2).2.jobs.get? "j" =
        some job ∧
      job.get? "created_at" = some (.plain (.float (.finite 1))) := by
  have hcreate : (machine [] 10 10).Run [createRunning] (perform [] createRunning (new 10 10)).2 :=
    .next (.start rfl) ⟨show "j" ∉ (new 10 10).jobs.keys from List.not_mem_nil, rfl⟩
  have hstored : (perform [] createRunning (new 10 10)).2.jobs.get? "j" =
      some ⟨[("status", .str "running"), ("created_at", .plain (.float (.finite 1)))], by decide⟩ :=
        by
    decide +kernel
  have hspared : Spared "j" (perform [] createRunning (new 10 10)).2 (.getJob "j" (.finite 2)) := by
    refine ⟨rfl, fun now job hnow hjob => ?_⟩
    obtain rfl := Option.some.inj hnow
    obtain rfl := Option.some.inj (hstored.symm.trans hjob)
    decide +kernel
  exact (jobs_retained ⟨_, hcreate⟩).2.2 "j" _ [.getJob "j" (.finite 2)] _ hstored
    (.next (.start rfl) ⟨hspared, trivial, rfl⟩)

/-! ### Answers -/

/-- **What a store answers**: each job as the time of the call leaves it, on its own, and leases
on the handles of such jobs only. -/
theorem reads_view (s : JobStore) (now : PyFloat) :
    (∀ jobId answer, (getJob jobId now s).1 = .ok answer → answer = s.view now jobId) ∧
      (∀ answer, (listJobs now s).1 = .ok answer → ∀ jobId, answer.get? jobId = s.view now jobId) ∧
      (∀ predicate answer, (hasJobMatching predicate now s).1 = .ok answer →
        (answer = true ↔ ∃ jobId job, s.view now jobId = some job ∧ predicate job = true)) ∧
      ∀ jobId key handle, (lease jobId key now s).1 = .ok handle →
        ∃ job handles, s.view now jobId = some job ∧ job.artifactHandlesOrEmpty = .ok handles ∧
          handles.get? key = some handle := by
  have hspec := (evictStaleLocked_spec now s).2
  unfold getJob listJobs hasJobMatching lease
  simp only [Effect.bind_apply, Effect.get_apply]
  rcases hrun : evictStaleLocked now s with ⟨_ | _, mid⟩ <;> rw [hrun] at hspec
  · exact ⟨fun _ _ h => (by cases h), fun _ h => (by cases h), fun _ _ h => (by cases h),
      fun _ _ _ h => (by cases h)⟩
  replace hspec : ∀ id, mid.jobs.get? id = s.view now id := hspec rfl
  refine ⟨fun jobId answer h => ?_, fun answer h jobId => ?_, fun predicate answer h => ?_,
    fun jobId key handle h => ?_⟩
  · rw [← hspec]
    rcases hjob : mid.jobs.get? jobId with _ | job
    · simp only [hjob] at h
      exact (Except.ok.inj h).symm
    · simp only [hjob, Effect.bind_apply, snapshot, Effect.ofExcept_apply] at h
      rcases hcheck : validateCommonRecord job with error | _ <;> rw [hcheck] at h
      · cases h
      · exact (Except.ok.inj h).symm
  · dsimp only at h
    rcases hsnapshots : Effect.forEach (fun entry : String × JobRecord => do
      let _ ← snapshot entry.2) mid.jobs.entries mid with ⟨_ | _, last⟩
    · rw [hsnapshots] at h
      cases h
    · rw [hsnapshots] at h
      rw [← Except.ok.inj h, hspec]
  · obtain rfl := Except.ok.inj h
    simp only [← hspec, List.any_eq_true]
    constructor
    · rintro ⟨entry, hentry, hholds⟩
      exact ⟨entry.1, entry.2, OrdDict.mem_entries_iff.mp hentry, hholds⟩
    · rintro ⟨jobId, job, hjob, hholds⟩
      exact ⟨(jobId, job), OrdDict.mem_entries_iff.mpr hjob, hholds⟩
  · simp only [Effect.ofExcept_apply] at h
    rcases hjob : mid.jobs.get? jobId with _ | job <;> rw [hjob] at h
    · cases h
    simp only [expect] at h
    rcases hhandles : job.artifactHandlesOrEmpty with error | handles <;> rw [hhandles] at h
    · cases h
    simp only at h
    rcases hhandle : handles.get? key with _ | held <;> rw [hhandle] at h
    · cases h
    refine ⟨job, handles, (hspec jobId).symm.trans hjob, hhandles, ?_⟩
    rw [hhandle, Except.ok.inj h]

end JobStore

end Haute
