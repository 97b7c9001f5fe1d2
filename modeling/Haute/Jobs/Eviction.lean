import Haute.Jobs.Lifecycle

/-!
# What an eviction leaves

A running job is kept from its last activity, an ended one from its creation (`keptFrom`), and
once that is further back than the TTL it has outlived it (`outlived`). Before it answers, the
store clears the heavy values that are due and evicts the jobs that have outlived their TTL.

An eviction that raises on its way has taken none but those (`Spares`). One that returns has
taken each job as it stands, on its own (`view`); and it returns where every record can be read
as far as it needs (`Evictable`).
-/

namespace Haute

namespace JobRecord

variable {job old new : JobRecord} {ttl : ℕ} {now : PyFloat}

/-- A completed job has heavy values, and they are due. -/
def heavyDue (job : JobRecord) (ttl : ℕ) (now : PyFloat) : Bool :=
  job.hasStatus (.ended .completed) && job.hasHeavyObjects &&
    match job.heavyObjectsExpiresAt ttl with
    | .ok expiresAt => !now.lt expiresAt
    | .error _ => false

/-- The record an eviction leaves of a job that stays. -/
def swept (job : JobRecord) (ttl : ℕ) (now : PyFloat) : JobRecord :=
  if job.heavyDue ttl now then job.cleared ttl now else job

/-- A job's status depends on its entry of it alone. -/
theorem hasStatus_congr (h : new.get? "status" = old.get? "status") (status : JobStatus) :
    new.hasStatus status = old.hasStatus status := by
  unfold hasStatus
  rw [h]

/-- Clearing heavy objects keeps the entries of the lifecycle. -/
theorem get?_cleared_of_mem {key : String} (h : key ∈ lifecycleKeys) :
    (job.cleared ttl now).get? key = job.get? key := by
  have hkeys : ∀ key ∈ lifecycleKeys, key ≠ "heavy_objects_cleared_at" ∧
      key ≠ "heavy_objects_retention_seconds" ∧
        key ∉ heavyObjectExpiresAtKey :: heavyObjectKeys := by
    decide
  obtain ⟨h1, h2, h3⟩ := hkeys key h
  rw [get?_cleared h1 h2, if_neg h3]

/-- What the clearing of heavy values leaves alone. -/
theorem get?_swept {key : String} (h1 : key ≠ "heavy_objects_cleared_at")
    (h2 : key ≠ "heavy_objects_retention_seconds")
    (h3 : key ∉ heavyObjectExpiresAtKey :: heavyObjectKeys) :
    (job.swept ttl now).get? key = job.get? key := by
  unfold swept
  split_ifs
  · rw [get?_cleared h1 h2, if_neg h3]
  · rfl

end JobRecord

namespace JobStore

variable {s t u : JobStore} {now : PyFloat} {jobId : String} {job : JobRecord}

/-! ### The time a job is kept from -/

/-- What `_job_eviction_timestamp_locked` returns. -/
def keptFrom (s : JobStore) (jobId : String) (job : JobRecord) : Except PyError PyFloat :=
  (createdAt job).map fun created =>
    if job.hasStatus .running then (s.runningActivityAt.get? jobId).getD created else created

/-- A job's metadata has outlived its TTL. -/
def outlived (s : JobStore) (now : PyFloat) (jobId : String) (job : JobRecord) : Bool :=
  match s.keptFrom jobId job with
  | .ok timestamp => timestamp.lt (now.addInt (-s.ttlSeconds))
  | .error _ => false

/-- What there is of a job at a time: nothing, once it has outlived its TTL, and else its record,
without the heavy values that are due. -/
def view (s : JobStore) (now : PyFloat) (jobId : String) : Option JobRecord :=
  ((s.jobs.get? jobId).filter fun job => !s.outlived now jobId job).map fun job =>
    job.swept s.heavyObjectTtlSeconds now

/-- The activity is that of the running jobs. -/
def Recorded (s : JobStore) : Prop :=
  ∀ jobId, (s.runningActivityAt.get? jobId).isSome = true ↔ s.statusOf jobId = some .running

/-- The status at an id is that of the job there. -/
theorem statusOf_of_get? (h : s.jobs.get? jobId = some job) : s.statusOf jobId = job.status? := by
  unfold statusOf
  rw [h]
  rfl

/-- How long a job is kept depends on its creation, status and running activity alone. -/
theorem keptFrom_congr {old new : JobRecord}
    (hcreated : new.get? "created_at" = old.get? "created_at")
    (hstatus : new.get? "status" = old.get? "status")
    (hactivity : old.hasStatus .running = true →
      t.runningActivityAt.get? jobId = s.runningActivityAt.get? jobId) :
    t.keptFrom jobId new = s.keptFrom jobId old := by
  unfold keptFrom createdAt
  rw [hcreated, JobRecord.hasStatus_congr hstatus]
  by_cases hrunning : old.hasStatus .running = true
  · rw [hactivity hrunning]
  · simp only [hrunning, Bool.false_eq_true, if_false]

/-- Whether a job has outlived its time depends on when it is kept from alone. -/
theorem outlived_congr {old new : JobRecord} (httl : t.ttlSeconds = s.ttlSeconds)
    (hkept : t.keptFrom jobId new = s.keptFrom jobId old) :
    t.outlived now jobId new = s.outlived now jobId old := by
  unfold outlived
  rw [hkept, httl]

/-- A change that keeps every job, and the time each is kept from. -/
structure Keeps (s t : JobStore) : Prop where
  ttl : t.ttlSeconds = s.ttlSeconds
  heavyTtl : t.heavyObjectTtlSeconds = s.heavyObjectTtlSeconds
  recorded : s.Recorded → t.Recorded
  kept : ∀ jobId old, s.jobs.get? jobId = some old →
    ∃ new, t.jobs.get? jobId = some new ∧ t.keptFrom jobId new = s.keptFrom jobId old

/-- A change that takes only jobs that have outlived their TTL at a time, and otherwise keeps
them. -/
structure Spares (now : PyFloat) (s t : JobStore) : Prop where
  ttl : t.ttlSeconds = s.ttlSeconds
  recorded : s.Recorded → t.Recorded
  kept : ∀ jobId old, s.jobs.get? jobId = some old → s.outlived now jobId old = false →
    ∃ new, t.jobs.get? jobId = some new ∧ t.keptFrom jobId new = s.keptFrom jobId old

theorem Keeps.refl (s : JobStore) : Keeps s s := ⟨rfl, rfl, id, fun _ old hold => ⟨old, hold, rfl⟩⟩

theorem Keeps.trans (h : Keeps s t) (h' : Keeps t u) : Keeps s u where
  ttl := h'.ttl.trans h.ttl
  heavyTtl := h'.heavyTtl.trans h.heavyTtl
  recorded hs := h'.recorded (h.recorded hs)
  kept jobId old hold := by
    obtain ⟨mid, hmid, hsame⟩ := h.kept jobId old hold
    obtain ⟨new, hnew, hsame'⟩ := h'.kept jobId mid hmid
    exact ⟨new, hnew, hsame'.trans hsame⟩

/-- A step that keeps every job spares those within their time. -/
theorem Keeps.spares (h : Keeps s t) : Spares now s t :=
  ⟨h.ttl, h.recorded, fun jobId old hold _ => h.kept jobId old hold⟩

theorem Spares.trans (h : Spares now s t) (h' : Spares now t u) : Spares now s u where
  ttl := h'.ttl.trans h.ttl
  recorded hs := h'.recorded (h.recorded hs)
  kept jobId old hold hfresh := by
    obtain ⟨mid, hmid, hsame⟩ := h.kept jobId old hold hfresh
    obtain ⟨new, hnew, hsame'⟩ := h'.kept jobId mid hmid ((outlived_congr h.ttl hsame).trans hfresh)
    exact ⟨new, hnew, hsame'.trans hsame⟩

/-! ### Clearing what is due -/

/-- The store once a completed job has lost its heavy values. -/
def withCleared (s : JobStore) (jobId : String) (job : JobRecord) (now : PyFloat) : JobStore :=
  (s.queueReleases (job.detachHeavyValues heavyObjectKeys)).putJob jobId
    (job.cleared s.heavyObjectTtlSeconds now)

/-- Clearing one job leaves the others. -/
theorem get?_withCleared (s : JobStore) (id jobId : String) (job : JobRecord) (now : PyFloat) :
    (s.withCleared jobId job now).jobs.get? id =
      if id = jobId then some (job.cleared s.heavyObjectTtlSeconds now) else s.jobs.get? id :=
  OrdDict.get?_upsert _ _ _ _

/-- Clearing a job keeps it. -/
theorem keeps_withCleared (hjob : s.jobs.get? jobId = some job) (now : PyFloat) :
    Keeps s (s.withCleared jobId job now) where
  ttl := rfl
  heavyTtl := rfl
  recorded hs id := by
    refine (hs id).trans ?_
    unfold statusOf
    rw [get?_withCleared]
    split_ifs with hid
    · have hsame : (job.cleared s.heavyObjectTtlSeconds now).status? = job.status? := by
        unfold JobRecord.status?
        rw [JobRecord.get?_cleared_of_mem (by decide)]
      rw [hid, hjob, Option.bind_some, Option.bind_some, hsame]
    · rfl
  kept id old hold := by
    rw [get?_withCleared]
    split_ifs with hid
    · subst hid
      obtain rfl := Option.some.inj (hjob.symm.trans hold)
      exact ⟨_, rfl, keptFrom_congr (JobRecord.get?_cleared_of_mem (by decide))
        (JobRecord.get?_cleared_of_mem (by decide)) fun _ => rfl⟩
    · exact ⟨old, hold, rfl⟩

/-- One turn of the expiry loop clears the heavy values that are due, unless it raises. -/
theorem clearIfExpired_due (now : PyFloat) (jobId : String) (job : JobRecord) (s : JobStore) :
    (clearIfExpired now (jobId, job) s).2 = s ∧
        ((clearIfExpired now (jobId, job) s).1 = .ok () →
          job.heavyDue s.heavyObjectTtlSeconds now = false) ∨
      job.heavyDue s.heavyObjectTtlSeconds now = true ∧
        (clearIfExpired now (jobId, job) s).2 = s.withCleared jobId job now := by
  unfold clearIfExpired JobRecord.heavyDue
  simp only [Effect.bind_apply, Effect.ofExcept_apply]
  rcases hcheck : validateCommonRecord job with e | _
  · exact .inl ⟨rfl, fun h => by cases h⟩
  simp only
  split_ifs with hcond
  · simp only [Effect.bind_apply, Effect.get_apply, Effect.ofExcept_apply, hcond, Bool.true_and]
    rcases job.heavyObjectsExpiresAt s.heavyObjectTtlSeconds with e | expiresAt
    · exact .inl ⟨rfl, fun h => by cases h⟩
    simp only
    split_ifs with hdue
    · exact .inl ⟨rfl, fun _ => by rw [hdue]; rfl⟩
    · have hvalid := valid_of_check hcheck (Bool.and_eq_true_iff.mp hcond).1
      rw [clearHeavyObjectsLocked_apply hvalid]
      exact .inr ⟨by simp [hdue], rfl⟩
  · simp only [Bool.not_eq_true] at hcond
    exact .inl ⟨rfl, fun _ => by rw [hcond]; rfl⟩

/-- **The expiry loop** clears the heavy values that are due, of each job on its own. -/
theorem forEach_clearIfExpired (entries : List (String × JobRecord))
    (hn : (Assoc.keys entries).Nodup)
    (h : ∀ e ∈ entries, s.jobs.get? e.1 = some e.2) :
    Keeps s (Effect.forEach (clearIfExpired now) entries s).2 ∧
      ((Effect.forEach (clearIfExpired now) entries s).1 = .ok () → ∀ id,
        (Effect.forEach (clearIfExpired now) entries s).2.jobs.get? id =
          (s.jobs.get? id).map fun job =>
          if id ∈ Assoc.keys entries then job.swept s.heavyObjectTtlSeconds now else job) := by
  induction entries generalizing s with
  | nil =>
    refine ⟨.refl s, fun _ id => ?_⟩
    simp only [Assoc.keys_nil, List.not_mem_nil, if_false, Option.map_id']
    rfl
  | cons e entries ih =>
    rw [Assoc.keys_cons, List.nodup_cons] at hn
    have hjob := h e List.mem_cons_self
    have hother : ∀ e' ∈ entries, e'.1 ≠ e.1 := fun e' he' heq =>
      hn.1 (heq ▸ Assoc.mem_keys_of_mem he')
    -- one turn, and the other entries after it
    have hfirst : Keeps s (clearIfExpired now e s).2 ∧
        (∀ e' ∈ entries, (clearIfExpired now e s).2.jobs.get? e'.1 = some e'.2) ∧
        ((clearIfExpired now e s).1 = .ok () → ∀ id, (clearIfExpired now e s).2.jobs.get? id =
          (s.jobs.get? id).map fun job =>
            if id = e.1 then job.swept s.heavyObjectTtlSeconds now else job) := by
      rcases clearIfExpired_due now e.1 e.2 s with ⟨hsame, hnot⟩ | ⟨hdue, hclear⟩
      · rw [hsame]
        refine ⟨.refl s, fun e' he' => h e' (List.mem_cons_of_mem _ he'), fun hok id => ?_⟩
        by_cases hid : id = e.1
        · rw [hid, hjob, Option.map_some, if_pos rfl, JobRecord.swept, hnot hok, if_neg (by decide)]
        · simp only [hid, if_false, Option.map_id']
      · rw [hclear]
        refine ⟨keeps_withCleared hjob now, fun e' he' => ?_, fun _ id => ?_⟩
        · rw [get?_withCleared, if_neg (hother e' he')]
          exact h e' (List.mem_cons_of_mem _ he')
        · rw [get?_withCleared]
          by_cases hid : id = e.1
          · rw [if_pos hid, hid, hjob, Option.map_some, if_pos rfl, JobRecord.swept,
              hdue, if_pos rfl]
          · simp only [hid, if_false, Option.map_id']
    obtain ⟨hkeeps, hstored, hget⟩ := hfirst
    rw [Effect.forEach, Effect.bind_apply]
    rcases hrun : clearIfExpired now e s with ⟨_ | _, mid⟩ <;> rw [hrun] at hkeeps hstored hget
    · exact ⟨hkeeps, fun hok => by cases hok⟩
    · obtain ⟨hrest, hget'⟩ := ih hn.2 hstored
      refine ⟨hkeeps.trans hrest, fun hok id => ?_⟩
      rw [hget' hok, hget rfl, Option.map_map, hkeeps.heavyTtl]
      rcases s.jobs.get? id with _ | job
      · rfl
      simp only [Option.map_some, Function.comp_apply, Assoc.keys_cons, List.mem_cons]
      by_cases hid : id = e.1
      · rw [if_pos hid, if_neg (hid ▸ hn.1), if_pos (.inl hid)]
      · simp only [hid, if_false, false_or]

/-! ### Which jobs are stale -/

/-- The store once a job's activity is tidied. -/
def tidied (s : JobStore) (jobId : String) (job : JobRecord) : JobStore :=
  if job.hasStatus .running then s
  else { s with runningActivityAt := s.runningActivityAt.erase jobId }

@[simp] theorem jobs_tidied : (s.tidied jobId job).jobs = s.jobs := by
  unfold tidied
  split_ifs <;> rfl

/-- A job is stale when it is kept from before the oldest time allowed, and its activity is
tidied. -/
theorem isStale_apply (now : PyFloat) (jobId : String) (job : JobRecord) (s : JobStore) :
    isStale now (jobId, job) s =
      ((s.keptFrom jobId job).map fun timestamp => timestamp.lt (now.addInt (-s.ttlSeconds)),
        s.tidied jobId job) := by
  unfold isStale jobEvictionTimestampLocked keptFrom tidied
  split_ifs
  · simp only [Effect.bind_apply, Effect.ofExcept_apply]
    rcases createdAt job with error | created <;> rfl
  · simp only [Effect.bind_apply, Effect.modify_apply, Effect.ofExcept_apply]
    rcases createdAt job with error | created <;> rfl

/-- Tidying a job's activity keeps every job. -/
theorem keeps_tidied (hjob : s.jobs.get? jobId = some job) : Keeps s (s.tidied jobId job) := by
  unfold tidied
  split_ifs with hrunning
  · exact .refl s
  refine ⟨rfl, rfl, fun hs id => ?_, fun id old hold => ⟨old, hold, ?_⟩⟩
  · refine Iff.trans ?_ (hs id)
    change (OrdDict.get? (OrdDict.erase _ _) id).isSome = true ↔ _
    rw [OrdDict.get?_erase]
    split_ifs with hid
    · -- a job that is not running has no activity
      refine ⟨fun h => (by cases h), fun h => absurd ((hs id).mp h) fun hstatus => hrunning ?_⟩
      rw [hid, statusOf_of_get? hjob] at hstatus
      exact JobRecord.hasStatus_iff.mpr hstatus
    · rfl
  · refine keptFrom_congr rfl rfl fun hold' => ?_
    have hid : id ≠ jobId := by
      rintro rfl
      exact hrunning (Option.some.inj (hjob.symm.trans hold) ▸ hold')
    exact (OrdDict.get?_erase _ _ _).trans (if_neg hid)

/-- **The test of every job** finds those that have outlived their TTL. -/
theorem filterM_isStale (entries : List (String × JobRecord))
    (h : ∀ e ∈ entries, s.jobs.get? e.1 = some e.2) :
    Keeps s (Effect.filterM (isStale now) entries s).2 ∧
      (Effect.filterM (isStale now) entries s).2.jobs = s.jobs ∧
      ∀ stale, (Effect.filterM (isStale now) entries s).1 = .ok stale →
        stale = entries.filter fun e => s.outlived now e.1 e.2 := by
  induction entries generalizing s with
  | nil => exact ⟨.refl s, rfl, fun stale h => (Except.ok.inj h).symm⟩
  | cons e entries ih =>
    obtain ⟨id, job⟩ := e
    have hjob : s.jobs.get? id = some job := h (id, job) List.mem_cons_self
    have hkeeps := keeps_tidied hjob
    rw [Effect.filterM, Effect.bind_apply, isStale_apply]
    rcases hkept : s.keptFrom id job with error | timestamp
    · exact ⟨hkeeps, jobs_tidied, fun stale h => by cases h⟩
    have hstored : ∀ e ∈ entries, (s.tidied id job).jobs.get? e.1 = some e.2 := by
      intro e he
      rw [jobs_tidied]
      exact h e (List.mem_cons_of_mem _ he)
    obtain ⟨hrest, hjobs, hstale⟩ := ih hstored
    simp only [Except.map, Effect.bind_apply]
    rcases hrun : Effect.filterM (isStale now) entries (s.tidied id job) with ⟨_ | rest, mid⟩ <;>
      rw [hrun] at hrest hjobs hstale
    · exact ⟨hkeeps.trans hrest, hjobs.trans jobs_tidied, fun stale h => by cases h⟩
    refine ⟨hkeeps.trans hrest, hjobs.trans jobs_tidied, fun stale hok => ?_⟩
    obtain rfl := Except.ok.inj hok
    -- the rest are tested as they were
    have hsame : entries.filter (fun e => (s.tidied id job).outlived now e.1 e.2) =
        entries.filter fun e => s.outlived now e.1 e.2 := by
      refine List.filter_congr fun e he => ?_
      obtain ⟨new, hnew, hkept⟩ := hkeeps.kept e.1 e.2 (h e (List.mem_cons_of_mem _ he))
      obtain rfl := Option.some.inj ((hstored e he).symm.trans hnew)
      exact outlived_congr hkeeps.ttl hkept
    have htest : s.outlived now id job = timestamp.lt (now.addInt (-s.ttlSeconds)) := by
      unfold outlived
      rw [hkept]
    rw [hstale rest rfl, hsame, List.filter_cons, htest]

/-! ### Evicting them -/

/-- The store once a job is gone. -/
def withRemoved (s : JobStore) (jobId : String) (job : JobRecord) (handles : List ArtifactHandle) :
    JobStore :=
  ((s.queueReleases (job.detachHeavyValues heavyObjectKeys)).dropJob jobId).queueCleanup
    jobId handles

/-- Removing one job leaves the others. -/
theorem get?_withRemoved (s : JobStore) (id jobId : String) (job : JobRecord)
    (handles : List ArtifactHandle) :
    (s.withRemoved jobId job handles).jobs.get? id = if id = jobId then none else s.jobs.get? id :=
  OrdDict.get?_erase _ _ _

/-- A job is removed unless its handles do not read. -/
theorem removeJobLocked_apply (hjob : s.jobs.get? jobId = some job) :
    removeJobLocked jobId s = match job.artifactHandles with
      | .error error => (.error error, s)
      | .ok handles => (.ok (), s.withRemoved jobId job handles) := by
  unfold removeJobLocked
  simp only [Effect.bind_apply, Effect.get_apply, hjob, Effect.ofExcept_apply]
  rcases job.artifactHandles with error | handles <;> rfl

/-- A removal does nothing, or the job is gone: it raises where the job's handles are none. -/
theorem removeJobLocked_cases (jobId : String) (s : JobStore) :
    (removeJobLocked jobId s).2 = s ∧
        ((removeJobLocked jobId s).1 = .ok () → s.jobs.get? jobId = none) ∨
      ∃ job handles, s.jobs.get? jobId = some job ∧
        removeJobLocked jobId s = (.ok (), s.withRemoved jobId job handles) := by
  rcases hjob : s.jobs.get? jobId with _ | job
  · left
    unfold removeJobLocked
    simp only [Effect.bind_apply, Effect.get_apply, hjob, Effect.pure_apply]
    exact ⟨trivial, fun _ => trivial⟩
  · rw [removeJobLocked_apply hjob]
    rcases job.artifactHandles with error | handles
    · exact .inl ⟨rfl, fun h => by cases h⟩
    · exact .inr ⟨job, handles, rfl, rfl⟩

/-- The jobs left by a removal are still recorded. -/
theorem Recorded.withRemoved (hs : s.Recorded) (jobId : String) (job : JobRecord)
    (handles : List ArtifactHandle) : (s.withRemoved jobId job handles).Recorded := by
  intro id
  unfold statusOf
  rw [get?_withRemoved]
  change (OrdDict.get? (OrdDict.erase _ _) id).isSome = true ↔ _
  rw [OrdDict.get?_erase]
  split_ifs with hid
  · exact ⟨fun h => (by cases h), fun h => (by cases h)⟩
  · exact hs id

/-- Removing a job does not change how long the others are kept. -/
theorem keptFrom_withRemoved {id : String} (hid : id ≠ jobId) (old : JobRecord)
    (handles : List ArtifactHandle) :
    (s.withRemoved jobId job handles).keptFrom id old = s.keptFrom id old :=
  keptFrom_congr rfl rfl fun _ => (OrdDict.get?_erase _ _ _).trans (if_neg hid)

/-- Removing a job that has outlived its time spares the others. -/
theorem spares_withRemoved (hjob : s.jobs.get? jobId = some job)
    (hout : s.outlived now jobId job = true) (handles : List ArtifactHandle) :
    Spares now s (s.withRemoved jobId job handles) where
  ttl := rfl
  recorded hs := hs.withRemoved jobId job handles
  kept id old hold hfresh := by
    have hid : id ≠ jobId := by
      rintro rfl
      rw [← Option.some.inj (hjob.symm.trans hold), hout] at hfresh
      cases hfresh
    exact ⟨old, (get?_withRemoved ..).trans ((if_neg hid).trans hold),
      keptFrom_withRemoved hid old handles⟩

/-- **The eviction loop** takes jobs that have outlived their TTL, each on its own. -/
theorem forEach_removeJobLocked (entries : List (String × JobRecord))
    (hn : (Assoc.keys entries).Nodup)
    (h : ∀ e ∈ entries, s.jobs.get? e.1 = some e.2 ∧ s.outlived now e.1 e.2 = true) :
    Spares now s (Effect.forEach (fun e => removeJobLocked e.1) entries s).2 ∧
      ((Effect.forEach (fun e => removeJobLocked e.1) entries s).1 = .ok () → ∀ id,
        (Effect.forEach (fun e => removeJobLocked e.1) entries s).2.jobs.get? id =
          if id ∈ Assoc.keys entries then none else s.jobs.get? id) := by
  induction entries generalizing s with
  | nil => exact ⟨(Keeps.refl s).spares, fun _ id => rfl⟩
  | cons e entries ih =>
    rw [Assoc.keys_cons, List.nodup_cons] at hn
    obtain ⟨hjob, hout⟩ := h e List.mem_cons_self
    rw [Effect.forEach, Effect.bind_apply, removeJobLocked_apply hjob]
    rcases e.2.artifactHandles with error | handles
    · exact ⟨(Keeps.refl s).spares, fun hok => by cases hok⟩
    obtain ⟨hrest, hget⟩ := @ih (s.withRemoved e.1 e.2 handles) hn.2 fun e' he' => by
      have hne : e'.1 ≠ e.1 := fun heq => hn.1 (heq ▸ Assoc.mem_keys_of_mem he')
      obtain ⟨hjob', hout'⟩ := h e' (List.mem_cons_of_mem _ he')
      have hsame : (s.withRemoved e.1 e.2 handles).outlived now e'.1 e'.2 =
          s.outlived now e'.1 e'.2 :=
        outlived_congr rfl (keptFrom_withRemoved hne e'.2 handles)
      exact ⟨(get?_withRemoved ..).trans ((if_neg hne).trans hjob'), hsame.trans hout'⟩
    refine ⟨(spares_withRemoved hjob hout handles).trans hrest, fun hok id => ?_⟩
    dsimp only at hok ⊢
    rw [hget hok, get?_withRemoved, Assoc.keys_cons]
    by_cases hid : id = e.1
    · rw [if_pos hid, ite_self, if_pos (hid ▸ List.mem_cons_self)]
    · simp only [hid, if_false, List.mem_cons, false_or]

/-- **What an eviction does**: it takes no job that has not outlived its TTL, and once it
returns, what is stored is what there is at its time. -/
theorem evictStaleLocked_spec (now : PyFloat) (s : JobStore) :
    Spares now s (evictStaleLocked now s).2 ∧
      ((evictStaleLocked now s).1 = .ok () → ∀ id,
        (evictStaleLocked now s).2.jobs.get? id = s.view now id) := by
  obtain ⟨hcleared, hget⟩ := @forEach_clearIfExpired s now s.jobs.entries s.jobs.nodupKeys
    fun e he => OrdDict.mem_entries_iff.mp he
  unfold evictStaleLocked clearExpiredHeavyObjectsLocked
  simp only [Effect.bind_apply, Effect.get_apply]
  rcases hclear : Effect.forEach (clearIfExpired now) s.jobs.entries s with ⟨_ | _, mid⟩ <;>
    rw [hclear] at hcleared hget
  · exact ⟨hcleared.spares, fun hok => by cases hok⟩
  replace hget := hget rfl
  obtain ⟨htidied, hjobs, hstale⟩ := @filterM_isStale mid now mid.jobs.entries
    fun e he => OrdDict.mem_entries_iff.mp he
  dsimp only
  rcases hfilter : Effect.filterM (isStale now) mid.jobs.entries mid with ⟨_ | stale, tested⟩ <;>
    rw [hfilter] at htidied hjobs hstale
  · exact ⟨(hcleared.trans htidied).spares, fun hok => by cases hok⟩
  replace hjobs : tested.jobs = mid.jobs := hjobs
  replace hstale := hstale stale rfl
  -- the jobs found stale are stored, and stale still
  have hfound : ∀ e ∈ stale, tested.jobs.get? e.1 = some e.2 ∧
      tested.outlived now e.1 e.2 = true := by
    intro e he
    rw [hstale, List.mem_filter] at he
    have hstored := OrdDict.mem_entries_iff.mp he.1
    obtain ⟨new, hnew, hkept⟩ := htidied.kept e.1 e.2 hstored
    rw [hjobs] at hnew ⊢
    obtain rfl := Option.some.inj (hstored.symm.trans hnew)
    exact ⟨hstored, (outlived_congr htidied.ttl hkept).trans he.2⟩
  have hn : (Assoc.keys stale).Nodup := by
    rw [hstale]
    exact mid.jobs.nodupKeys.sublist (List.filter_sublist.map _)
  obtain ⟨hspares, hleft⟩ := forEach_removeJobLocked stale hn hfound
  refine ⟨(hcleared.trans htidied).spares.trans hspares, fun hok id => ?_⟩
  rw [hleft hok, hjobs, hget]
  unfold view
  rcases hjob : s.jobs.get? id with _ | job
  · exact ite_self _
  have hkey : id ∈ Assoc.keys s.jobs.entries := OrdDict.mem_keys_iff.mpr ⟨job, hjob⟩
  have hmid : mid.jobs.get? id = some (job.swept s.heavyObjectTtlSeconds now) := by
    rw [hget, hjob, Option.map_some, if_pos hkey]
  have hsame : mid.outlived now id (job.swept s.heavyObjectTtlSeconds now) =
      s.outlived now id job := by
    obtain ⟨new, hnew, hkept⟩ := hcleared.kept id job hjob
    obtain rfl := Option.some.inj (hmid.symm.trans hnew)
    exact outlived_congr hcleared.ttl hkept
  have hmem : id ∈ Assoc.keys stale ↔ s.outlived now id job = true := by
    rw [hstale, ← hsame]
    constructor
    · intro hid
      obtain ⟨e, he, rfl⟩ := List.mem_map.mp hid
      rw [List.mem_filter] at he
      rw [← Option.some.inj ((OrdDict.mem_entries_iff.mp he.1).symm.trans hmid)]
      exact he.2
    · exact fun hout => List.mem_map.mpr ⟨(id, _), List.mem_filter.mpr
        ⟨OrdDict.mem_entries_iff.mpr hmid, hout⟩, rfl⟩
  rw [Option.map_some, if_pos hkey, Option.filter_some]
  by_cases hout : s.outlived now id job = true
  · rw [if_pos (hmem.mpr hout), hout]
    rfl
  · rw [if_neg (mt hmem.mp hout), Bool.eq_false_iff.mpr hout]
    rfl

/-! ### An eviction that does not raise -/

/-- A record makes no eviction raise: it passes its check, the expiry of its heavy values can be
read, and its artifact handles can be listed once it is to go. -/
structure Evictable (s : JobStore) (now : PyFloat) (jobId : String) (job : JobRecord) : Prop where
  check : validateCommonRecord job = .ok ()
  expiry : job.hasStatus (.ended .completed) = true → job.hasHeavyObjects = true →
    ∃ expiresAt, job.heavyObjectsExpiresAt s.heavyObjectTtlSeconds = .ok expiresAt
  handles : s.outlived now jobId job = true → ∃ handles, job.artifactHandles = .ok handles

/-- A record that passes its check has a creation time. -/
theorem exists_createdAt (h : validateCommonRecord job = .ok ()) :
    ∃ created, createdAt job = .ok created := by
  obtain ⟨status, hvalid⟩ := validateCommonRecord_eq_ok_iff.mp h
  obtain ⟨v, hv, x, hx⟩ := hvalid.createdAt
  suffices hfloat : ∃ x, floatOf v = .ok x by
    obtain ⟨x, hx⟩ := hfloat
    exact ⟨x, bind_eq_ok_iff.mpr ⟨v, expect_eq_ok_iff.mpr hv, hx⟩⟩
  unfold validateTimestamp at hx
  dsimp only at hx
  split at hx
  · obtain ⟨y, hy, -⟩ := bind_eq_ok_iff.mp hx
    exact ⟨y, hy⟩
  · exact ⟨_, rfl⟩
  · exact ⟨_, rfl⟩
  · cases hx

/-- Clearing does not change the heavy objects' time to live. -/
theorem heavyObjectTtlSeconds_clearIfExpired (now : PyFloat) (e : String × JobRecord)
    (s : JobStore) :
    (clearIfExpired now e s).2.heavyObjectTtlSeconds = s.heavyObjectTtlSeconds := by
  rcases clearIfExpired_due now e.1 e.2 s with ⟨hsame, -⟩ | ⟨-, hclear⟩
  · rw [hsame]
  · rw [hclear]
    rfl

/-- A valid record with readable times is cleared without an error. -/
theorem clearIfExpired_ok (hcheck : validateCommonRecord job = .ok ())
    (hexpiry : job.hasStatus (.ended .completed) = true → job.hasHeavyObjects = true →
      ∃ expiresAt, job.heavyObjectsExpiresAt s.heavyObjectTtlSeconds = .ok expiresAt) :
    (clearIfExpired now (jobId, job) s).1 = .ok () := by
  unfold clearIfExpired
  simp only [Effect.bind_apply, Effect.ofExcept_apply, hcheck]
  split_ifs with hcond
  · obtain ⟨hcompleted, hheavy⟩ := Bool.and_eq_true_iff.mp hcond
    obtain ⟨expiresAt, hexpires⟩ := hexpiry hcompleted hheavy
    simp only [Effect.bind_apply, Effect.get_apply, Effect.ofExcept_apply, hexpires]
    split_ifs
    · rfl
    · rw [clearHeavyObjectsLocked_apply (valid_of_check hcheck hcompleted)]
  · rfl

/-- Removals do not raise where the handles of each job removed can be listed. -/
theorem forEach_removeJobLocked_ok {ι : Type} (id : ι → String) (xs : List ι)
    (h : ∀ x ∈ xs, ∀ job, s.jobs.get? (id x) = some job →
      ∃ handles, job.artifactHandles = .ok handles) :
    (Effect.forEach (fun x => removeJobLocked (id x)) xs s).1 = .ok () := by
  refine Effect.forEach_ok (P := fun t => ∀ id job, t.jobs.get? id = some job →
    s.jobs.get? id = some job) xs
    (fun x hx t ht => ?_) fun _ _ hjob => hjob
  rcases hjob : t.jobs.get? (id x) with _ | job
  · have hnone : removeJobLocked (id x) t = (.ok (), t) := by
      unfold removeJobLocked
      simp only [Effect.bind_apply, Effect.get_apply, hjob, Effect.pure_apply]
    rw [hnone]
    exact ⟨rfl, ht⟩
  · obtain ⟨handles, hhandles⟩ := h x hx job (ht _ _ hjob)
    rw [removeJobLocked_apply hjob, hhandles]
    refine ⟨rfl, fun id' job' hjob' => ?_⟩
    rw [get?_withRemoved] at hjob'
    split_ifs at hjob'
    exact ht id' job' hjob'

/-- A sweep keeps a job's handles. -/
theorem artifactHandles_swept (job : JobRecord) (ttl : ℕ) (now : PyFloat) :
    (job.swept ttl now).artifactHandles = job.artifactHandles := by
  unfold JobRecord.artifactHandles
  rw [JobRecord.get?_swept (by decide) (by decide) (by decide)]

/-- A sweep keeps when a job was created. -/
theorem createdAt_swept (job : JobRecord) (ttl : ℕ) (now : PyFloat) :
    createdAt (job.swept ttl now) = createdAt job := by
  unfold createdAt
  rw [JobRecord.get?_swept (by decide) (by decide) (by decide)]

/-- The test of a job whose creation time can be read. -/
theorem exists_isStale_ok {created : PyFloat} (h : createdAt job = .ok created) (now : PyFloat)
    (jobId : String) (s : JobStore) : ∃ stale, (isStale now (jobId, job) s).1 = .ok stale := by
  rw [isStale_apply, keptFrom, h]
  exact ⟨_, rfl⟩

/-- **An eviction does not raise** where no record makes it. -/
theorem evictStaleLocked_ok (h : ∀ id job, s.jobs.get? id = some job → s.Evictable now id job) :
    (evictStaleLocked now s).1 = .ok () := by
  have hentry : ∀ e ∈ s.jobs.entries, s.Evictable now e.1 e.2 := fun e he =>
    h e.1 e.2 (OrdDict.mem_entries_iff.mp he)
  have hclears : (Effect.forEach (clearIfExpired now) s.jobs.entries s).1 = .ok () := by
    refine Effect.forEach_ok (P := fun t => t.heavyObjectTtlSeconds = s.heavyObjectTtlSeconds) _
      (fun e he t ht => ⟨clearIfExpired_ok (hentry e he).check ?_, ?_⟩) rfl
    · rw [ht]
      exact (hentry e he).expiry
    · rw [heavyObjectTtlSeconds_clearIfExpired, ht]
  obtain ⟨hcleared, hget⟩ := @forEach_clearIfExpired s now s.jobs.entries s.jobs.nodupKeys
    fun e he => OrdDict.mem_entries_iff.mp he
  unfold evictStaleLocked clearExpiredHeavyObjectsLocked
  simp only [Effect.bind_apply, Effect.get_apply]
  rcases hclear : Effect.forEach (clearIfExpired now) s.jobs.entries s with ⟨_ | _, mid⟩ <;>
    rw [hclear] at hclears hcleared hget
  · cases hclears
  replace hget := hget rfl
  -- what is stored is each job as it was, or cleared
  have hmid : ∀ id new, mid.jobs.get? id = some new → ∃ old, s.jobs.get? id = some old ∧
      new = old.swept s.heavyObjectTtlSeconds now := by
    intro id new hnew
    rw [hget] at hnew
    obtain ⟨old, hold, hsame⟩ := Option.map_eq_some_iff.mp hnew
    have hkey : id ∈ Assoc.keys s.jobs.entries := OrdDict.mem_keys_iff.mpr ⟨old, hold⟩
    rw [if_pos hkey] at hsame
    exact ⟨old, hold, hsame.symm⟩
  obtain ⟨htidied, hjobs, hstale⟩ := @filterM_isStale mid now mid.jobs.entries
    fun e he => OrdDict.mem_entries_iff.mp he
  have htested : ∃ stale, (Effect.filterM (isStale now) mid.jobs.entries mid).1 = .ok stale := by
    refine Effect.exists_filterM_ok _ (fun e he t => ?_) mid
    obtain ⟨old, hold, hswept⟩ := hmid e.1 e.2 (OrdDict.mem_entries_iff.mp he)
    obtain ⟨created, hcreated⟩ := exists_createdAt (h e.1 old hold).check
    have hcreated : createdAt e.2 = .ok created := by rw [hswept, createdAt_swept, hcreated]
    exact exists_isStale_ok hcreated now e.1 t
  dsimp only
  rcases hfilter : Effect.filterM (isStale now) mid.jobs.entries mid with ⟨_ | stale, tested⟩ <;>
    rw [hfilter] at htested htidied hjobs hstale
  · obtain ⟨_, h⟩ := htested
    cases h
  obtain rfl := hstale stale rfl
  refine forEach_removeJobLocked_ok Prod.fst _ fun e he job hjob => ?_
  obtain ⟨hstored, hout⟩ := List.mem_filter.mp he
  have hstored := OrdDict.mem_entries_iff.mp hstored
  obtain ⟨old, hold, hswept⟩ := hmid e.1 e.2 hstored
  obtain ⟨new, hnew, hkept⟩ := hcleared.kept e.1 old hold
  obtain rfl := Option.some.inj (hstored.symm.trans hnew)
  have hout : s.outlived now e.1 old = true := (outlived_congr hcleared.ttl hkept).symm.trans hout
  obtain ⟨handles, hhandles⟩ := (h e.1 old hold).handles hout
  obtain rfl : e.2 = job := Option.some.inj (hstored.symm.trans (hjobs ▸ hjob))
  refine ⟨handles, ?_⟩
  rw [hswept, artifactHandles_swept, hhandles]

end JobStore

end Haute
