import Haute.Jobs.Store

/-!
# What an operation can do to the store

Reading a store first sweeps it: completed jobs lose heavy values that are due, and stale
jobs go. `Sweep` is one such change, and whatever an operation does before its own part,
or a sweep does before it raises, is a chain of them. The lemmas of the second half say
what each operation does besides.
-/

namespace Haute

open Relation (ReflTransGen)

namespace JobRecord

variable {job : JobRecord}

theorem get?_cleared {key : String} {ttl : ℕ} {now : PyFloat}
    (h1 : key ≠ "heavy_objects_cleared_at")
    (h2 : key ≠ "heavy_objects_retention_seconds") :
    (job.cleared ttl now).get? key =
      if key ∈ heavyObjectExpiresAtKey :: heavyObjectKeys then none else job.get? key := by
  rw [cleared, OrdDict.insert, OrdDict.insert, OrdDict.get?_upsert_ne h2, OrdDict.get?_upsert_ne h1,
    get?_without]

/-- Clearing the heavy values leaves the lifecycle fields and the message alone. -/
theorem Valid.cleared {status : JobStatus} (h : job.Valid status) (ttl : ℕ) (now : PyFloat) :
    (job.cleared ttl now).Valid status := by
  refine h.congr fun key hkey => ?_
  have hkeys : ∀ key ∈ "message" :: lifecycleKeys, key ≠ "heavy_objects_cleared_at" ∧
      key ≠ "heavy_objects_retention_seconds" ∧
        key ∉ heavyObjectExpiresAtKey :: heavyObjectKeys := by
    decide
  obtain ⟨h1, h2, h3⟩ := hkeys key hkey
  rw [get?_cleared h1 h2, if_neg h3]

end JobRecord

namespace JobStore

variable {s t : JobStore}

/-- One change of a sweep. -/
inductive Sweep : JobStore → JobStore → Prop where
  /-- The activity of the running jobs is tidied. -/
  | activity (s : JobStore) (at_ : OrdDict String PyFloat) : Sweep s
    { s with runningActivityAt := at_ }
  /-- A completed job loses its heavy values. -/
  | clear (s : JobStore) (jobId : String) (job : JobRecord) (now : PyFloat)
      (hjob : s.jobs.get? jobId = some job) (hvalid : job.Valid (.ended .completed)) :
      Sweep s ((s.queueReleases (job.detachHeavyValues heavyObjectKeys)).putJob jobId
        (job.cleared s.heavyObjectTtlSeconds now))
  /-- A job goes. -/
  | remove (s : JobStore) (jobId : String) (job : JobRecord) (handles : List ArtifactHandle)
      (hjob : s.jobs.get? jobId = some job) (hhandles : job.artifactHandles = .ok handles) :
      Sweep s (((s.queueReleases (job.detachHeavyValues heavyObjectKeys)).dropJob
        jobId).queueCleanup
        jobId handles)

/-- The changes of a sweep, in their order. -/
abbrev Sweeps : JobStore → JobStore → Prop := ReflTransGen Sweep

/-- What every change of a sweep keeps, the sweep keeps. -/
theorem Sweeps.keeps {P : JobStore → Prop} (h : Sweeps s t) (hs : P s)
    (hstep : ∀ s t, Sweep s t → P s → P t) : P t := by
  induction h with
  | refl => exact hs
  | tail _ hlast ih => exact hstep _ _ hlast ih

/-- A record that passes its check and has a status is valid with that status. -/
theorem valid_of_check {job : JobRecord} {status : JobStatus}
    (h : validateCommonRecord job = .ok ())
    (hstatus : job.hasStatus status = true) : job.Valid status := by
  obtain ⟨status', hvalid⟩ := validateCommonRecord_eq_ok_iff.mp h
  rw [JobRecord.hasStatus_iff, hvalid.read] at hstatus
  exact Option.some.inj hstatus ▸ hvalid

/-- Clearing a completed job's heavy values does not raise. -/
theorem clearHeavyObjectsLocked_apply {jobId : String} {job : JobRecord} {now : PyFloat}
    (h : job.Valid (.ended .completed)) :
    clearHeavyObjectsLocked jobId job now s =
      (.ok (), (s.queueReleases (job.detachHeavyValues heavyObjectKeys)).putJob jobId
        (job.cleared s.heavyObjectTtlSeconds now)) := by
  have h1 := validateCommonRecord_eq_ok_iff.mpr ⟨_, h⟩
  have h2 := validateCommonRecord_eq_ok_iff.mpr ⟨_, h.cleared s.heavyObjectTtlSeconds now⟩
  unfold clearHeavyObjectsLocked
  rw [h1]
  change (Effect.ofExcept (validateCommonRecord (job.cleared s.heavyObjectTtlSeconds now)) >>=
    fun _ => Effect.modify _) _ = _
  rw [h2]
  rfl

/-- What one turn of the expiry loop does. -/
theorem clearIfExpired_cases (now : PyFloat) (jobId : String) (job : JobRecord) :
    (clearIfExpired now (jobId, job) s).2 = s ∨
      job.Valid (.ended .completed) ∧ (clearIfExpired now (jobId, job) s).2 =
        (s.queueReleases (job.detachHeavyValues heavyObjectKeys)).putJob jobId
          (job.cleared s.heavyObjectTtlSeconds now) := by
  unfold clearIfExpired
  simp only [Effect.bind_apply, Effect.ofExcept_apply]
  rcases hcheck : validateCommonRecord job with e | _
  · exact .inl rfl
  simp only
  split_ifs with hcond
  · simp only [Effect.bind_apply, Effect.get_apply, Effect.ofExcept_apply]
    rcases job.heavyObjectsExpiresAt s.heavyObjectTtlSeconds with e | expiresAt
    · exact .inl rfl
    simp only
    have hvalid := valid_of_check hcheck (Bool.and_eq_true_iff.mp hcond).1
    split_ifs with hdue
    · exact .inl rfl
    · exact .inr ⟨hvalid, by rw [clearHeavyObjectsLocked_apply hvalid]⟩
  · exact .inl rfl

/-- **The expiry loop** goes over the jobs as they were when it started: a turn writes only
its own job. -/
theorem sweeps_clearIfExpired (now : PyFloat) (entries : List (String × JobRecord))
    (hn : (Assoc.keys entries).Nodup) (h : ∀ e ∈ entries, s.jobs.get? e.1 = some e.2) :
    Sweeps s (Effect.forEach (clearIfExpired now) entries s).2 := by
  induction entries generalizing s with
  | nil => exact .refl
  | cons e entries ih =>
    rw [Assoc.keys_cons, List.nodup_cons] at hn
    have hjob := h e List.mem_cons_self
    have hfirst : Sweeps s (clearIfExpired now e s).2 ∧
        ∀ e' ∈ entries, (clearIfExpired now e s).2.jobs.get? e'.1 = some e'.2 := by
      rcases clearIfExpired_cases now e.1 e.2 with hsame | ⟨hvalid, hclear⟩
      · rw [hsame]
        exact ⟨.refl, fun e' he' => h e' (List.mem_cons_of_mem _ he')⟩
      · rw [hclear]
        refine ⟨.single (.clear s e.1 e.2 now hjob hvalid), fun e' he' => ?_⟩
        have hne : e'.1 ≠ e.1 := fun heq => hn.1 (heq ▸ Assoc.mem_keys_of_mem he')
        exact (OrdDict.get?_upsert_ne hne _ _).trans (h e' (List.mem_cons_of_mem _ he'))
    rw [Effect.forEach, Effect.bind_apply]
    rcases hrun : clearIfExpired now e s with ⟨_ | _, t⟩ <;> rw [hrun] at hfirst
    · exact hfirst.1
    · exact hfirst.1.trans (ih hn.2 hfirst.2)

open Effect (Moves)

theorem sweeps_removeJobLocked (jobId : String) : Moves Sweeps (removeJobLocked jobId) := by
  intro s
  simp only [removeJobLocked, Effect.bind_apply, Effect.get_apply]
  rcases hjob : s.jobs.get? jobId with _ | job
  · exact .refl
  · simp only [Effect.bind_apply, Effect.ofExcept_apply]
    rcases hhandles : job.artifactHandles with e | handles
    · exact .refl
    · exact .single (.remove s jobId job handles hjob hhandles)

theorem sweeps_isStale (now : PyFloat) (entry : String × JobRecord) :
    Moves Sweeps (isStale now entry) := by
  refine .bind ?_ fun _ => .bind .get fun _ => .pure _
  unfold jobEvictionTimestampLocked
  split_ifs
  · exact .bind (.ofExcept _) fun _ => .bind .get fun _ => .pure _
  · exact .bind (fun s => .single (.activity s _)) fun _ => .ofExcept _

/-- **Eviction is a sweep**, and as far as it has got when it raises. -/
theorem sweeps_evictStaleLocked (now : PyFloat) : Moves Sweeps (evictStaleLocked now) := by
  refine .bind (fun s => ?_) fun _ => .bind .get fun s =>
    .bind (.filterM (sweeps_isStale now) _) fun _ =>
    .forEach (fun entry : String × JobRecord => sweeps_removeJobLocked entry.1) _
  exact sweeps_clearIfExpired now s.jobs.entries s.jobs.nodupKeys fun e he =>
    OrdDict.mem_entries_iff.mp he

end JobStore

end Haute
