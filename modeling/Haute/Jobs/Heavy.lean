import Haute.Jobs.Eviction

/-!
# Heavy resources are released once

A resource the store has been given is stored under a heavy field, or queued for release,
or has been released. `accounted` counts its places; every event leaves the count as it
was, but for the resources that a payload brings. So as long as payloads bring new
resources only, and what a section detaches really leaves its record, a resource has one
place.

The second condition is one the code does not see to: `_store_merged_job_locked` and
`clear_result_data` queue what they detach before they check the record that is to lose
it. Where the check raises, the record keeps a resource that is about to be released
(`released_while_stored`).

A removal lists the handles of the job it takes. `clear_all` and an eviction take jobs one after
another, and keep what they have taken when a later one raises: so that a mutation which raises
leaves the store alone, the records it finds have to be readable (`Readable`).
-/

namespace Haute

namespace JobRecord

/-- How many of the record's heavy fields hold the resource. -/
def holding (job : JobRecord) (r : ℕ) : ℕ :=
  heavyObjectKeys.countP fun key => decide (job.resourceAt key = some r)

/-- The record gets the resource from the payload, under the field. -/
def adopts (old fields : JobRecord) (r : ℕ) (key : String) : Bool :=
  decide (fields.resourceAt key = some r ∧ old.resourceAt key ≠ some r)

theorem resourceAt_congr {job other : JobRecord} {key : String}
    (h : job.get? key = other.get? key) :
    job.resourceAt key = other.resourceAt key := by
  unfold resourceAt
  rw [h]

theorem resourceAt_eq_some_iff {job : JobRecord} {key : String} {r : ℕ} :
    job.resourceAt key = some r ↔ job.get? key = some (.resource r) := by
  unfold resourceAt
  rcases job.get? key with _ | _ | r' | _ <;> simp

theorem count_detachHeavyValues (job : JobRecord) (keys : List String) (r : ℕ) :
    (job.detachHeavyValues keys).count r = keys.countP fun key =>
      decide (job.resourceAt key = some r) := by
  unfold detachHeavyValues
  induction keys with
  | nil => rfl
  | cons key keys ih =>
    rw [List.filterMap_cons, List.countP_cons]
    rcases job.resourceAt key with _ | r'
    · simpa using ih
    · by_cases hr : r' = r
      · simp [hr, ih]
      · simp [hr, ih]

/-- A record that keeps no heavy value holds nothing. -/
theorem holding_eq_zero {job : JobRecord} (h : ∀ key ∈ heavyObjectKeys, job.get? key = none)
    (r : ℕ) :
    job.holding r = 0 := by
  refine List.countP_eq_zero.mpr fun key hkey => ?_
  simp [resourceAt, h key hkey]

theorem holding_congr {job other : JobRecord}
    (h : ∀ key ∈ heavyObjectKeys, job.get? key = other.get? key) (r : ℕ) :
    job.holding r = other.holding r :=
  List.countP_congr fun key hkey => by rw [resourceAt_congr (h key hkey)]

private theorem countP_balance {α : Type} (xs : List α) {p q q' a b : α → Bool}
    (h : ∀ x ∈ xs, (p x).toNat + (q x).toNat + (q' x).toNat = (a x).toNat + (b x).toNat) :
    xs.countP p + xs.countP q + xs.countP q' = xs.countP a + xs.countP b := by
  induction xs with
  | nil => rfl
  | cons x xs ih =>
    have hx := h x List.mem_cons_self
    have hxs := ih fun y hy => h y (List.mem_cons_of_mem _ hy)
    have hind (f : α → Bool) : (if f x = true then 1 else 0) = (f x).toNat := by
      rcases f x <;> rfl
    simp only [List.countP_cons, hind]
    omega

/-- **A merge moves resources.** What the record held and what the payload brings, the new
record holds or the merge detaches. -/
theorem holding_of_merged {old fields new : JobRecord} {ttl : ℕ} {now : PyFloat}
    (h : old.merged fields ttl now = .ok new) (r : ℕ) :
    new.holding r + (old.mergeDetaches fields).count r =
      old.holding r + heavyObjectKeys.countP (old.adopts fields r) := by
  rw [mergeDetaches, List.count_append, count_detachHeavyValues, count_detachHeavyValues,
    ← add_assoc]
  have howning : (old.update fields).owningKeys = heavyObjectKeys.filter fun key =>
      decide (key ∈ (old.update fields).owningKeys) := by
    unfold owningKeys
    split_ifs
    · simp
    · refine List.filter_congr fun key hkey => ?_
      simp [hkey]
  rw [howning, replacedKeys, List.countP_filter, List.countP_filter]
  refine countP_balance heavyObjectKeys fun key hkey => ?_
  have hnew : new.resourceAt key = if key ∈ (old.update fields).owningKeys then none
      else (old.update fields).resourceAt key := by
    have hne : ∀ key ∈ heavyObjectKeys, key ≠ "completed_at" ∧ key ≠ heavyObjectExpiresAtKey := by
      decide
    have hget := get?_of_merged h (hne key hkey).1 (hne key hkey).2
    rw [← get?_update] at hget
    unfold resourceAt
    rw [hget]
    split_ifs <;> rfl
  -- what the field holds once it is merged stays, or is swept
  have hswept : (decide (new.resourceAt key = some r)).toNat +
      (decide ((old.update fields).resourceAt key = some r) &&
        decide (key ∈ (old.update fields).owningKeys)).toNat =
      (decide ((old.update fields).resourceAt key = some r)).toNat := by
    rw [hnew]
    by_cases hown : key ∈ (old.update fields).owningKeys <;> simp [hown]
  -- what the field held stays, or is replaced by what the payload brings
  have hmerged : (decide ((old.update fields).resourceAt key = some r)).toNat +
      (decide (old.resourceAt key = some r) &&
        decide (key ∈ fields.keys ∧ key ∈ old.keys ∧ old.get? key ≠ fields.get? key)).toNat =
      (decide (old.resourceAt key = some r)).toNat + (old.adopts fields r key).toNat := by
    rw [adopts]
    rcases hf : fields.get? key with _ | v
    · have hkey : key ∉ fields.keys := OrdDict.get?_eq_none_iff.mp hf
      have hupdate : (old.update fields).resourceAt key = old.resourceAt key :=
        resourceAt_congr (by rw [get?_update, hf]; rfl)
      have hnone : fields.resourceAt key = none := by simp [resourceAt, hf]
      simp [hkey, hupdate, hnone]
    · have hkey : key ∈ fields.keys := OrdDict.mem_keys_iff.mpr ⟨v, hf⟩
      have hupdate : (old.update fields).resourceAt key = fields.resourceAt key :=
        resourceAt_congr (by rw [get?_update, hf]; rfl)
      rcases ho : old.get? key with _ | w
      · have hkey' : key ∉ old.keys := OrdDict.get?_eq_none_iff.mp ho
        have hnone : old.resourceAt key = none := by simp [resourceAt, ho]
        simp [hkey', hupdate, hnone]
      · have hkey' : key ∈ old.keys := OrdDict.mem_keys_iff.mpr ⟨w, ho⟩
        by_cases hvw : w = v
        · have hsame : fields.resourceAt key = old.resourceAt key :=
            resourceAt_congr (by rw [hf, ho, hvw])
          simp [hvw, hupdate, hsame]
        · by_cases hfr : fields.resourceAt key = some r
          · have hor : old.resourceAt key ≠ some r := by
              rw [resourceAt_eq_some_iff, hf] at hfr
              rw [Ne, resourceAt_eq_some_iff, ho, ← hfr]
              simpa using hvw
            simp [hupdate, hfr, hor]
          · simp [hupdate, hfr, hkey, hkey', hvw]
  omega

/-- Taking some fields from a record takes the resources they hold, each once where no
field that holds one is named twice. -/
theorem holding_withoutResultData {job : JobRecord} {keys : List String}
    (h : ∀ key ∈ heavyObjectKeys, (job.resourceAt key).isSome = true → keys.count key ≤ 1) (r : ℕ) :
    (job.withoutResultData keys).holding r +
      (job.detachHeavyValues (keys.filter (· ∈ heavyObjectKeys))).count r = job.holding r := by
  have hread : ∀ key ∈ heavyObjectKeys, (job.withoutResultData keys).get? key =
      if key ∈ keys then none else job.get? key := by
    intro key hkey
    have hne : ∀ key ∈ heavyObjectKeys, key ∉ [heavyObjectExpiresAtKey] := by decide
    unfold withoutResultData
    split_ifs <;> simp only [get?_without, if_neg (hne key hkey)] <;> simp [*]
  have hleft : (job.withoutResultData keys).holding r =
      heavyObjectKeys.countP fun key => decide (job.resourceAt key = some r) && decide
        (key ∉ keys) := by
    refine List.countP_congr fun key hkey => ?_
    simp [resourceAt_eq_some_iff, hread key hkey]
    tauto
  -- the fields named that hold the resource, in either order
  have hperm : ((keys.filter (· ∈ heavyObjectKeys)).filter fun key =>
      decide (job.resourceAt key = some r)).Perm
      (heavyObjectKeys.filter fun key => decide (job.resourceAt key = some r) && decide
        (key ∈ keys)) := by
    refine (List.perm_ext_iff_of_nodup ?_ ?_).mpr fun key => ?_
    · refine List.nodup_iff_count_le_one.mpr fun key => ?_
      by_cases hin : key ∈ (keys.filter (· ∈ heavyObjectKeys)).filter fun key =>
          decide (job.resourceAt key = some r)
      · obtain ⟨hheavy, hr⟩ := List.mem_filter.mp hin
        have hheavy := of_decide_eq_true (List.mem_filter.mp hheavy).2
        refine (List.Sublist.count_le key (List.filter_sublist.trans List.filter_sublist)).trans
          (h key hheavy ?_)
        rw [of_decide_eq_true hr]
        rfl
      · rw [List.count_eq_zero_of_not_mem hin]
        exact Nat.zero_le 1
    · exact List.Nodup.filter _ (by decide)
    · simp only [List.mem_filter, decide_eq_true_eq, Bool.and_eq_true]
      tauto
  have hright : (job.detachHeavyValues (keys.filter (· ∈ heavyObjectKeys))).count r =
      heavyObjectKeys.countP fun key => decide (job.resourceAt key = some r) && decide
        (key ∈ keys) := by
    rw [count_detachHeavyValues, List.countP_eq_length_filter, List.countP_eq_length_filter,
      hperm.length_eq]
  rw [hleft, hright, holding]
  have hbalance := @countP_balance _ heavyObjectKeys
    (fun key => decide (job.resourceAt key = some r) && decide (key ∉ keys))
    (fun key => decide (job.resourceAt key = some r) && decide (key ∈ keys)) (fun _ => false)
    (fun key => decide (job.resourceAt key = some r)) (fun _ => false) fun key _ => by
      by_cases hk : key ∈ keys <;> simp [hk]
  simpa using hbalance

end JobRecord

namespace JobStore

variable {s t : JobStore}

/-- How many heavy fields of the jobs hold the resource. -/
def stored (s : JobStore) (r : ℕ) : ℕ := (s.jobs.entries.map fun e => e.2.holding r).sum

/-- How many places the resource has: heavy fields, the queue for release, and the log of
what has been released. -/
def accounted (s : JobStore) (r : ℕ) : ℕ :=
  s.stored r + s.heavyReleases.count r + s.released.count r

/-- How many fields of an event's payload bring the resource to the store. -/
def brings (s : JobStore) (r : ℕ) : JobEvent → ℕ
  | .createJob _ initialStatus _ _ => initialStatus.holding r
  | e => match s.requested e with
    | none => 0
    | some m => heavyObjectKeys.countP (m.old.adopts m.fields r)

/-- A payload brings a resource the store has not had, and under one field; a merge that
detaches something passes its check; and so does clearing a job's data, whose keys are
named once where they hold a resource. -/
structure Careful (s : JobStore) (e : JobEvent) : Prop where
  brings : ∀ r, s.brings r e ≠ 0 → s.brings r e = 1 ∧ s.accounted r = 0
  merges : ∀ m, s.requested e = some m → m.old.mergeDetaches m.fields ≠ [] →
    ∃ new, m.old.merged m.fields s.heavyObjectTtlSeconds m.now = .ok new
  clears : ∀ jobId keys job, e = .clearResultData jobId keys → s.jobs.get? jobId = some job →
    job.detachHeavyValues (keys.filter (· ∈ heavyObjectKeys)) ≠ [] →
      validateCommonRecord (job.withoutResultData keys) = .ok () ∧
      ∀ key ∈ heavyObjectKeys, (job.resourceAt key).isSome = true → keys.count key ≤ 1

@[simp] theorem queueReleases_nil (s : JobStore) : s.queueReleases [] = s := by
  simp [queueReleases]

/-- Storing a record. -/
theorem stored_putJob (s : JobStore) (jobId : String) (job : JobRecord) (r : ℕ) :
    (s.putJob jobId job).stored r + ((s.jobs.get? jobId).map (JobRecord.holding · r)).getD 0 =
      s.stored r + job.holding r :=
  s.jobs.sum_map_insert_add jobId job (JobRecord.holding · r)

/-- Dropping a job. -/
theorem stored_dropJob (s : JobStore) (jobId : String) (r : ℕ) :
    (s.dropJob jobId).stored r + ((s.jobs.get? jobId).map (JobRecord.holding · r)).getD 0 =
      s.stored r :=
  s.jobs.sum_map_erase_add jobId (JobRecord.holding · r)

theorem count_detachHeavyObjects (job : JobRecord) (r : ℕ) :
    (job.detachHeavyValues heavyObjectKeys).count r = job.holding r :=
  job.count_detachHeavyValues heavyObjectKeys r

/-- **A sweep moves resources to the queue.** -/
theorem accounted_of_sweep (h : Sweep s t) (r : ℕ) : t.accounted r = s.accounted r := by
  cases h
  case activity => rfl
  case clear jobId job now hjob hvalid =>
    have hstored := (s.queueReleases (job.detachHeavyValues heavyObjectKeys)).stored_putJob jobId
      (job.cleared s.heavyObjectTtlSeconds now) r
    have hempty : (job.cleared s.heavyObjectTtlSeconds now).holding r = 0 := by
      refine JobRecord.holding_eq_zero (fun key hkey => ?_) r
      have hne : ∀ key ∈ heavyObjectKeys, key ≠ "heavy_objects_cleared_at" ∧
          key ≠ "heavy_objects_retention_seconds" ∧
          key ∈ heavyObjectExpiresAtKey :: heavyObjectKeys := by decide
      rw [JobRecord.get?_cleared (hne key hkey).1 (hne key hkey).2.1, if_pos (hne key hkey).2.2]
    rw [hempty] at hstored
    change _ + ((s.jobs.get? jobId).map _).getD 0 = s.stored r + 0 at hstored
    rw [hjob] at hstored
    change _ + job.holding r = _ at hstored
    change ((s.queueReleases _).putJob jobId _).stored r + (s.heavyReleases ++ _).count r +
      s.released.count r = s.stored r + s.heavyReleases.count r + s.released.count r
    rw [List.count_append, count_detachHeavyObjects]
    omega
  case remove jobId job handles hjob hhandles =>
    have hstored := (s.queueReleases (job.detachHeavyValues heavyObjectKeys)).stored_dropJob jobId r
    change _ + ((s.jobs.get? jobId).map _).getD 0 = s.stored r at hstored
    rw [hjob] at hstored
    change _ + job.holding r = _ at hstored
    change ((s.queueReleases _).dropJob jobId).stored r + (s.heavyReleases ++ _).count r +
      s.released.count r = s.stored r + s.heavyReleases.count r + s.released.count r
    rw [List.count_append, count_detachHeavyObjects]
    omega

/-- A sweep keeps no job that was not there. -/
theorem notMem_keys_of_sweep (h : Sweep s t) {jobId : String} (hid : jobId ∉ s.jobs.keys) :
    jobId ∉ t.jobs.keys := by
  cases h
  case activity => exact hid
  case clear jobId' job now hjob hvalid =>
    intro hmem
    rcases OrdDict.mem_keys_upsert.mp hmem with rfl | hmem
    · exact hid (OrdDict.mem_keys_iff.mpr ⟨job, hjob⟩)
    · exact hid hmem
  case remove jobId' job handles hjob hhandles =>
    exact fun hmem => hid (OrdDict.mem_keys_erase.mp hmem).1

theorem accounted_of_sweeps (h : Sweeps s t) (r : ℕ) : t.accounted r = s.accounted r :=
  h.keeps (P := fun t => t.accounted r = s.accounted r) rfl fun _ _ hstep ih =>
    (accounted_of_sweep hstep r).trans ih

theorem notMem_keys_of_sweeps (h : Sweeps s t) {jobId : String} (hid : jobId ∉ s.jobs.keys) :
    jobId ∉ t.jobs.keys :=
  h.keeps (P := fun t => jobId ∉ t.jobs.keys) hid fun _ _ hstep ih => notMem_keys_of_sweep hstep ih

/-- Replacing a job's record. -/
private theorem stored_replace {jobId : String} {old new : JobRecord} {r n : ℕ}
    (hold : s.jobs.get? jobId = some old) (h : new.holding r + n = old.holding r) :
    (s.putJob jobId new).stored r + n = s.stored r := by
  have hstored := s.stored_putJob jobId new r
  rw [hold] at hstored
  change _ + old.holding r = _ at hstored
  omega

/-- The lease and artifact steps leave jobs, queue and log alone. -/
private theorem accounted_congr (hjobs : t.jobs = s.jobs)
    (hqueue : t.heavyReleases = s.heavyReleases)
    (hreleased : t.released = s.released) (r : ℕ) : t.accounted r = s.accounted r := by
  simp only [accounted, stored, hjobs, hqueue, hreleased]

/-- **What an event's own part accounts for**: what it brings, and the rest as before. -/
theorem accounted_of_ownPart {cleaners : List String} {e : JobEvent} (hcareful : s.Careful e)
    (henabled : s.enabled e) (h : OwnPart cleaners e s t) (r : ℕ) :
    t.accounted r = s.accounted r ∨ t.accounted r = s.accounted r + s.brings r e := by
  cases h
  case nothing => exact .inl rfl
  case create jobId initialStatus now now' hstatus hcheck =>
    have hstored := s.stored_putJob jobId
      (initialStatus.setdefault "created_at" (.plain (.float now'))) r
    rw [OrdDict.get?_eq_none_iff.mpr henabled] at hstored
    -- the time of creation is none of the fields that hold resources
    have hsame : JobRecord.holding
        (initialStatus.setdefault "created_at" (.plain (.float now'))) r =
        initialStatus.holding r := by
      refine JobRecord.holding_congr (fun key hkey => ?_) r
      have hne : ∀ key ∈ heavyObjectKeys, key ≠ "created_at" := by decide
      exact OrdDict.get?_upsert_ne (hne key hkey) _ _
    rw [hsame] at hstored
    change _ + 0 = _ at hstored
    right
    change (s.putJob jobId _).stored r + s.heavyReleases.count r + s.released.count r =
      s.stored r + s.heavyReleases.count r + s.released.count r + initialStatus.holding r
    omega
  case touch jobId requiredKeys now now' job expiresAt hcheck hjob =>
    have hsame : JobRecord.holding
        (job.insert heavyObjectExpiresAtKey (.plain (.float expiresAt))) r =
        job.holding r := by
      refine JobRecord.holding_congr (fun key hkey => ?_) r
      have hne : ∀ key ∈ heavyObjectKeys, key ≠ heavyObjectExpiresAtKey := by decide
      exact OrdDict.get?_upsert_ne (hne key hkey) _ _
    have hstored := stored_replace (n := 0) hjob hsame
    left
    change (s.putJob jobId _).stored r + s.heavyReleases.count r + s.released.count r =
      s.stored r + s.heavyReleases.count r + s.released.count r
    omega
  case merge m hreq =>
    rw [storeMergedJobLocked_apply]
    have hget := (get?_of_requested hreq).1
    rcases hmerged : m.old.merged m.fields s.heavyObjectTtlSeconds m.now with error | new
    · -- the record keeps what it holds, and nothing is detached
      left
      have hnil : m.old.mergeDetaches m.fields = [] := by
        by_contra hne
        obtain ⟨new, hnew⟩ := hcareful.merges m hreq hne
        rw [hmerged] at hnew
        cases hnew
      change (s.queueReleases _).accounted r = _
      rw [hnil, queueReleases_nil]
    · right
      have hbalance := JobRecord.holding_of_merged hmerged r
      have hbrings : s.brings r e = heavyObjectKeys.countP (m.old.adopts m.fields r) := by
        rcases e with _ | _ | _ | _ | _ | _ | _ | a | a | a | _ | _ | _ | _ | _ | _ | _ | _ | _ | _
        case transitionTerminal | compareAndPublishCompletion | update => simp only [brings, hreq]
        all_goals cases hreq
      have hstored := s.stored_putJob m.jobId new r
      rw [hget] at hstored
      change _ + m.old.holding r = _ at hstored
      change (s.putJob m.jobId new).stored r + (s.heavyReleases ++ _).count r + s.released.count r =
        s.stored r + s.heavyReleases.count r + s.released.count r + _
      rw [List.count_append, hbrings]
      omega
  case clearFails jobId keys job error hvalid herror hjob =>
    left
    have hnil : job.detachHeavyValues (keys.filter (· ∈ heavyObjectKeys)) = [] := by
      by_contra hne
      rw [(hcareful.clears jobId keys job rfl hjob hne).1] at herror
      cases herror
    rw [hnil, queueReleases_nil]
  case clear jobId keys job hvalid hcheck hjob =>
    left
    have hkeys : ∀ key ∈ heavyObjectKeys, (job.resourceAt key).isSome = true →
        keys.count key ≤ 1 := by
      by_cases hnil : job.detachHeavyValues (keys.filter (· ∈ heavyObjectKeys)) = []
      · -- no field named holds a resource
        intro key hkey hsome
        rw [List.count_eq_zero_of_not_mem]
        · exact Nat.zero_le 1
        · intro hmem
          have hnone := List.filterMap_eq_nil_iff.mp hnil key (by simp [hmem, hkey])
          rw [hnone] at hsome
          cases hsome
      · exact (hcareful.clears jobId keys job rfl hjob hnil).2
    have hstored := stored_replace hjob (JobRecord.holding_withoutResultData hkeys r)
    change (s.putJob jobId _).stored r + (s.heavyReleases ++ _).count r + s.released.count r =
      s.stored r + s.heavyReleases.count r + s.released.count r
    rw [List.count_append]
    omega
  case detach jobId key old handles handle hhandles hhandle hjob =>
    have hsame : JobRecord.holding
        (old.insert "artifact_handles" (.handles (handles.erase key))) r =
        old.holding r := by
      refine JobRecord.holding_congr (fun key hkey => ?_) r
      have hne : ∀ key ∈ heavyObjectKeys, key ≠ "artifact_handles" := by decide
      exact OrdDict.get?_upsert_ne (hne key hkey) _ _
    have hstored := stored_replace (n := 0) hjob hsame
    left
    change (s.putJob jobId _).stored r + s.heavyReleases.count r + s.released.count r =
      s.stored r + s.heavyReleases.count r + s.released.count r
    omega
  case releaseDetached jobId handles =>
    obtain ⟨h1, h2, h3⟩ := cleanupArtifactHandles_frame jobId handles s
    exact .inl (accounted_congr h1 h2 h3 r)
  case lease => exact .inl (accounted_congr rfl rfl rfl r)
  case endLease handle n hn =>
    obtain ⟨h1, h2, h3⟩ := s.releaseLeaseOf_frame (artifactLeaseKey handle) (n - 1)
    exact .inl (accounted_congr h1 h2 h3 r)
  case cleanup jobId handles =>
    obtain ⟨h1, h2, h3⟩ := cleanupArtifactHandles_frame jobId handles
      { s with cleanups := s.cleanups.erase (jobId, handles) }
    exact .inl (accounted_congr h1 h2 h3 r)
  case clean => exact .inl (accounted_congr rfl rfl rfl r)
  case release value =>
    left
    -- a resource passes from those to release to those released
    have hmem : value ∈ s.heavyReleases := henabled
    change s.stored r + (s.heavyReleases.erase value).count r + (s.released ++ [value]).count r =
      s.stored r + s.heavyReleases.count r + s.released.count r
    rw [List.count_append, List.count_singleton]
    by_cases hr : value = r
    · subst hr
      have hpos := List.count_pos_iff.mpr hmem
      rw [List.count_erase_self]
      simp
      omega
    · rw [List.count_erase_of_ne (Ne.symm hr)]
      simp [hr]

/-- **Every event accounts for the resources it finds**, and for those it brings. -/
theorem accounted_of_perform (cleaners : List String) {e : JobEvent} (hcareful : s.Careful e)
    (henabled : s.enabled e) (r : ℕ) : (perform cleaners e s).2.accounted r = s.accounted r ∨
      (perform cleaners e s).2.accounted r = s.accounted r + s.brings r e := by
  obtain ⟨mid, hsweeps, hmid, hown⟩ := perform_cases cleaners e s
  have hsame := accounted_of_sweeps hsweeps
  rcases hcases : e.sweeps with _ | _
  · obtain rfl := hmid hcases
    exact accounted_of_ownPart hcareful henabled hown r
  · -- a sweep comes first: the payload of a creation is as new after it as before
    have hrequested : ∀ s : JobStore, s.requested e = none := by
      intro s
      cases e <;> first | rfl | cases hcases
    have hbrings : ∀ r, mid.brings r e = s.brings r e := by
      intro r
      cases e <;> first | rfl | cases hcases
    have hcareful' : mid.Careful e := by
      refine ⟨fun r hr => ?_, fun m hm => ?_, fun jobId keys job he => ?_⟩
      · rw [hbrings] at hr ⊢
        rw [hsame]
        exact hcareful.brings r hr
      · rw [hrequested] at hm
        cases hm
      · rw [he] at hcases
        cases hcases
    have henabled' : mid.enabled e := by
      cases e <;>
        first | exact notMem_keys_of_sweeps hsweeps henabled | exact trivial | cases hcases
    rw [← hsame, ← hbrings]
    exact accounted_of_ownPart hcareful' henabled' hown r

/-- The runs whose events are careful. -/
abbrev carefulMachine (cleaners : List String) (ttlSeconds heavyObjectTtlSeconds : ℕ) :
    Machine JobStore JobEvent :=
  (machine cleaners ttlSeconds heavyObjectTtlSeconds).restrict Careful

/-- **A resource has one place.** -/
theorem accounted_le_one {cleaners : List String} {ttlSeconds heavyObjectTtlSeconds : ℕ}
    (h : (carefulMachine cleaners ttlSeconds heavyObjectTtlSeconds).Reachable s) (r : ℕ) :
    s.accounted r ≤ 1 := by
  refine h.invariant (P := fun s => s.accounted r ≤ 1) (fun s hs => ?_) fun s e t ih hstep => ?_
  · rw [show s = _ from hs]
    exact Nat.zero_le 1
  · obtain ⟨hcareful, henabled, rfl⟩ := hstep
    have hbrings := hcareful.brings r
    rcases accounted_of_perform cleaners hcareful henabled r with hsame | hmore <;> omega

/-- What an event finds can be read as far as it needs: the records `clear_all` removes have
handles that can be listed, and no record makes the eviction raise that an operation starts with. -/
structure Readable (s : JobStore) (e : JobEvent) : Prop where
  clearsAll : e = .clearAll → ∀ jobId job, s.jobs.get? jobId = some job →
    ∃ handles, job.artifactHandles = .ok handles
  evicts : ∀ now, e.sweepsAt = some now → ∀ jobId job, s.jobs.get? jobId = some job →
    s.Evictable now jobId job

/-- `clear_all` returns where the handles of every job can be listed. -/
theorem clearAll_ok (h : ∀ jobId job, s.jobs.get? jobId = some job →
    ∃ handles, job.artifactHandles = .ok handles) : (clearAll s).1 = .ok () := by
  have hremove := @forEach_removeJobLocked_ok s _ id s.jobs.keys fun jobId _ job hjob =>
    h jobId job hjob
  simp only [clearAll, Effect.bind_apply, Effect.get_apply]
  rcases hrun : Effect.forEach removeJobLocked s.jobs.keys s with ⟨_ | _, t⟩
  · rw [show Effect.forEach (fun jobId => removeJobLocked (id jobId)) s.jobs.keys s = _ from hrun]
      at hremove
    cases hremove
  · rfl

/-- The timer's callback that raises has cleared nothing. -/
theorem clearExpiredHeavyObjects_error {jobId : String} {now : PyFloat} {error : PyError}
    (h : (clearExpiredHeavyObjects jobId now s).1 = .error error) :
    (clearExpiredHeavyObjects jobId now s).2 = s := by
  simp only [clearExpiredHeavyObjects, Effect.bind_apply, Effect.get_apply] at h ⊢
  rcases hjob : s.jobs.get? jobId with _ | job
  · rfl
  simp only [hjob, Effect.bind_apply, Effect.ofExcept_apply] at h ⊢
  rcases hcheck : validateCommonRecord job with err | _
  · rfl
  simp only [hcheck] at h ⊢
  split_ifs at h ⊢ with hcompleted
  · simp only [Effect.bind_apply, Effect.ofExcept_apply] at h ⊢
    rcases hexpires : job.heavyObjectsExpiresAt s.heavyObjectTtlSeconds with err | expiresAt
    · rfl
    simp only [hexpires] at h ⊢
    split_ifs at h ⊢
    rw [clearHeavyObjectsLocked_apply (valid_of_check hcheck hcompleted)] at h
    cases h

/-- **An operation that evicts first and then raises** has evicted, and done nothing else. -/
theorem evicting_error {cleaners : List String} {e : JobEvent} {error : PyError} {now : PyFloat}
    (hreadable : s.Readable e) (hnow : e.sweepsAt = some now)
    (herror : (perform cleaners e s).1 = .error error) :
    (perform cleaners e s).2 = s ∨ evictStaleLocked now s = (.ok (), (perform cleaners e s).2) := by
  have hevict := evictStaleLocked_ok (hreadable.evicts now hnow)
  -- a read leaves what the eviction left
  have hread (hsame : (perform cleaners e s).2 = (evictStaleLocked now s).2) :
      evictStaleLocked now s = (.ok (), (perform cleaners e s).2) := Prod.ext hevict hsame.symm
  have hafter {α : Type} {rest : Effect JobStore PyError α}
      (hrest : ∀ t, (rest t).1 = .error error → (rest t).2 = t)
      (herror : ((evictStaleLocked now >>= fun _ => rest) s).1 = .error error) :
      evictStaleLocked now s = (.ok (), ((evictStaleLocked now >>= fun _ => rest) s).2) := by
    obtain ⟨_, h⟩ := Effect.eq_of_bind_error ⟨(), hevict⟩ (fun _ => hrest) herror
    exact h
  rcases e with ⟨jobId, initialStatus, now, now'⟩ | ⟨jobId, now⟩ | now | ⟨predicate,
    now⟩ | ⟨status, now⟩ |
    ⟨jobId, requiredKeys, now, now'⟩ | ⟨jobId, now⟩ | a | a | a | ⟨jobId,
      keys⟩ | jobId | _ | ⟨jobId, key⟩ |
    ⟨jobId, handles⟩ | ⟨jobId, key, now⟩ | handle | ⟨jobId, handles⟩ | handle | value
  case createJob =>
    obtain rfl := Option.some.inj hnow
    rw [perform, Effect.void_apply_snd]
    replace herror := Effect.void_eq_error_iff.mp herror
    unfold createJob at herror ⊢
    rw [Effect.bind_apply, Effect.ofExcept_apply] at herror ⊢
    split
    case h_2 _ _ hchecks => exact .inl (Prod.mk.inj hchecks).2.symm
    case h_1 hchecks =>
      rw [hchecks] at herror
      obtain rfl := (Prod.mk.inj hchecks).2
      refine .inr (hafter (fun t h => ?_) herror)
      simp only [Effect.bind_apply, Effect.ofExcept_apply] at h ⊢
      rcases hcheck : validateCommonRecord
        (initialStatus.setdefault "created_at" (.plain (.float now'))) with _ | _
      · rfl
      · rw [hcheck] at h
        cases h
  case getJob =>
    obtain rfl := Option.some.inj hnow
    exact .inr (hread ((Effect.void_apply_snd _ s).trans (getJob_apply_snd jobId _ s)))
  case listJobs =>
    obtain rfl := Option.some.inj hnow
    exact .inr (hread ((Effect.void_apply_snd _ s).trans (listJobs_apply_snd _ s)))
  case hasJobMatching =>
    obtain rfl := Option.some.inj hnow
    exact .inr (hread ((Effect.void_apply_snd _ s).trans (hasJobMatching_apply_snd predicate _ s)))
  case hasJobWithStatus =>
    obtain rfl := Option.some.inj hnow
    have hperform : (perform cleaners (.hasJobWithStatus status now) s).2 =
        (hasJobWithStatus status now s).2 := Effect.void_apply_snd _ s
    rw [hasJobWithStatus, Effect.bind_apply, Effect.ofExcept_apply] at hperform
    rcases hstatus : validateExpectedStatus (some status) with error | _ <;>
      rw [hstatus] at hperform
    · exact .inl hperform
    · exact .inr (hread (hperform.trans (hasJobMatching_apply_snd _ now s)))
  case touchHeavyObjects =>
    obtain rfl := Option.some.inj hnow
    rw [perform, Effect.void_apply_snd]
    refine .inr (hafter (fun t h => ?_) (Effect.void_eq_error_iff.mp herror))
    simp only [Effect.bind_apply, Effect.get_apply] at h ⊢
    rcases hjob : t.jobs.get? jobId with _ | job
    · rfl
    simp only [hjob, Effect.bind_apply, Effect.ofExcept_apply] at h ⊢
    rcases hrefresh : t.refreshedExpiry job requiredKeys now' with _ | ⟨present, _ | updated⟩
    · rfl
    · rfl
    · rw [hrefresh] at h
      cases h
  case lease =>
    obtain rfl := Option.some.inj hnow
    rw [perform, Effect.void_apply_snd]
    refine .inr (hafter (fun t h => ?_) (Effect.void_eq_error_iff.mp herror))
    simp only [Effect.bind_apply, Effect.get_apply, Effect.ofExcept_apply] at h ⊢
    rcases hjob : t.jobs.get? jobId with _ | job
    · rfl
    simp only [hjob, expect] at h ⊢
    rcases hhandles : job.artifactHandlesOrEmpty with _ | handles
    · rfl
    simp only [hhandles] at h ⊢
    rcases hhandle : handles.get? key with _ | handle
    · rfl
    · simp only [hhandle] at h
      cases h
  all_goals cases hnow

/-- A careful mutation that does not evict, and raises, leaves the store as it was. -/
theorem perform_error {cleaners : List String} {e : JobEvent} {error : PyError}
    (hcareful : s.Careful e)
    (hreadable : s.Readable e) (hnow : e.sweepsAt = none)
    (herror : (perform cleaners e s).1 = .error error) : (perform cleaners e s).2 = s := by
  -- a merge that raises has not been asked for, or detaches nothing
  have hmerging (decide : JobStore → Except PyError (Option Merge))
      (hrequest : (decide s).toOption.join = s.requested e)
      (herror : (merging decide s).1 = .error error) : (merging decide s).2 = s := by
    rw [merging_apply, hrequest]
    rcases hreq : s.requested e with _ | m
    · rfl
    have hdecide := toOption_join_eq_some_iff.mp (hrequest.trans hreq)
    simp only [merging, Effect.bind_apply, Effect.get_apply, Effect.ofExcept_apply, hdecide,
      storeMergedJobLocked_apply] at herror ⊢
    rcases hmerged : m.old.merged m.fields s.heavyObjectTtlSeconds m.now with err | new
    · have hnil : m.old.mergeDetaches m.fields = [] := by
        by_contra hne
        obtain ⟨new, hnew⟩ := hcareful.merges m hreq hne
        rw [hmerged] at hnew
        cases hnew
      rw [hnil]
      exact s.queueReleases_nil
    · rw [hmerged] at herror
      cases herror
  rcases e with _ | _ | _ | _ | _ | _ | ⟨jobId, now⟩ | a | a | a | ⟨jobId,
    keys⟩ | jobId | _ | ⟨jobId, key⟩ | _ | _ |
    handle | _ | _ | _
  case timer => exact clearExpiredHeavyObjects_error herror
  case clearAll =>
    have hok : (perform cleaners .clearAll s).1 = .ok () := clearAll_ok (hreadable.clearsAll rfl)
    rw [hok] at herror
    cases herror
  case transitionTerminal | compareAndPublishCompletion | update =>
    rw [perform, Effect.void_apply_snd]
    exact hmerging _ rfl (Effect.void_eq_error_iff.mp herror)
  case clearResultData =>
    simp only [perform, clearResultData, Effect.bind_apply, Effect.get_apply] at herror ⊢
    rcases hjob : s.jobs.get? jobId with _ | job
    · rfl
    simp only [hjob, Effect.bind_apply, Effect.ofExcept_apply] at herror ⊢
    rcases hvalid : validateCommonRecord job with err | _
    · rfl
    simp only [hvalid, Effect.modify_apply] at herror ⊢
    rcases hcheck : validateCommonRecord (job.withoutResultData keys) with err | _
    · have hnil : job.detachHeavyValues (keys.filter (· ∈ heavyObjectKeys)) = [] := by
        by_contra hne
        rw [(hcareful.clears jobId keys job rfl hjob hne).1] at hcheck
        cases hcheck
      simp only [hnil, queueReleases_nil]
    · simp only [hcheck] at herror
      cases herror
  case deleteJob =>
    simp only [perform, deleteJob, removeJobLocked, Effect.bind_apply, Effect.get_apply] at herror ⊢
    rcases hjob : s.jobs.get? jobId with _ | job
    · rfl
    simp only [hjob, Effect.bind_apply, Effect.ofExcept_apply] at herror ⊢
    rcases hhandles : job.artifactHandles with err | handles
    · rfl
    · simp only [hhandles] at herror
      cases herror
  case detachArtifactHandle =>
    rw [perform, Effect.void_apply_snd]
    have herror := Effect.void_eq_error_iff.mp herror
    simp only [detachArtifactHandle, Effect.bind_apply, Effect.get_apply] at herror ⊢
    rcases hjob : s.jobs.get? jobId with _ | old
    · rfl
    simp only [hjob, Effect.bind_apply, Effect.ofExcept_apply] at herror ⊢
    rcases hhandles : old.artifactHandlesOrEmpty with err | handles
    · rfl
    simp only [hhandles] at herror ⊢
    rcases hhandle : handles.get? key with _ | handle
    · rfl
    · simp only [hhandle] at herror
      cases herror
  case endLease =>
    simp only [perform, endLease, Effect.bind_apply, Effect.get_apply, Effect.ofExcept_apply]
      at herror ⊢
    rcases hn : s.artifactLeases.get? (artifactLeaseKey handle) with _ | n
    · rfl
    · simp only [hn] at herror
      cases herror
  case releaseDetachedArtifactHandles | cleanup | clean | release => cases herror
  all_goals cases hnow

/-- Some job holds the resource under a heavy field. -/
def Stores (s : JobStore) (r : ℕ) : Prop :=
  ∃ jobId job, s.jobs.get? jobId = some job ∧ ∃ key ∈ heavyObjectKeys, job.get? key =
    some (.resource r)

theorem stored_pos_iff {r : ℕ} : 0 < s.stored r ↔ s.Stores r := by
  have hholding (job : JobRecord) : 0 < job.holding r ↔
      ∃ key ∈ heavyObjectKeys, job.get? key = some (.resource r) := by
    rw [JobRecord.holding, List.countP_pos_iff]
    simp [JobRecord.resourceAt_eq_some_iff]
  constructor
  · intro h
    by_contra hnone
    have hzero : s.stored r = 0 := by
      refine List.sum_eq_zero fun n hn => ?_
      obtain ⟨e, he, rfl⟩ := List.mem_map.mp hn
      by_contra hpos
      obtain ⟨key, hkey⟩ := (hholding e.2).mp (Nat.pos_of_ne_zero hpos)
      exact hnone ⟨e.1, e.2, OrdDict.mem_entries_iff.mp he, key, hkey⟩
    omega
  · rintro ⟨jobId, job, hjob, hkey⟩
    exact ((hholding job).mpr hkey).trans_le
      (List.single_le_sum (fun _ _ => Nat.zero_le _) _
        (List.mem_map.mpr ⟨(jobId, job), OrdDict.mem_entries_iff.mpr hjob, rfl⟩))

/-- What is queued stays so until it is released, and what is released stays so. -/
private theorem queued_of_perform (cleaners : List String) (e : JobEvent) (s : JobStore) (r : ℕ) :
    (r ∈ s.heavyReleases → r ∈ (perform cleaners e s).2.heavyReleases ∨
      r ∈ (perform cleaners e s).2.released) ∧
    (r ∈ s.released → r ∈ (perform cleaners e s).2.released) := by
  obtain ⟨mid, hsweeps, -, hown⟩ := perform_cases cleaners e s
  -- a sweep adds to what is to be released, and releases nothing
  have hmid : (r ∈ s.heavyReleases → r ∈ mid.heavyReleases) ∧ mid.released = s.released := by
    refine hsweeps.keeps (P := fun t => (r ∈ s.heavyReleases → r ∈ t.heavyReleases) ∧
      t.released = s.released) ⟨id, rfl⟩ fun t t' hstep ih => ?_
    rcases hstep with _ | _ | _
    · exact ih
    · exact ⟨fun h => List.mem_append_left _ (ih.1 h), ih.2⟩
    · exact ⟨fun h => List.mem_append_left _ (ih.1 h), ih.2⟩
  rw [← hmid.2]
  suffices hpart : (r ∈ mid.heavyReleases → r ∈ (perform cleaners e s).2.heavyReleases ∨
      r ∈ (perform cleaners e s).2.released) ∧
      (r ∈ mid.released → r ∈ (perform cleaners e s).2.released) from
    ⟨fun h => hpart.1 (hmid.1 h), hpart.2⟩
  generalize (perform cleaners e s).2 = t at hown
  have hframe {t : JobStore} (hqueue : t.heavyReleases = mid.heavyReleases)
      (hreleased : t.released = mid.released) :
      (r ∈ mid.heavyReleases → r ∈ t.heavyReleases ∨ r ∈ t.released) ∧
        (r ∈ mid.released → r ∈ t.released) := by
    rw [hqueue, hreleased]
    exact ⟨.inl, id⟩
  cases hown
  case merge m hreq =>
    rw [storeMergedJobLocked_apply]
    rcases m.old.merged m.fields mid.heavyObjectTtlSeconds m.now with _ | _ <;>
      exact ⟨fun h => .inl (List.mem_append_left _ h), id⟩
  case clearFails | clear => exact ⟨fun h => .inl (List.mem_append_left _ h), id⟩
  case releaseDetached jobId handles =>
    obtain ⟨-, h2, h3⟩ := cleanupArtifactHandles_frame jobId handles mid
    exact hframe h2 h3
  case endLease handle n hn =>
    obtain ⟨-, h2, h3⟩ := mid.releaseLeaseOf_frame (artifactLeaseKey handle) (n - 1)
    exact hframe h2 h3
  case cleanup jobId handles =>
    obtain ⟨-, h2, h3⟩ := cleanupArtifactHandles_frame jobId handles
      { mid with cleanups := mid.cleanups.erase (jobId, handles) }
    exact hframe h2 h3
  case release value =>
    refine ⟨fun h => ?_, fun h => List.mem_append_left _ h⟩
    by_cases hr : r = value
    · exact .inr (List.mem_append_right _ (by simp [hr]))
    · exact .inl ((List.mem_erase_of_ne hr).mpr h)
  all_goals exact hframe rfl rfl

/-- A job that is made with a session. -/
def createSession : JobEvent :=
  .createJob "j" ⟨[("status", .str "running"), ("solver_session", .resource 1)], by decide⟩
    (.finite 1) (.finite 1)

private theorem careful_createSession : (new 10 10).Careful createSession where
  brings r hr := by
    refine ⟨?_, rfl⟩
    by_cases h : r = 1
    · subst h
      decide
    · refine absurd (List.countP_eq_zero.mpr fun key hkey => ?_) hr
      have hread : ∀ key ∈ heavyObjectKeys, JobRecord.resourceAt
          ⟨[("status", .str "running"), ("solver_session", .resource 1)], by decide⟩ key ∈
            [none, some 1] := by decide
      rcases List.mem_pair.mp (hread key hkey) with hnone | hone
      · simp [hnone]
      · simp [hone, Ne.symm h]
  merges _ hm := by cases hm
  clears _ _ _ he := by cases he

/-- An update that takes the session away, with a message that is no string. -/
def badUpdate : JobEvent :=
  .update ⟨"j", ⟨[("solver_session", .plain .none), ("message", .plain (.int 5))], by decide⟩,
    none, [],
    .finite 2⟩

end JobStore

end Haute
