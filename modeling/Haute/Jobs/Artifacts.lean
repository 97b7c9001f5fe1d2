import Mathlib.Algebra.Order.Sub.Unbundled.Basic
import Mathlib.Data.Multiset.AddSub
import Haute.Jobs.Heavy
import Haute.Jobs.Lifecycle

/-!
# Artifacts are cleaned once, and not under a lease

A handle that has been given to the store is in some job's record, or an update has handed
it back to its caller, or it is on its way to its cleaner: detached, deferred behind a
lease, or about to be cleaned. `waiting` is the multiset of the handles in the first four
places. Every event keeps it together with the handles being cleaned and those that have
been.

Leases are counted by `_artifact_lease_key`, which is not the handle's identity: it leaves
the directory out, and a handle without a path has the path `None`. The counts are right
as long as no two handles share a key; two that do share one lease count, and one place to
be deferred in (`deferred_cleanup_lost`).
-/

namespace Haute

private theorem sum_map_singleton {α β : Type} (f : α → β) (xs : List α) :
    (xs.map fun a => ({f a} : Multiset β)).sum = (xs.map f : List β) := by
  induction xs with
  | nil => rfl
  | cons a xs ih =>
    rw [List.map_cons, List.sum_cons, ih]
    rfl

/-- The handles in a record. -/
def JobRecord.handleValues (job : JobRecord) : Multiset ArtifactHandle :=
  match job.get? "artifact_handles" with
  | some (.handles hs) => (hs.entries.map Prod.snd : List ArtifactHandle)
  | _ => 0

namespace JobRecord

variable {job other : JobRecord}

/-- The handles of a job depend on its entry of them alone. -/
theorem handleValues_congr (h : job.get? "artifact_handles" = other.get? "artifact_handles") :
    job.handleValues = other.handleValues := by
  unfold handleValues
  rw [h]

/-- The handles that are detached with a job are those in its record. -/
theorem handleValues_of_artifactHandles {handles : List ArtifactHandle}
    (h : job.artifactHandles = .ok handles) :
    job.handleValues = (handles : Multiset ArtifactHandle) := by
  unfold artifactHandles at h
  unfold handleValues
  split at h
  · rename_i hnone
    cases h
    rw [hnone]
    rfl
  · rename_i hs hsome
    cases h
    rw [hsome]
  · cases h

/-- Taking one handle from a record. -/
theorem handleValues_insert_erase {handles : OrdDict String ArtifactHandle} {key : String}
    {handle : ArtifactHandle} (h : job.artifactHandlesOrEmpty = .ok handles)
    (hhandle : handles.get? key = some handle) :
    handleValues (job.insert "artifact_handles" (.handles (handles.erase key))) + {handle} =
      job.handleValues := by
  have hold : job.handleValues = (handles.entries.map Prod.snd : List ArtifactHandle) := by
    unfold artifactHandlesOrEmpty at h
    unfold handleValues
    split at h
    · cases h
      cases hhandle
    · cases h
      cases hhandle
    · rename_i hs hsome
      cases h
      rw [hsome]
    · cases h
  have hnew : handleValues (job.insert "artifact_handles" (.handles (handles.erase key))) =
      ((handles.erase key).entries.map Prod.snd : List ArtifactHandle) := by
    unfold handleValues
    rw [OrdDict.insert, OrdDict.get?_upsert_self]
  have hsum := handles.sum_map_erase_add key fun h => ({h} : Multiset ArtifactHandle)
  rw [hhandle] at hsum
  rw [sum_map_singleton, sum_map_singleton] at hsum
  rw [hold, hnew]
  exact hsum

/-- Clearing result data leaves a record its handles, or takes them all. -/
theorem handleValues_withoutResultData (job : JobRecord) (keys : List String) :
    (job.withoutResultData keys).handleValues = 0 ∨
      (job.withoutResultData keys).handleValues = job.handleValues := by
  have hvalue : (job.withoutResultData keys).get? "artifact_handles" =
      if "artifact_handles" ∈ keys then none else job.get? "artifact_handles" := by
    unfold withoutResultData
    split_ifs
    · rw [get?_without, if_pos ‹_›]
    · rw [get?_without, if_neg ‹_›]
    · rw [get?_without, if_neg (by decide), get?_without, if_pos ‹_›]
    · rw [get?_without, if_neg (by decide), get?_without, if_neg ‹_›]
  by_cases hmem : "artifact_handles" ∈ keys
  · left
    rw [if_pos hmem] at hvalue
    unfold handleValues
    rw [hvalue]
  · rw [if_neg hmem] at hvalue
    exact .inr (handleValues_congr hvalue)

end JobRecord

namespace JobStore

variable {s t : JobStore}

/-- The handles in the jobs' records. -/
def storedHandles (s : JobStore) : Multiset ArtifactHandle :=
  (s.jobs.entries.map fun e => e.2.handleValues).sum

/-- The handles that are detached and to be cleaned. -/
def pendingHandles (s : JobStore) : Multiset ArtifactHandle :=
  (s.cleanups.map fun group => (group.2 : Multiset ArtifactHandle)).sum

/-- The handles that are deferred. -/
def deferredHandles (s : JobStore) : Multiset ArtifactHandle :=
  (s.deferredArtifactCleanups.entries.map fun e => ({e.2.2} : Multiset ArtifactHandle)).sum

/-- The handles in one job's record. -/
def handlesAt (s : JobStore) (jobId : String) : Multiset ArtifactHandle :=
  ((s.jobs.get? jobId).map JobRecord.handleValues).getD 0

/-- How many leases of a key are held. -/
def heldLeases (s : JobStore) (key : LeaseKey) : ℕ :=
  s.leases.countP fun handle => artifactLeaseKey handle = key

/-- Putting a job trades the handles it had for those it has now. -/
theorem storedHandles_putJob (s : JobStore) (jobId : String) (job : JobRecord) :
    (s.putJob jobId job).storedHandles + s.handlesAt jobId = s.storedHandles + job.handleValues :=
  s.jobs.sum_map_insert_add jobId job JobRecord.handleValues

/-- Dropping a job takes its handles off the stored ones. -/
theorem storedHandles_dropJob (s : JobStore) (jobId : String) :
    (s.dropJob jobId).storedHandles + s.handlesAt jobId = s.storedHandles :=
  s.jobs.sum_map_erase_add jobId JobRecord.handleValues

/-- The handles stored at an id are those of the job there. -/
theorem handlesAt_eq {jobId : String} {job : JobRecord} (h : s.jobs.get? jobId = some job) :
    s.handlesAt jobId = job.handleValues := by
  rw [handlesAt, h]
  rfl

/-- A record that keeps its handles. -/
theorem storedHandles_replace {jobId : String} {old new : JobRecord}
    (hold : s.jobs.get? jobId = some old) (h : new.handleValues = old.handleValues) :
    (s.putJob jobId new).storedHandles = s.storedHandles := by
  have hput := s.storedHandles_putJob jobId new
  rw [handlesAt_eq hold, h] at hput
  exact add_right_cancel hput

/-! ### Cleaning up -/

/-- A handle is deferred behind a lease of its key. -/
def defer (s : JobStore) (jobId : String) (handle : ArtifactHandle) : JobStore :=
  { s with deferredArtifactCleanups :=
      s.deferredArtifactCleanups.insert (artifactLeaseKey handle) (jobId, handle) }

/-- The handles of a list whose key is leased, or those whose key is not. -/
def leasedOf (s : JobStore) (leased : Bool) (handles : List ArtifactHandle) : List ArtifactHandle :=
  handles.filter fun handle =>
    decide (0 < (s.artifactLeases.get? (artifactLeaseKey handle)).getD 0) == leased

/-- Handles are leased or not. -/
theorem coe_leasedOf (s : JobStore) (handles : List ArtifactHandle) :
    (s.leasedOf true handles : Multiset ArtifactHandle) +
    (s.leasedOf false handles : List ArtifactHandle) =
      (handles : Multiset ArtifactHandle) := by
  have hnot : s.leasedOf false handles = handles.filter fun handle =>
      !(decide (0 < (s.artifactLeases.get? (artifactLeaseKey handle)).getD 0) == true) := by
    refine List.filter_congr fun handle _ => ?_
    simp
  rw [hnot]
  exact Multiset.coe_eq_coe.mpr (List.filter_append_perm _ handles)

/-- **Handles that share no key** are deferred, where they are leased, or go to their
cleaner. -/
theorem cleanupArtifactHandles_spec (jobId : String) (handles : List ArtifactHandle)
    (hn : (handles.map artifactLeaseKey).Nodup)
    (hdisjoint : ∀ handle ∈ handles, artifactLeaseKey handle ∉ s.deferredArtifactCleanups.keys) :
    (cleanupArtifactHandles jobId handles s).deferredHandles =
        s.deferredHandles + (s.leasedOf true handles : List ArtifactHandle) ∧
      (cleanupArtifactHandles jobId handles s).cleaning = s.cleaning ++ s.leasedOf false handles ∧
      ∀ key entry, (cleanupArtifactHandles jobId handles s).deferredArtifactCleanups.get? key =
        some entry →
        s.deferredArtifactCleanups.get? key = some entry ∨
          artifactLeaseKey entry.2 = key ∧ 0 < (s.artifactLeases.get? key).getD 0 := by
  unfold cleanupArtifactHandles
  induction handles generalizing s with
  | nil => exact ⟨(add_zero _).symm, (List.append_nil _).symm, fun _ _ h => .inl h⟩
  | cons handle handles ih =>
    rw [List.map_cons, List.nodup_cons] at hn
    have hfresh := hdisjoint handle List.mem_cons_self
    rw [List.foldl_cons]
    -- a leased handle waits for its last lease, any other goes to its cleaner
    by_cases hleased : 0 < (s.artifactLeases.get? (artifactLeaseKey handle)).getD 0
    · have hone : cleanupArtifactHandle jobId s handle = s.defer jobId handle := if_pos hleased
      have hdeferred : (cleanupArtifactHandle jobId s handle).deferredHandles =
          s.deferredHandles + {handle} := by
        have hinsert := s.deferredArtifactCleanups.sum_map_insert_add (artifactLeaseKey handle)
          (jobId, handle) fun entry => ({entry.2} : Multiset ArtifactHandle)
        rw [OrdDict.get?_eq_none_iff.mpr hfresh] at hinsert
        rw [hone]
        exact (add_zero _).symm.trans hinsert
      obtain ⟨h1, h2, h3⟩ :=
        @ih (cleanupArtifactHandle jobId s handle) hn.2 fun other hother hmem => by
        rw [hone] at hmem
        rcases OrdDict.mem_keys_upsert.mp hmem with heq | hmem
        · exact hn.1 (heq ▸ List.mem_map_of_mem hother)
        · exact hdisjoint other (List.mem_cons_of_mem _ hother) hmem
      have hsame : (cleanupArtifactHandle jobId s handle).leasedOf = s.leasedOf := by rw [hone]; rfl
      have htrue : s.leasedOf true (handle :: handles) = handle :: s.leasedOf true handles := by
        simp [leasedOf, hleased]
      have hfalse : s.leasedOf false (handle :: handles) = s.leasedOf false handles := by
        simp [leasedOf, hleased]
      refine ⟨?_, ?_, fun key entry hentry => ?_⟩
      · rw [h1, hdeferred, hsame, htrue, add_assoc]
        rfl
      · rw [h2, hsame, hfalse, hone]
        rfl
      · rcases h3 key entry hentry with hentry | hentry
        · rw [hone] at hentry
          change OrdDict.get? (OrdDict.upsert _ _ _) key = some entry at hentry
          rw [OrdDict.get?_upsert] at hentry
          split_ifs at hentry with heq
          · obtain rfl := Option.some.inj hentry
            exact .inr ⟨heq.symm, heq ▸ hleased⟩
          · exact .inl hentry
        · rw [hone] at hentry
          exact .inr hentry
    · have hone : cleanupArtifactHandle jobId s handle =
          { s with cleaning := s.cleaning ++ [handle] } :=
        if_neg hleased
      obtain ⟨h1, h2, h3⟩ := @ih (cleanupArtifactHandle jobId s handle) hn.2 fun other hother => by
        rw [hone]
        exact hdisjoint other (List.mem_cons_of_mem _ hother)
      have hsame : (cleanupArtifactHandle jobId s handle).leasedOf = s.leasedOf := by rw [hone]; rfl
      have hdeferred : (cleanupArtifactHandle jobId s handle).deferredHandles =
          s.deferredHandles := by
        rw [hone]; rfl
      have htrue : s.leasedOf true (handle :: handles) = s.leasedOf true handles := by
        simp [leasedOf, hleased]
      have hfalse : s.leasedOf false (handle :: handles) = handle :: s.leasedOf false handles := by
        simp [leasedOf, hleased]
      refine ⟨?_, ?_, fun key entry hentry => ?_⟩
      · rw [h1, hdeferred, hsame, htrue]
      · rw [h2, hsame, hfalse, hone]
        simp
      · have h := h3 key entry hentry
        rw [hone] at h
        exact h

/-- Cleaning up touches what is deferred and what is being cleaned. -/
theorem cleanupArtifactHandles_rest (jobId : String) (handles : List ArtifactHandle)
    (s : JobStore) :
    (cleanupArtifactHandles jobId handles s).artifactLeases = s.artifactLeases ∧
      (cleanupArtifactHandles jobId handles s).leases = s.leases ∧
      (cleanupArtifactHandles jobId handles s).cleanups = s.cleanups ∧
      (cleanupArtifactHandles jobId handles s).cleaned = s.cleaned := by
  unfold cleanupArtifactHandles
  induction handles generalizing s with
  | nil => exact ⟨rfl, rfl, rfl, rfl⟩
  | cons handle handles ih =>
    obtain ⟨h1, h2, h3, h4⟩ := ih (cleanupArtifactHandle jobId s handle)
    have hone : (cleanupArtifactHandle jobId s handle).artifactLeases = s.artifactLeases ∧
        (cleanupArtifactHandle jobId s handle).leases = s.leases ∧
        (cleanupArtifactHandle jobId s handle).cleanups = s.cleanups ∧
        (cleanupArtifactHandle jobId s handle).cleaned = s.cleaned := by
      unfold cleanupArtifactHandle
      split_ifs <;> exact ⟨rfl, rfl, rfl, rfl⟩
    exact ⟨h1.trans hone.1, h2.trans hone.2.1, h3.trans hone.2.2.1, h4.trans hone.2.2.2⟩

/-! ### Who has a handle -/

/-- The handles that are in a record, or on their way to their cleaner. -/
def onHand (s : JobStore) : Multiset ArtifactHandle :=
  s.storedHandles + s.pendingHandles + s.deferredHandles

/-- Nothing is leased, given back, deferred, taken up or cleaned. -/
structure SameLeases (s t : JobStore) : Prop where
  artifactLeases : t.artifactLeases = s.artifactLeases
  leases : t.leases = s.leases
  deferred : t.deferredArtifactCleanups = s.deferredArtifactCleanups
  cleaning : t.cleaning = s.cleaning
  cleaned : t.cleaned = s.cleaned

theorem SameLeases.refl (s : JobStore) : SameLeases s s := ⟨rfl, rfl, rfl, rfl, rfl⟩

theorem SameLeases.trans {u : JobStore} (h : SameLeases s t) (h' : SameLeases t u) :
    SameLeases s u where
  artifactLeases := h'.artifactLeases.trans h.artifactLeases
  leases := h'.leases.trans h.leases
  deferred := h'.deferred.trans h.deferred
  cleaning := h'.cleaning.trans h.cleaning
  cleaned := h'.cleaned.trans h.cleaned

/-- Queueing a cleanup makes its handles pending. -/
theorem pendingHandles_queueCleanup (s : JobStore) (jobId : String)
    (handles : List ArtifactHandle) :
    (s.queueCleanup jobId handles).pendingHandles =
      s.pendingHandles + (handles : Multiset ArtifactHandle) := by
  simp [pendingHandles, queueCleanup]

/-- A sweep moves the handles of the jobs that go. -/
theorem onHand_of_sweep (h : Sweep s t) : t.onHand = s.onHand ∧ SameLeases s t := by
  cases h
  case activity => exact ⟨rfl, rfl, rfl, rfl, rfl, rfl⟩
  case clear jobId job now hjob hvalid =>
    have hvalues : (job.cleared s.heavyObjectTtlSeconds now).handleValues = job.handleValues := by
      refine JobRecord.handleValues_congr ?_
      rw [JobRecord.get?_cleared (by decide) (by decide), if_neg (by decide)]
    refine ⟨?_, rfl, rfl, rfl, rfl, rfl⟩
    have hstored :=
      @storedHandles_replace (s.queueReleases (job.detachHeavyValues heavyObjectKeys)) jobId
      job _ hjob hvalues
    exact congrArg (· + s.pendingHandles + s.deferredHandles) hstored
  case remove jobId job handles hjob hhandles =>
    refine ⟨?_, rfl, rfl, rfl, rfl, rfl⟩
    have hstored := s.storedHandles_dropJob jobId
    rw [handlesAt_eq hjob, JobRecord.handleValues_of_artifactHandles hhandles] at hstored
    have hpending := s.pendingHandles_queueCleanup jobId handles
    change (s.dropJob jobId).storedHandles + (s.queueCleanup jobId handles).pendingHandles +
      s.deferredHandles = _
    rw [hpending, onHand, ← hstored]
    abel

/-- A sweep keeps the handles on hand and the leases. -/
theorem onHand_of_sweeps (h : Sweeps s t) : t.onHand = s.onHand ∧ SameLeases s t :=
  h.keeps (P := fun t => t.onHand = s.onHand ∧ SameLeases s t) ⟨rfl, .refl s⟩ fun _ _ hstep ih =>
    ⟨(onHand_of_sweep hstep).1.trans ih.1, ih.2.trans (onHand_of_sweep hstep).2⟩

/-- Storing a record. -/
theorem onHand_putJob (s : JobStore) (jobId : String) (job : JobRecord) :
    (s.putJob jobId job).onHand + s.handlesAt jobId = s.onHand + job.handleValues := by
  have hput := s.storedHandles_putJob jobId job
  change (s.putJob jobId job).storedHandles + s.pendingHandles + s.deferredHandles + _ = _
  rw [onHand, add_right_comm, add_right_comm _ s.pendingHandles, hput]
  abel

/-- A job that was put has its handles at its id. -/
theorem handlesAt_putJob (s : JobStore) (jobId : String) (job : JobRecord) :
    (s.putJob jobId job).handlesAt jobId = job.handleValues :=
  handlesAt_eq (OrdDict.get?_upsert_self _ _ _)

/-- A merge stores the handles of the payload, if it has any, and else keeps the old ones. -/
theorem onHand_storeMergedJobLocked {m : Merge} (hold : s.jobs.get? m.jobId = some m.old) :
    (storeMergedJobLocked m s).2.onHand + s.handlesAt m.jobId =
        s.onHand + (storeMergedJobLocked m s).2.handlesAt m.jobId ∧
      ((storeMergedJobLocked m s).2.handlesAt m.jobId = m.fields.handleValues ∨
        (storeMergedJobLocked m s).2.handlesAt m.jobId = s.handlesAt m.jobId) ∧
      SameLeases s (storeMergedJobLocked m s).2 := by
  rw [storeMergedJobLocked_apply]
  rcases hmerged : m.old.merged m.fields s.heavyObjectTtlSeconds m.now with e | job
  · exact ⟨rfl, .inr rfl, rfl, rfl, rfl, rfl, rfl⟩
  · have hat : (((s.queueReleases (m.old.mergeDetaches m.fields)).putJob m.jobId
        job).recordRunningActivity m.jobId job m.now).handlesAt m.jobId = job.handleValues :=
      handlesAt_putJob _ m.jobId job
    have hvalue : job.get? "artifact_handles" = (m.old.update m.fields).get? "artifact_handles" :=
      JobRecord.get?_of_merged_of_notMem hmerged (by decide) (by decide) (by decide)
    refine ⟨?_, ?_, rfl, rfl, rfl, rfl, rfl⟩
    · rw [hat]
      exact s.onHand_putJob m.jobId job
    · rw [hat, handlesAt_eq hold]
      rcases hfields : m.fields.get? "artifact_handles" with _ | v
      · refine .inr (JobRecord.handleValues_congr ?_)
        rw [hvalue, JobRecord.get?_update, hfields]
        rfl
      · refine .inl (JobRecord.handleValues_congr ?_)
        rw [hvalue, JobRecord.get?_update, hfields]
        rfl

/-! ### The store and its callers -/

/-- A store, and the handles that its updates have taken from the records: they are their
caller's, until it gives them back. `arrived` is what payloads have brought so far. -/
structure Custody where
  store : JobStore
  handed : Multiset ArtifactHandle
  arrived : Multiset ArtifactHandle

/-- The handles no cleaner is being called for. -/
def Custody.waiting (x : Custody) : Multiset ArtifactHandle := x.store.onHand + x.handed

/-- The handles that have not been cleaned. -/
def Custody.live (x : Custody) : Multiset ArtifactHandle :=
  x.waiting + (x.store.cleaning : Multiset ArtifactHandle)

/-- The job whose payload an event writes. -/
def JobEvent.target (s : JobStore) : JobEvent → Option String
  | .createJob jobId .. => some jobId
  | .clearResultData jobId _ => some jobId
  | e => (s.requested e).map Merge.jobId

/-- The handles of the payload an event writes. -/
def offered (s : JobStore) : JobEvent → Multiset ArtifactHandle
  | .createJob _ initialStatus _ _ => initialStatus.handleValues
  | e => ((s.requested e).map fun m => m.fields.handleValues).getD 0

/-- The handles an event has for the store: those of its payload that are neither in the
record it is for, nor with its caller. -/
def Custody.brings (x : Custody) (e : JobEvent) : Multiset ArtifactHandle :=
  x.store.offered e - (x.handed + ((e.target x.store).map x.store.handlesAt).getD 0)

/-- The handles that are new in the store after an event. -/
def Custody.arrivals (x : Custody) (e : JobEvent) (t : JobStore) : Multiset ArtifactHandle :=
  match e.target x.store with
  | none => 0
  | some jobId => t.handlesAt jobId - (x.handed + x.store.handlesAt jobId)

/-- The handles that are their caller's after an event: what a payload replaces goes to the
caller, and what it stores, or gives back, comes from there. -/
def Custody.handedAfter (x : Custody) (e : JobEvent) (t : JobStore) : Multiset ArtifactHandle :=
  match e, e.target x.store with
  | .releaseDetachedArtifactHandles _ handles, _ => x.handed - (handles : Multiset ArtifactHandle)
  | _, none => x.handed
  | _, some jobId => x.handed + x.store.handlesAt jobId - t.handlesAt jobId

/-- The store and its callers after an event. -/
def Custody.after (x : Custody) (e : JobEvent) (t : JobStore) : Custody :=
  ⟨t, x.handedAfter e t, x.arrived + x.arrivals e t⟩

/-- The runs of a store and its callers. -/
def custodyMachine (cleaners : List String) (ttlSeconds heavyObjectTtlSeconds : ℕ) :
    Machine Custody JobEvent where
  init x := x = ⟨new ttlSeconds heavyObjectTtlSeconds, 0, 0⟩
  step x e y := x.store.enabled e ∧ y = x.after e (perform cleaners e x.store).2

/-- An event's handles: what it brings has a cleaner, and a key of its own, and what it gives
back is its caller's. -/
structure Custody.Distinct (cleaners : List String) (x : Custody) (e : JobEvent) : Prop where
  keys : ((x.live + x.brings e).map artifactLeaseKey).Nodup
  kinds : ∀ handle ∈ x.brings e, handle.kind ∈ cleaners
  returned : ∀ jobId handles, e = .releaseDetachedArtifactHandles jobId handles →
    (handles : Multiset ArtifactHandle) ≤ x.handed

/-- **What an event does** with the handles and the leases. -/
inductive Custody.Moves (cleaners : List String) (x : Custody) : JobEvent → Custody → Prop where
  /-- Handles move between their places, and some are new. -/
  | rests {e : JobEvent} {y : Custody} (new : Multiset ArtifactHandle) (hnew : new ≤ x.brings e)
      (hwaiting : y.waiting = x.waiting + new) (harrived : y.arrived = x.arrived + new)
      (hsame : SameLeases x.store y.store) : Moves cleaners x e y
  /-- Handles are cleaned up: the leased ones are deferred, the others go to their cleaner. -/
  | cleansUp {e : JobEvent} {y : Custody} (handles : List ArtifactHandle)
      (hwaiting : y.waiting + (x.store.leasedOf false handles : List ArtifactHandle) = x.waiting)
      (harrived : y.arrived = x.arrived)
      (hcleaning : y.store.cleaning = x.store.cleaning ++ x.store.leasedOf false handles)
      (hdeferred : ∀ key entry, y.store.deferredArtifactCleanups.get? key = some entry →
        x.store.deferredArtifactCleanups.get? key = some entry ∨
          artifactLeaseKey entry.2 = key ∧ 0 < (x.store.artifactLeases.get? key).getD 0)
      (hleases : y.store.artifactLeases = x.store.artifactLeases ∧ y.store.leases = x.store.leases ∧
        y.store.cleaned = x.store.cleaned) : Moves cleaners x e y
  /-- A handle is leased. -/
  | leases {e : JobEvent} {y : Custody} (handle : ArtifactHandle) (hhandle : handle ∈ y.waiting)
      (hwaiting : y.waiting = x.waiting) (harrived : y.arrived = x.arrived)
      (hcount : y.store.artifactLeases =
        x.store.artifactLeases.upsert (artifactLeaseKey handle) fun n => n.getD 0 + 1)
      (hheld : y.store.leases = handle :: x.store.leases)
      (hsame : y.store.deferredArtifactCleanups = x.store.deferredArtifactCleanups ∧
        y.store.cleaning = x.store.cleaning ∧ y.store.cleaned =
          x.store.cleaned) : Moves cleaners x e y
  /-- A lease is given back. -/
  | endsLease {handle : ArtifactHandle} {y : Custody} (n : ℕ) (hheld : handle ∈ x.store.leases)
      (hn : x.store.artifactLeases.get? (artifactLeaseKey handle) = some n)
      (hy : y = ⟨{ x.store.releaseLeaseOf (artifactLeaseKey handle) (n - 1) with
        leases := x.store.leases.erase handle }, x.handed, x.arrived⟩) :
      Moves cleaners x (.endLease handle) y
  /-- A cleaner is called. -/
  | cleans {handle : ArtifactHandle} {y : Custody} (hhandle : handle ∈ x.store.cleaning)
      (hy : y = ⟨runCleaner cleaners handle x.store, x.handed, x.arrived⟩) :
      Moves cleaners x (.clean handle) y

variable {x y : Custody} {cleaners : List String}

/-- What an event writes that is for a job. -/
theorem moves_of_target {e : JobEvent} {jobId : String} (htarget : e.target x.store = some jobId)
    (hput : t.onHand + x.store.handlesAt jobId = x.store.onHand + t.handlesAt jobId)
    (hvalue : t.handlesAt jobId = x.store.offered e ∨ t.handlesAt jobId = x.store.handlesAt jobId)
    (hsame : SameLeases x.store t) : Custody.Moves cleaners x e (x.after e t) := by
  have harrivals : x.arrivals e t = t.handlesAt jobId - (x.handed + x.store.handlesAt jobId) := by
    unfold Custody.arrivals
    rw [htarget]
  have hhanded : x.handedAfter e t = x.handed + x.store.handlesAt jobId - t.handlesAt jobId := by
    unfold Custody.handedAfter
    rw [htarget]
    cases e <;> first | rfl | cases htarget
  refine .rests (x.arrivals e t) ?_ ?_ rfl hsame
  · rw [harrivals, Custody.brings, htarget, Option.map_some, Option.getD_some]
    rcases hvalue with hvalue | hvalue
    · rw [hvalue]
    · rw [hvalue, tsub_eq_zero_of_le (le_add_self)]
      exact zero_le
  · -- what the record has and what the caller has are exchanged
    have hexchange (a b : Multiset ArtifactHandle) : a + (b - a) = b + (a - b) := by
      rw [add_comm a, add_comm b, ← Multiset.union_def, ← Multiset.union_def, Multiset.union_comm]
    change t.onHand + x.handedAfter e t = x.store.onHand + x.handed + x.arrivals e t
    rw [harrivals, hhanded]
    refine add_right_cancel (b := x.store.handlesAt jobId) ?_
    have h := hexchange (t.handlesAt jobId) (x.handed + x.store.handlesAt jobId)
    calc t.onHand + (x.handed + x.store.handlesAt jobId - t.handlesAt jobId) +
      x.store.handlesAt jobId
        = t.onHand + x.store.handlesAt jobId +
          (x.handed + x.store.handlesAt jobId - t.handlesAt jobId) :=
          add_right_comm _ _ _
      _ = x.store.onHand + (t.handlesAt jobId +
            (x.handed + x.store.handlesAt jobId - t.handlesAt jobId)) := by rw [hput, add_assoc]
      _ = x.store.onHand + (x.handed + x.store.handlesAt jobId +
            (t.handlesAt jobId - (x.handed + x.store.handlesAt jobId))) := by rw [h]
      _ = _ := by rw [← add_assoc, ← add_assoc, add_right_comm]

/-- An event that writes no payload and gives nothing back leaves the callers' handles alone. -/
theorem after_eq {e : JobEvent} (htarget : e.target x.store = none)
    (he : ∀ jobId handles, e ≠ .releaseDetachedArtifactHandles jobId handles) :
    x.after e t = ⟨t, x.handed, x.arrived⟩ := by
  have hhanded : x.handedAfter e t = x.handed := by
    unfold Custody.handedAfter
    rw [htarget]
    cases e
    case releaseDetachedArtifactHandles jobId handles => exact absurd rfl (he jobId handles)
    all_goals rfl
  have harrivals : x.arrivals e t = 0 := by
    unfold Custody.arrivals
    rw [htarget]
  rw [Custody.after, hhanded, harrivals, add_zero]

/-- An event that only moves handles. -/
theorem moves_of_onHand {e : JobEvent} (h : t.onHand = x.store.onHand)
    (hsame : SameLeases x.store t) :
    Custody.Moves cleaners x e ⟨t, x.handed, x.arrived⟩ :=
  .rests 0 zero_le (by rw [add_zero, Custody.waiting, h]; rfl) (add_zero _).symm hsame

/-- The handles deferred behind other keys. -/
def deferredElsewhere (s : JobStore) (key : LeaseKey) : Multiset ArtifactHandle :=
  ((s.deferredArtifactCleanups.erase key).entries.map fun e =>
    ({e.2.2} : Multiset ArtifactHandle)).sum

/-- The handle deferred behind a key, if there is one. -/
def deferredAt (s : JobStore) (key : LeaseKey) : List ArtifactHandle :=
  ((s.deferredArtifactCleanups.get? key).map Prod.snd).toList

/-- The deferred handles are the one at a key and those elsewhere. -/
theorem deferredElsewhere_add (s : JobStore) (key : LeaseKey) :
    s.deferredElsewhere key + (s.deferredAt key : Multiset ArtifactHandle) = s.deferredHandles := by
  have h := s.deferredArtifactCleanups.sum_map_erase_add key
    fun entry => ({entry.2} : Multiset ArtifactHandle)
  unfold deferredHandles
  rw [← h, deferredElsewhere, deferredAt]
  rcases s.deferredArtifactCleanups.get? key with _ | entry <;> rfl

/-- A handle is deferred exactly when some key holds it back. -/
theorem mem_deferredHandles_iff {handle : ArtifactHandle} : handle ∈ s.deferredHandles ↔
    ∃ key entry, s.deferredArtifactCleanups.get? key = some entry ∧ entry.2 = handle := by
  rw [deferredHandles, sum_map_singleton, Multiset.mem_coe, List.mem_map]
  constructor
  · rintro ⟨e, he, rfl⟩
    exact ⟨e.1, e.2, OrdDict.mem_entries_iff.mp he, rfl⟩
  · rintro ⟨key, entry, hentry, rfl⟩
    exact ⟨(key, entry), OrdDict.mem_entries_iff.mpr hentry, rfl⟩

/-- Cleaning handles up leaves the stored ones. -/
theorem cleanupArtifactHandles_jobs (jobId : String) (handles : List ArtifactHandle)
    (s : JobStore) :
    (cleanupArtifactHandles jobId handles s).storedHandles = s.storedHandles := by
  unfold storedHandles
  rw [(cleanupArtifactHandles_frame jobId handles s).1]

/-- **Cleaning up handles of the custody** that share no key. -/
theorem moves_of_cleanup {e : JobEvent} {jobId : String} {handles : List ArtifactHandle}
    {mid : JobStore}
    {handed : Multiset ArtifactHandle}
    (hwaiting : x.waiting = mid.onHand + handed + (handles : Multiset ArtifactHandle))
    (hsame : SameLeases x.store mid) (hkeys : (x.waiting.map artifactLeaseKey).Nodup)
    (hdeferred : ∀ key entry, x.store.deferredArtifactCleanups.get? key = some entry →
      artifactLeaseKey entry.2 = key) :
    Custody.Moves cleaners x e ⟨cleanupArtifactHandles jobId handles mid, handed, x.arrived⟩ := by
  have hleased : mid.leasedOf = x.store.leasedOf := by
    unfold leasedOf
    rw [hsame.artifactLeases]
  have hmid : x.waiting = mid.storedHandles + mid.pendingHandles + handed +
      (mid.deferredHandles + (handles : Multiset ArtifactHandle)) := by
    rw [hwaiting, onHand]
    abel
  -- the handles, and those that are deferred, are among those that share no key
  have hsub :
      ((mid.deferredHandles + (handles : Multiset ArtifactHandle)).map artifactLeaseKey).Nodup := by
    refine Multiset.nodup_of_le (Multiset.map_le_map ?_) hkeys
    rw [hmid]
    exact le_add_self
  rw [Multiset.map_add, Multiset.nodup_add] at hsub
  obtain ⟨-, hn, hdisjoint⟩ := hsub
  have hmem : ∀ key ∈ mid.deferredArtifactCleanups.keys,
      key ∈ mid.deferredHandles.map artifactLeaseKey := by
    intro key hkey
    obtain ⟨entry, hentry⟩ := OrdDict.mem_keys_iff.mp hkey
    exact Multiset.mem_map.mpr ⟨entry.2, mem_deferredHandles_iff.mpr ⟨key, entry, hentry, rfl⟩,
      hdeferred key entry (hsame.deferred ▸ hentry)⟩
  obtain ⟨h1, h2, h3⟩ := @cleanupArtifactHandles_spec mid jobId handles (by simpa using hn)
    fun handle hhandle hkey => Multiset.disjoint_left.mp hdisjoint (hmem _ hkey)
      (Multiset.mem_map_of_mem _ (Multiset.mem_coe.mpr hhandle))
  obtain ⟨h4, h5, h6, h7⟩ := cleanupArtifactHandles_rest jobId handles mid
  refine .cleansUp handles ?_ rfl ?_ ?_ ⟨h4.trans hsame.artifactLeases, h5.trans hsame.leases,
    h7.trans hsame.cleaned⟩
  · have hsplit := mid.coe_leasedOf handles
    have hpending : (cleanupArtifactHandles jobId handles mid).pendingHandles =
        mid.pendingHandles := by
      unfold pendingHandles
      rw [h6]
    rw [Custody.waiting, onHand, cleanupArtifactHandles_jobs, hpending, h1, hmid,
      ← hsplit, ← hleased]
    abel
  · rw [h2, hsame.cleaning, hleased]
  · intro key entry hentry
    rw [← hsame.deferred, ← hsame.artifactLeases]
    exact h3 key entry hentry

/-- Taking a job's detached handles up. -/
theorem pendingHandles_erase {group : String × List ArtifactHandle} (h : group ∈ s.cleanups) :
    s.pendingHandles =
      ((s.cleanups.erase group).map fun g => (g.2 : Multiset ArtifactHandle)).sum +
        (group.2 : Multiset ArtifactHandle) := by
  have hperm := ((List.perm_cons_erase h).map fun g => (g.2 : Multiset ArtifactHandle)).sum_eq
  exact hperm.trans (add_comm _ _)

/-- An operation that merges does not sweep. -/
theorem sweeps_of_requested {e : JobEvent} {m : Merge} (h : s.requested e = some m) :
    e.sweeps = false := by
  cases e
  case transitionTerminal | compareAndPublishCompletion | update => rfl
  all_goals cases h

/-- An event that merges writes a payload for the job. -/
theorem target_of_requested {e : JobEvent} {m : Merge} (h : s.requested e = some m) :
    e.target s = some m.jobId ∧ s.offered e = m.fields.handleValues := by
  have hmap := congrArg (Option.map Merge.jobId) h
  have hvalues :=
    congrArg (fun o => (Option.map (fun m : Merge => m.fields.handleValues) o).getD 0) h
  cases e
  case transitionTerminal | compareAndPublishCompletion | update => exact ⟨hmap, hvalues⟩
  all_goals cases h

/-- A handle that can be leased is in a record. -/
theorem mem_onHand {jobId key : String} {job : JobRecord} {handles : OrdDict String ArtifactHandle}
    {handle : ArtifactHandle} (hjob : s.jobs.get? jobId = some job)
    (hhandles : job.artifactHandlesOrEmpty = .ok handles)
    (hhandle : handles.get? key = some handle) :
    handle ∈ s.onHand := by
  have hvalues : handle ∈ job.handleValues := by
    rw [← JobRecord.handleValues_insert_erase hhandles hhandle]
    exact Multiset.mem_add.mpr (.inr (Multiset.mem_singleton_self handle))
  have hstored : handle ∈ s.storedHandles := by
    rw [← s.storedHandles_dropJob jobId, handlesAt_eq hjob]
    exact Multiset.mem_add.mpr (.inr hvalues)
  exact Multiset.mem_add.mpr (.inl (Multiset.mem_add.mpr (.inl hstored)))

/-- **Every event** moves handles and leases in one of five ways. -/
theorem moves_of_perform {e : JobEvent} (henabled : x.store.enabled e)
    (hdistinct : Custody.Distinct cleaners x e) (hkeys : (x.waiting.map artifactLeaseKey).Nodup)
    (hdeferred : ∀ key entry, x.store.deferredArtifactCleanups.get? key = some entry →
      artifactLeaseKey entry.2 = key) :
    Custody.Moves cleaners x e (x.after e (perform cleaners e x.store).2) := by
  -- handles given back: the one event that takes from what was handed out
  by_cases hreleased : ∃ jobId handles, e = .releaseDetachedArtifactHandles jobId handles
  · obtain ⟨jobId, handles, rfl⟩ := hreleased
    have hle := hdistinct.returned jobId handles rfl
    change Custody.Moves cleaners x _ ⟨cleanupArtifactHandles jobId handles x.store,
      x.handed - (handles : Multiset ArtifactHandle), x.arrived + 0⟩
    rw [add_zero]
    refine moves_of_cleanup ?_ (.refl _) hkeys hdeferred
    rw [add_assoc, tsub_add_cancel_of_le hle]
    rfl
  have hnot : ∀ jobId handles, e ≠ .releaseDetachedArtifactHandles jobId handles :=
    fun jobId handles h => hreleased ⟨jobId, handles, h⟩
  obtain ⟨mid, hsweeps, hsame, hown⟩ := perform_cases cleaners e x.store
  obtain ⟨honHand, hleases⟩ := onHand_of_sweeps hsweeps
  -- an event with no record to write moves handles between the lists at most
  rcases htarget : e.target x.store with _ | jobId
  · rw [after_eq htarget hnot]
    generalize (perform cleaners e x.store).2 = t at hown
    cases hown
    case nothing => exact moves_of_onHand honHand hleases
    case create => cases htarget
    case touch jobId _ _ _ job expiresAt hcheck hjob =>
      refine moves_of_onHand ?_ (hleases.trans ⟨rfl, rfl, rfl, rfl, rfl⟩)
      rw [← honHand]
      refine congrArg (· + mid.pendingHandles + mid.deferredHandles)
        (storedHandles_replace hjob (JobRecord.handleValues_congr ?_))
      exact OrdDict.get?_upsert_ne (by decide) _ _
    case merge m hm =>
      have hmid : mid = x.store := hsame (sweeps_of_requested hm)
      rw [hmid] at hm
      cases (target_of_requested hm).1.symm.trans htarget
    case clearFails => cases htarget
    case clear => cases htarget
    case detach jobId key old handles handle hhandles hhandle hjob =>
      refine moves_of_onHand ?_ (hleases.trans ⟨rfl, rfl, rfl, rfl, rfl⟩)
      have hput := mid.storedHandles_putJob jobId
        (old.insert "artifact_handles" (.handles (handles.erase key)))
      have hpending := mid.pendingHandles_queueCleanup jobId [handle]
      rw [handlesAt_eq hjob, ← JobRecord.handleValues_insert_erase hhandles hhandle,
        ← add_assoc, add_right_comm] at hput
      have hput := add_right_cancel hput
      rw [← honHand]
      change (mid.putJob jobId _).storedHandles + (mid.queueCleanup jobId [handle]).pendingHandles +
        mid.deferredHandles = mid.storedHandles + mid.pendingHandles + mid.deferredHandles
      rw [hpending, ← hput, Multiset.coe_singleton]
      abel
    case releaseDetached jobId handles => exact absurd rfl (hnot jobId handles)
    case lease jobId key now job handles handle hhandles hhandle hjob =>
      have hwaiting : mid.onHand + x.handed = x.waiting := by rw [Custody.waiting, honHand]
      refine .leases handle (Multiset.mem_add.mpr (.inl (mem_onHand hjob hhandles hhandle)))
        hwaiting rfl
        ?_ ?_ ⟨hleases.deferred, hleases.cleaning, hleases.cleaned⟩
      · rw [← hleases.artifactLeases]
      · rw [← hleases.leases]
    case endLease handle n hn =>
      obtain rfl := hsame rfl
      exact .endsLease n henabled hn rfl
    case cleanup jobId handles =>
      obtain rfl := hsame rfl
      have hpending := pendingHandles_erase (s := x.store) henabled
      have hwaiting : x.waiting = x.store.storedHandles +
          ((x.store.cleanups.erase (jobId, handles)).map fun g =>
            (g.2 : Multiset ArtifactHandle)).sum +
          x.store.deferredHandles + x.handed + (handles : Multiset ArtifactHandle) := by
        rw [Custody.waiting, onHand, hpending]
        abel
      exact moves_of_cleanup hwaiting ⟨rfl, rfl, rfl, rfl, rfl⟩ hkeys hdeferred
    case clean handle =>
      obtain rfl := hsame rfl
      exact .cleans henabled rfl
    case release value =>
      exact moves_of_onHand honHand (hleases.trans ⟨rfl, rfl, rfl, rfl, rfl⟩)
  · -- the record the payload is for is as it was before the sweep
    have hat : mid.handlesAt jobId = x.store.handlesAt jobId := by
      rcases hs : e.sweeps with _ | _
      · rw [hsame hs]
      · cases e
        case createJob =>
          obtain rfl := Option.some.inj htarget
          rw [handlesAt, handlesAt, OrdDict.get?_eq_none_iff.mpr henabled,
            OrdDict.get?_eq_none_iff.mpr (notMem_keys_of_sweeps hsweeps henabled)]
        all_goals first | (cases htarget; done) | cases hs
    generalize (perform cleaners e x.store).2 = t at hown
    cases hown
    case nothing => exact moves_of_target htarget (by rw [honHand, hat]) (.inr hat) hleases
    case create initialStatus now now' hstatus hcheck =>
      have hvalues : JobRecord.handleValues
          (initialStatus.setdefault "created_at" (.plain (.float now'))) =
          initialStatus.handleValues :=
        JobRecord.handleValues_congr (OrdDict.get?_upsert_ne (by decide) _ _)
      obtain rfl := Option.some.inj htarget
      refine moves_of_target rfl ?_ (.inl ?_) (hleases.trans ⟨rfl, rfl, rfl, rfl, rfl⟩)
      · rw [← honHand, ← hat]
        exact (mid.onHand_putJob _ _).trans (congrArg _ (handlesAt_putJob mid _ _).symm)
      · exact (handlesAt_putJob mid _ _).trans hvalues
    case merge m hm =>
      obtain rfl := hsame (sweeps_of_requested hm)
      obtain ⟨hjobId, hoffered⟩ := target_of_requested hm
      obtain rfl := Option.some.inj (htarget.symm.trans hjobId)
      obtain ⟨hput, hvalue, hsame⟩ := onHand_storeMergedJobLocked (get?_of_requested hm).1
      rw [← hoffered] at hvalue
      exact moves_of_target htarget hput hvalue hsame
    case clearFails jobId' keys job error hvalid herror hjob =>
      obtain rfl := hsame rfl
      exact moves_of_target htarget rfl (.inr rfl) ⟨rfl, rfl, rfl, rfl, rfl⟩
    case clear jobId' keys job hvalid hcheck hjob =>
      obtain rfl := hsame rfl
      obtain rfl := Option.some.inj htarget
      refine moves_of_target rfl ?_ ?_ ⟨rfl, rfl, rfl, rfl, rfl⟩
      · exact (onHand_putJob _ _ _).trans (congrArg _ (handlesAt_putJob _ _ _).symm)
      · rw [handlesAt_putJob, handlesAt_eq hjob]
        exact JobRecord.handleValues_withoutResultData job keys
    all_goals cases htarget

/-! ### The invariant -/

/-- Where the handles are, what the leases hold, and what is deferred behind them. -/
structure Custody.Invariant (cleaners : List String) (x : Custody) : Prop where
  keys : (x.live.map artifactLeaseKey).Nodup
  kinds : ∀ handle ∈ x.live, handle.kind ∈ cleaners
  accounted : x.live + (x.store.cleaned : Multiset ArtifactHandle) = x.arrived
  /-- The counts are those of the leases held. -/
  counts : ∀ key, (x.store.artifactLeases.get? key).getD 0 = x.store.heldLeases key
  positive : ∀ key, x.store.artifactLeases.get? key ≠ some 0
  /-- A leased handle is not being cleaned. -/
  held : ∀ handle ∈ x.store.leases, handle ∈ x.waiting
  /-- What is deferred is deferred behind a lease of its key. -/
  deferred : ∀ key entry, x.store.deferredArtifactCleanups.get? key = some entry →
    artifactLeaseKey entry.2 = key ∧ 0 < x.store.heldLeases key

/-- A leased handle's key counts a lease. -/
theorem heldLeases_pos {handle : ArtifactHandle} (h : handle ∈ s.leases) :
    0 < s.heldLeases (artifactLeaseKey handle) :=
  List.countP_pos_iff.mpr ⟨handle, h, decide_eq_true rfl⟩

/-- A new store meets the invariant. -/
theorem invariant_new (cleaners : List String) (ttlSeconds heavyObjectTtlSeconds : ℕ) :
    Custody.Invariant cleaners ⟨new ttlSeconds heavyObjectTtlSeconds, 0, 0⟩ where
  keys := Multiset.nodup_zero
  kinds _ h := absurd h (Multiset.notMem_zero _)
  accounted := rfl
  counts _ := rfl
  positive _ h := by cases h
  held _ h := by cases h
  deferred _ _ h := by cases h

namespace Custody.Invariant

/-- No two live handles share a key. -/
theorem eq_of_key (h : x.Invariant cleaners) {handle other : ArtifactHandle}
    (hhandle : handle ∈ x.live)
    (hother : other ∈ x.live) (hkey : artifactLeaseKey handle = artifactLeaseKey other) :
    handle = other :=
  Multiset.inj_on_of_nodup_map h.keys handle hhandle other hother hkey

/-- A handle that waits for its cleanup is live. -/
theorem mem_live {handle : ArtifactHandle} (h : handle ∈ x.waiting) : handle ∈ x.live :=
  Multiset.mem_add.mpr (.inl h)

/-- The invariant holds on where the handles brought wait and the leases stay. -/
theorem rests (h : x.Invariant cleaners) {e : JobEvent} (hdistinct : x.Distinct cleaners e)
    {new : Multiset ArtifactHandle} (hnew : new ≤ x.brings e)
    (hwaiting : y.waiting = x.waiting + new)
    (harrived : y.arrived = x.arrived + new) (hsame : SameLeases x.store y.store) :
    y.Invariant cleaners := by
  have hlive : y.live = x.live + new := by
    rw [Custody.live, Custody.live, hwaiting, hsame.cleaning, add_right_comm]
  have hheld (key : LeaseKey) : y.store.heldLeases key = x.store.heldLeases key := by
    unfold heldLeases
    rw [hsame.leases]
  refine ⟨?_, ?_, ?_, ?_, ?_, ?_, ?_⟩
  · rw [hlive]
    exact Multiset.nodup_of_le (Multiset.map_le_map (add_le_add_right hnew _)) hdistinct.keys
  · intro handle hmem
    rw [hlive] at hmem
    rcases Multiset.mem_add.mp hmem with hmem | hmem
    · exact h.kinds handle hmem
    · exact hdistinct.kinds handle (Multiset.mem_of_le hnew hmem)
  · rw [hlive, hsame.cleaned, harrived, ← h.accounted, add_right_comm]
  · intro key
    rw [hsame.artifactLeases, hheld]
    exact h.counts key
  · intro key
    rw [hsame.artifactLeases]
    exact h.positive key
  · intro handle hmem
    rw [hwaiting]
    exact Multiset.mem_add.mpr (.inl (h.held handle (hsame.leases ▸ hmem)))
  · intro key entry hentry
    rw [hheld]
    exact h.deferred key entry (hsame.deferred ▸ hentry)

/-- The invariant holds on where waiting handles go to their cleaner or behind a lease. -/
theorem cleansUp (h : x.Invariant cleaners) {handles : List ArtifactHandle}
    (hwaiting : y.waiting + (x.store.leasedOf false handles : List ArtifactHandle) = x.waiting)
    (harrived : y.arrived = x.arrived)
    (hcleaning : y.store.cleaning = x.store.cleaning ++ x.store.leasedOf false handles)
    (hdeferred : ∀ key entry, y.store.deferredArtifactCleanups.get? key = some entry →
      x.store.deferredArtifactCleanups.get? key = some entry ∨
        artifactLeaseKey entry.2 = key ∧ 0 < (x.store.artifactLeases.get? key).getD 0)
    (hleases : y.store.artifactLeases = x.store.artifactLeases ∧ y.store.leases = x.store.leases ∧
      y.store.cleaned = x.store.cleaned) : y.Invariant cleaners := by
  have hlive : y.live = x.live := by
    rw [Custody.live, Custody.live, hcleaning, ← hwaiting, ← Multiset.coe_add]
    abel
  have hheld (key : LeaseKey) : y.store.heldLeases key = x.store.heldLeases key := by
    unfold heldLeases
    rw [hleases.2.1]
  refine ⟨?_, ?_, ?_, ?_, ?_, ?_, ?_⟩
  · rw [hlive]
    exact h.keys
  · rw [hlive]
    exact h.kinds
  · rw [hlive, hleases.2.2, harrived]
    exact h.accounted
  · intro key
    rw [hleases.1, hheld]
    exact h.counts key
  · intro key
    rw [hleases.1]
    exact h.positive key
  · intro handle hmem
    rw [hleases.2.1] at hmem
    have hx := h.held handle hmem
    rw [← hwaiting] at hx
    refine (Multiset.mem_add.mp hx).resolve_right fun hcleaned => ?_
    -- what goes to its cleaner is not leased
    have hnone : ¬ 0 < (x.store.artifactLeases.get? (artifactLeaseKey handle)).getD 0 := by
      simpa using (List.mem_filter.mp (Multiset.mem_coe.mp hcleaned)).2
    have hpos := heldLeases_pos hmem
    rw [h.counts] at hnone
    exact hnone hpos
  · intro key entry hentry
    rw [hheld]
    rcases hdeferred key entry hentry with hold | ⟨hkey, hpos⟩
    · exact h.deferred key entry hold
    · exact ⟨hkey, h.counts key ▸ hpos⟩

/-- The invariant holds on where a waiting handle is leased. -/
theorem leased (h : x.Invariant cleaners) {handle : ArtifactHandle} (hhandle : handle ∈ y.waiting)
    (hwaiting : y.waiting = x.waiting) (harrived : y.arrived = x.arrived)
    (hcount : y.store.artifactLeases =
      x.store.artifactLeases.upsert (artifactLeaseKey handle) fun n => n.getD 0 + 1)
    (hheld : y.store.leases = handle :: x.store.leases)
    (hsame : y.store.deferredArtifactCleanups = x.store.deferredArtifactCleanups ∧
      y.store.cleaning = x.store.cleaning ∧ y.store.cleaned = x.store.cleaned) :
    y.Invariant cleaners := by
  have hlive : y.live = x.live := by rw [Custody.live, Custody.live, hwaiting, hsame.2.1]
  have hcounts (key : LeaseKey) : y.store.heldLeases key =
      x.store.heldLeases key + if artifactLeaseKey handle = key then 1 else 0 := by
    unfold heldLeases
    rw [hheld, List.countP_cons]
    simp only [decide_eq_true_eq]
  -- one count changes, that of the handle's key
  have hget (key : LeaseKey) : y.store.artifactLeases.get? key =
      if key = artifactLeaseKey handle then
      some (x.store.heldLeases key + 1) else x.store.artifactLeases.get? key := by
    rw [hcount, OrdDict.get?_upsert]
    split_ifs with heq
    · rw [← heq, h.counts]
    · rfl
  refine ⟨?_, ?_, ?_, ?_, ?_, ?_, ?_⟩
  · rw [hlive]
    exact h.keys
  · rw [hlive]
    exact h.kinds
  · rw [hlive, hsame.2.2, harrived]
    exact h.accounted
  · intro key
    rw [hget, hcounts]
    by_cases heq : key = artifactLeaseKey handle
    · rw [if_pos heq, if_pos heq.symm, Option.getD_some]
    · rw [if_neg heq, if_neg (Ne.symm heq), h.counts, add_zero]
  · intro key hzero
    rw [hget] at hzero
    split_ifs at hzero with heq
    · cases hzero
    · exact h.positive key hzero
  · intro other hmem
    rw [hheld] at hmem
    rcases List.mem_cons.mp hmem with rfl | hmem
    · exact hhandle
    · exact hwaiting ▸ h.held other hmem
  · intro key entry hentry
    rw [hsame.1] at hentry
    obtain ⟨hkey, hpos⟩ := h.deferred key entry hentry
    exact ⟨hkey, hcounts key ▸ Nat.lt_of_lt_of_le hpos (Nat.le_add_right _ _)⟩

/-- The invariant holds on where a cleaner runs. -/
theorem cleans (h : x.Invariant cleaners) {handle : ArtifactHandle}
    (hhandle : handle ∈ x.store.cleaning) :
    Custody.Invariant cleaners ⟨runCleaner cleaners handle x.store, x.handed, x.arrived⟩ := by
  have hkind := h.kinds handle (Multiset.mem_add.mpr (.inr (Multiset.mem_coe.mpr hhandle)))
  have hcleaned : (runCleaner cleaners handle x.store).cleaned = x.store.cleaned ++ [handle] :=
    if_pos hkind
  have hcleaning :
      ((x.store.cleaning.erase handle : List ArtifactHandle) : Multiset ArtifactHandle) +
      {handle} = (x.store.cleaning : Multiset ArtifactHandle) := by
    rw [add_comm]
    exact Multiset.coe_eq_coe.mpr (List.perm_cons_erase hhandle).symm
  have hlive : Custody.live ⟨runCleaner cleaners handle x.store, x.handed, x.arrived⟩ + {handle} =
      x.live := by
    rw [Custody.live, Custody.live, ← hcleaning, ← add_assoc]
    rfl
  have hle : Custody.live ⟨runCleaner cleaners handle x.store, x.handed, x.arrived⟩ ≤ x.live := by
    rw [← hlive]
    exact le_self_add
  refine ⟨?_, ?_, ?_, h.counts, h.positive, h.held, h.deferred⟩
  · exact Multiset.nodup_of_le (Multiset.map_le_map hle) h.keys
  · exact fun other hother => h.kinds other (Multiset.mem_of_le hle hother)
  · rw [← h.accounted, ← hlive, hcleaned, ← Multiset.coe_add, ← add_assoc, add_right_comm]
    rfl

/-- One lease fewer. -/
theorem heldLeases_erase {handle : ArtifactHandle} (hheld : handle ∈ s.leases) (key : LeaseKey) :
    (s.leases.erase handle).countP (fun other => artifactLeaseKey other = key) =
      s.heldLeases key - if artifactLeaseKey handle = key then 1 else 0 := by
  rw [List.countP_erase, heldLeases]
  simp only [hheld, true_and, decide_eq_true_eq]

/-- The invariant holds on where a lease ends. -/
theorem endsLease (h : x.Invariant cleaners) {handle : ArtifactHandle} {n : ℕ}
    (hheld : handle ∈ x.store.leases)
    (hn : x.store.artifactLeases.get? (artifactLeaseKey handle) = some n) :
    Custody.Invariant cleaners ⟨{ x.store.releaseLeaseOf (artifactLeaseKey handle) (n - 1) with
      leases := x.store.leases.erase handle }, x.handed, x.arrived⟩ := by
  have hcount : x.store.heldLeases (artifactLeaseKey handle) = n := by
    rw [← h.counts, hn, Option.getD_some]
  have hpos : 0 < n := hcount ▸ heldLeases_pos hheld
  have hcounts (key : LeaseKey) : (x.store.leases.erase handle).countP
      (fun other => artifactLeaseKey other = key) =
        if key = artifactLeaseKey handle then n - 1 else x.store.heldLeases key := by
    rw [heldLeases_erase hheld]
    by_cases heq : key = artifactLeaseKey handle
    · rw [if_pos heq, if_pos heq.symm, heq, hcount]
    · rw [if_neg heq, if_neg (Ne.symm heq), Nat.sub_zero]
  unfold releaseLeaseOf
  split_ifs with hlast
  · -- the last lease of its key: what is deferred behind it goes to its cleaner
    have hlive : Custody.live ⟨{ x.store with
        leases := x.store.leases.erase handle
        artifactLeases := x.store.artifactLeases.erase (artifactLeaseKey handle)
        deferredArtifactCleanups := x.store.deferredArtifactCleanups.erase (artifactLeaseKey handle)
        cleaning := x.store.cleaning ++ x.store.deferredAt (artifactLeaseKey handle) },
        x.handed, x.arrived⟩ = x.live := by
      have hsplit := x.store.deferredElsewhere_add (artifactLeaseKey handle)
      rw [Custody.live, Custody.live, Custody.waiting, Custody.waiting, onHand, onHand, ← hsplit,
        ← Multiset.coe_add]
      change x.store.storedHandles + x.store.pendingHandles +
        x.store.deferredElsewhere (artifactLeaseKey handle) + x.handed + _ = _
      abel
    refine ⟨?_, ?_, ?_, fun key => ?_, fun key hzero => ?_, fun other hother => ?_,
      fun key entry hentry => ?_⟩
    · exact hlive ▸ h.keys
    · exact hlive ▸ h.kinds
    · exact hlive ▸ h.accounted
    · change ((x.store.artifactLeases.erase (artifactLeaseKey handle)).get? key).getD 0 = _
      refine Eq.trans ?_ (hcounts key).symm
      rw [OrdDict.get?_erase]
      split_ifs with heq
      · exact hlast.symm
      · exact h.counts key
    · change (x.store.artifactLeases.erase (artifactLeaseKey handle)).get? key = some 0 at hzero
      rw [OrdDict.get?_erase] at hzero
      split_ifs at hzero with heq
      exact h.positive key hzero
    · -- the deferred handle's key has no lease left
      have hne : artifactLeaseKey other ≠ artifactLeaseKey handle := by
        intro heq
        have hnone := (hcounts (artifactLeaseKey handle)).trans (if_pos rfl)
        rw [hlast] at hnone
        exact List.countP_eq_zero.mp hnone other hother (decide_eq_true heq)
      have hwaiting := h.held other (List.mem_of_mem_erase hother)
      rw [Custody.waiting, onHand, ← x.store.deferredElsewhere_add (artifactLeaseKey handle)]
        at hwaiting
      have hnot : other ∉ x.store.deferredAt (artifactLeaseKey handle) := by
        intro hmem
        obtain ⟨entry, hentry, rfl⟩ := Option.map_eq_some_iff.mp (Option.mem_toList.mp hmem)
        exact hne (h.deferred _ entry hentry).1
      change other ∈ x.store.storedHandles + x.store.pendingHandles +
        x.store.deferredElsewhere (artifactLeaseKey handle) + x.handed
      simp only [Multiset.mem_add, Multiset.mem_coe] at hwaiting ⊢
      tauto
    · change (x.store.deferredArtifactCleanups.erase (artifactLeaseKey handle)).get? key =
        some entry at hentry
      rw [OrdDict.get?_erase] at hentry
      split_ifs at hentry with heq
      obtain ⟨hkey, hleased⟩ := h.deferred key entry hentry
      refine ⟨hkey, ?_⟩
      change 0 < (x.store.leases.erase handle).countP _
      rw [hcounts, if_neg heq]
      exact hleased
  · refine ⟨h.keys, h.kinds, h.accounted, fun key => ?_, fun key hzero => ?_,
      fun other hother => h.held other (List.mem_of_mem_erase hother), fun key entry hentry => ?_⟩
    · change ((x.store.artifactLeases.insert (artifactLeaseKey handle) (n - 1)).get? key).getD 0 = _
      refine Eq.trans ?_ (hcounts key).symm
      rw [OrdDict.insert, OrdDict.get?_upsert]
      split_ifs with heq
      · exact Option.getD_some
      · exact h.counts key
    · change (x.store.artifactLeases.insert (artifactLeaseKey handle) (n - 1)).get? key =
        some 0 at hzero
      rw [OrdDict.insert, OrdDict.get?_upsert] at hzero
      split_ifs at hzero with heq
      · exact hlast (Option.some.inj hzero)
      · exact h.positive key hzero
    · obtain ⟨hkey, hleased⟩ := h.deferred key entry hentry
      refine ⟨hkey, ?_⟩
      change 0 < (x.store.leases.erase handle).countP _
      rw [hcounts]
      split_ifs
      · omega
      · exact hleased

/-- **Every event keeps the invariant.** -/
theorem moves (h : x.Invariant cleaners) {e : JobEvent} (hdistinct : x.Distinct cleaners e)
    (hmoves : x.Moves cleaners e y) : y.Invariant cleaners := by
  cases hmoves
  case rests new hnew hwaiting harrived hsame =>
    exact h.rests hdistinct hnew hwaiting harrived hsame
  case cleansUp handles hwaiting harrived hcleaning hdeferred hleases =>
    exact h.cleansUp hwaiting harrived hcleaning hdeferred hleases
  case leases handle hhandle hwaiting harrived hcount hheld hsame =>
    exact h.leased hhandle hwaiting harrived hcount hheld hsame
  case endsLease handle n hheld hn hy => exact hy ▸ h.endsLease hheld hn
  case cleans handle hhandle hy => exact hy ▸ h.cleans hhandle

/-- The handles whose waiting is over share no key either. -/
theorem keys_waiting (h : x.Invariant cleaners) : (x.waiting.map artifactLeaseKey).Nodup :=
  Multiset.nodup_of_le (Multiset.map_le_map le_self_add) h.keys

end Custody.Invariant

/-- The invariant holds in every run whose steps meet the condition. -/
theorem invariant_of_reachable {ttlSeconds heavyObjectTtlSeconds : ℕ}
    (h : ((custodyMachine cleaners ttlSeconds heavyObjectTtlSeconds).restrict
      (Custody.Distinct cleaners)).Reachable x) : x.Invariant cleaners := by
  refine h.invariant ?_ ?_
  · rintro x rfl
    exact invariant_new cleaners ttlSeconds heavyObjectTtlSeconds
  · rintro x e y hx ⟨hdistinct, henabled, rfl⟩
    exact hx.moves hdistinct (moves_of_perform henabled hdistinct hx.keys_waiting
      fun key entry hentry => (hx.deferred key entry hentry).1)

/-! ### Cleaned once, and not under a lease -/

/-- What the store promises about the handles it is given. -/
structure Custody.CleanedOnce (cleaners : List String) (x : Custody) : Prop where
  /-- A handle that has arrived has a place until it is cleaned, and is cleaned as often as
  it has arrived. -/
  accounted : x.store.storedHandles + x.handed + x.store.pendingHandles + x.store.deferredHandles +
    (x.store.cleaning : Multiset ArtifactHandle) + (x.store.cleaned : Multiset ArtifactHandle) =
      x.arrived
  /-- It has one place. -/
  onePlace : (x.store.storedHandles + x.handed + x.store.pendingHandles + x.store.deferredHandles +
    (x.store.cleaning : Multiset ArtifactHandle)).Nodup
  /-- No cleaner is called for a leased handle. -/
  leased : ∀ handle ∈ x.store.leases, handle ∉ x.store.cleaning
  /-- A handle is deferred behind its own lease. -/
  deferred : ∀ handle ∈ x.store.deferredHandles, handle ∈ x.store.leases
  /-- A cleaner is called for one handle at a time, which is not leased. -/
  calls : ∀ e y, x.Distinct cleaners e → x.store.enabled e →
    y = x.after e (perform cleaners e x.store).2 → y.store.cleaned = x.store.cleaned ∨
      ∃ handle ∈ x.store.cleaning, handle ∉ x.store.leases ∧ e = .clean handle ∧
        y.store.cleaned = x.store.cleaned ++ [handle]
  /-- Giving a lease back sends its own handle to the cleaner, where that is deferred and the
  lease was the last, and leaves every other handle where it is. -/
  ends : ∀ handle y, x.store.enabled (.endLease handle) →
    y = x.after (.endLease handle) (perform cleaners (.endLease handle) x.store).2 →
      ∃ moved : List ArtifactHandle, moved =
          (if handle ∈ x.store.deferredHandles ∧ handle ∉ y.store.leases then [handle] else []) ∧
        y.store.deferredHandles + (moved : Multiset ArtifactHandle) = x.store.deferredHandles ∧
        y.store.cleaning = x.store.cleaning ++ moved ∧
        y.store.storedHandles = x.store.storedHandles ∧ y.handed = x.handed ∧
        y.store.pendingHandles = x.store.pendingHandles ∧ y.store.cleaned = x.store.cleaned
  /-- Once no lease is held and the threads have done their work, every handle that has
  arrived and is no job's and no caller's has been cleaned. -/
  done : x.store.leases = [] → x.store.cleanups = [] → x.store.cleaning = [] →
    x.store.storedHandles + x.handed + (x.store.cleaned : Multiset ArtifactHandle) = x.arrived

/-- What the end of a lease does where its key counts leases. -/
theorem perform_endLease_apply {handle : ArtifactHandle} {n : ℕ}
    (hn : s.artifactLeases.get? (artifactLeaseKey handle) = some n) :
    (perform cleaners (.endLease handle) s).2 =
      { s.releaseLeaseOf (artifactLeaseKey handle) (n - 1) with
        leases := s.leases.erase handle } := by
  rw [perform, endLease]
  simp only [Effect.bind_apply, Effect.get_apply, Effect.ofExcept_apply, hn]
  rfl

namespace Custody.Invariant

/-- The handles, place by place. -/
theorem live_eq (x : Custody) : x.live = x.store.storedHandles + x.handed + x.store.pendingHandles +
    x.store.deferredHandles + (x.store.cleaning : Multiset ArtifactHandle) := by
  rw [Custody.live, Custody.waiting, onHand]
  abel

/-- **A handle is deferred behind its own lease**: behind one of its key, and the leased
handle is live, too. -/
theorem leased_of_deferred (h : x.Invariant cleaners) {handle : ArtifactHandle}
    (hmem : handle ∈ x.store.deferredHandles) : handle ∈ x.store.leases := by
  have hlive : handle ∈ x.live := by
    rw [live_eq]
    simp only [Multiset.mem_add, hmem, or_true, true_or]
  obtain ⟨key, entry, hentry, rfl⟩ := mem_deferredHandles_iff.mp hmem
  obtain ⟨hkey, hpos⟩ := h.deferred key entry hentry
  obtain ⟨other, hother, hsame⟩ := List.countP_pos_iff.mp hpos
  have heq : entry.2 = other :=
    h.eq_of_key hlive (mem_live (h.held other hother)) (hkey.trans (of_decide_eq_true hsame).symm)
  exact heq ▸ hother

/-- A leased handle is not with its cleaner. -/
theorem notMem_cleaning (h : x.Invariant cleaners) {handle : ArtifactHandle}
    (hmem : handle ∈ x.store.leases) : handle ∉ x.store.cleaning := by
  have hn := h.keys
  rw [Custody.live, Multiset.map_add, Multiset.nodup_add] at hn
  exact fun hcleaning => Multiset.disjoint_left.mp hn.2.2
    (Multiset.mem_map_of_mem _ (h.held handle hmem))
    (Multiset.mem_map_of_mem _ (Multiset.mem_coe.mpr hcleaning))

/-- A step calls a cleaner at most once, for a handle that is with it and not leased. -/
theorem calls (h : x.Invariant cleaners) {e : JobEvent} (hmoves : x.Moves cleaners e y) :
    y.store.cleaned = x.store.cleaned ∨ ∃ handle ∈ x.store.cleaning, handle ∉ x.store.leases ∧
      e = .clean handle ∧ y.store.cleaned = x.store.cleaned ++ [handle] := by
  cases hmoves
  case rests new hnew hwaiting harrived hsame => exact .inl hsame.cleaned
  case cleansUp handles hwaiting harrived hcleaning hdeferred hleases => exact .inl hleases.2.2
  case leases handle hhandle hwaiting harrived hcount hheld hsame => exact .inl hsame.2.2
  case endsLease handle n hheld hn hy =>
    left
    rw [hy]
    unfold releaseLeaseOf
    split_ifs <;> rfl
  case cleans handle hhandle hy =>
    have hkind := h.kinds handle (Multiset.mem_add.mpr (.inr (Multiset.mem_coe.mpr hhandle)))
    refine .inr ⟨handle, hhandle, fun hleased => h.notMem_cleaning hleased hhandle, rfl, ?_⟩
    rw [hy]
    exact if_pos hkind

/-- What is deferred behind the last lease of a handle is the handle. -/
theorem deferredAt_eq (h : x.Invariant cleaners) {handle : ArtifactHandle}
    (hheld : handle ∈ x.store.leases) : x.store.deferredAt (artifactLeaseKey handle) =
      if handle ∈ x.store.deferredHandles then [handle] else [] := by
  rcases hentry : x.store.deferredArtifactCleanups.get? (artifactLeaseKey handle) with _ | entry
  · have hnot : handle ∉ x.store.deferredHandles := by
      intro hmem
      obtain ⟨key, entry, hat, rfl⟩ := mem_deferredHandles_iff.mp hmem
      rw [(h.deferred key entry hat).1, hat] at hentry
      cases hentry
    rw [if_neg hnot, deferredAt, hentry]
    rfl
  · have hmem : entry.2 ∈ x.store.deferredHandles :=
      mem_deferredHandles_iff.mpr ⟨_, entry, hentry, rfl⟩
    have heq : entry.2 = handle := h.eq_of_key (mem_live (h.held _ (h.leased_of_deferred hmem)))
      (mem_live (h.held handle hheld)) (h.deferred _ entry hentry).1
    rw [heq] at hmem
    rw [if_pos hmem, deferredAt, hentry, Option.map_some, heq]
    rfl

/-- The end of a lease hands on what it held back, once the last lease of its handle is gone. -/
theorem ends (h : x.Invariant cleaners) {handle : ArtifactHandle}
    (hheld : handle ∈ x.store.leases) :
    ∃ moved : List ArtifactHandle, moved = (if handle ∈ x.store.deferredHandles ∧
        handle ∉ (perform cleaners (.endLease handle) x.store).2.leases then [handle] else []) ∧
      (perform cleaners (.endLease handle) x.store).2.deferredHandles +
        (moved : Multiset ArtifactHandle) = x.store.deferredHandles ∧
      (perform cleaners (.endLease handle) x.store).2.cleaning = x.store.cleaning ++ moved ∧
      (perform cleaners (.endLease handle) x.store).2.storedHandles = x.store.storedHandles ∧
      (perform cleaners (.endLease handle) x.store).2.pendingHandles = x.store.pendingHandles ∧
      (perform cleaners (.endLease handle) x.store).2.cleaned = x.store.cleaned := by
  obtain ⟨n, hn⟩ : ∃ n, x.store.artifactLeases.get? (artifactLeaseKey handle) = some n := by
    have hpos := h.counts (artifactLeaseKey handle) ▸ heldLeases_pos hheld
    rcases hget : x.store.artifactLeases.get? (artifactLeaseKey handle) with _ | n
    · rw [hget] at hpos
      cases hpos
    · exact ⟨n, rfl⟩
  have hcount : (x.store.leases.erase handle).countP (fun other => artifactLeaseKey other =
      artifactLeaseKey handle) = n - 1 := by
    rw [heldLeases_erase hheld, if_pos rfl, ← h.counts, hn, Option.getD_some]
  rw [perform_endLease_apply hn]
  by_cases hlast : n - 1 = 0
  · rw [releaseLeaseOf, if_pos hlast]
    have hnot : handle ∉ x.store.leases.erase handle := by
      rw [hlast] at hcount
      exact fun hmem => List.countP_eq_zero.mp hcount handle hmem (decide_eq_true rfl)
    refine ⟨x.store.deferredAt (artifactLeaseKey handle), ?_,
      x.store.deferredElsewhere_add (artifactLeaseKey handle), rfl, rfl, rfl, rfl⟩
    simp only [h.deferredAt_eq hheld, hnot, not_false_eq_true, and_true]
  · rw [releaseLeaseOf, if_neg hlast]
    -- another lease of the key is a lease of the handle
    have hmem : handle ∈ x.store.leases.erase handle := by
      obtain ⟨other, hother, hsame⟩ := List.countP_pos_iff.mp (hcount ▸ Nat.pos_of_ne_zero hlast)
      have heq := h.eq_of_key (mem_live (h.held other (List.mem_of_mem_erase hother)))
        (mem_live (h.held handle hheld)) (of_decide_eq_true hsame)
      exact heq ▸ hother
    refine ⟨[], ?_, add_zero _, (List.append_nil _).symm, rfl, rfl, rfl⟩
    simp only [hmem, not_true_eq_false, and_false, if_false]

/-- The invariant gives what is promised of the cleaners. -/
theorem cleanedOnce (h : x.Invariant cleaners) : x.CleanedOnce cleaners where
  accounted := live_eq x ▸ h.accounted
  onePlace := live_eq x ▸ Multiset.Nodup.of_map _ h.keys
  leased _ := h.notMem_cleaning
  deferred _ := h.leased_of_deferred
  calls e y hdistinct henabled hy := by
    subst hy
    exact h.calls (moves_of_perform henabled hdistinct h.keys_waiting
      fun key entry hentry => (h.deferred key entry hentry).1)
  ends handle y henabled hy := by
    obtain ⟨moved, h1, h2, h3, h4, h5, h6⟩ := h.ends henabled
    rw [after_eq rfl fun _ _ he => by cases he] at hy
    subst hy
    exact ⟨moved, h1, h2, h3, h4, rfl, h5, h6⟩
  done hleases hcleanups hcleaning := by
    have hdeferred : x.store.deferredHandles = 0 :=
      Multiset.eq_zero_of_forall_notMem fun handle hmem => by
      have hleased := h.leased_of_deferred hmem
      rw [hleases] at hleased
      cases hleased
    have hpending : x.store.pendingHandles = 0 := by
      rw [pendingHandles, hcleanups]
      rfl
    rw [← h.accounted, live_eq, hdeferred, hpending, hcleaning]
    simp only [add_zero, Multiset.coe_nil]

end Custody.Invariant

/-- **Artifacts are cleaned once, and not under a lease**: in every run whose payloads bring
handles that have a cleaner and a key of their own. -/
theorem artifacts_cleaned_once (cleaners : List String) (ttlSeconds heavyObjectTtlSeconds : ℕ)
    {x : Custody} (h : ((custodyMachine cleaners ttlSeconds heavyObjectTtlSeconds).restrict
      (Custody.Distinct cleaners)).Reachable x) : x.CleanedOnce cleaners :=
  (invariant_of_reachable h).cleanedOnce

/-- The handle of a training job's directory: it has no path. -/
def trainingHandle (directory : String) : ArtifactHandle :=
  ⟨"modelling_training_artifacts", none, some directory⟩

/-- A job that is made with its handle. -/
def createTraining (jobId directory : String) : JobEvent :=
  .createJob jobId ⟨[("status", .str "running"),
    ("artifact_handles", .handles ⟨[("training_artifacts", trainingHandle directory)],
      List.nodup_singleton _⟩)], show ["status", "artifact_handles"].Nodup by decide⟩
    (.finite 1) (.finite 1)

/-- The store and its callers after some events, for training handles. -/
def custodyAfter (es : List JobEvent) : Custody :=
  es.foldl (fun x e => x.after e (perform ["modelling_training_artifacts"] e x.store).2)
    ⟨new 10 10, 0, 0⟩

private theorem run_append {cleaners : List String} {C : Custody → JobEvent → Prop}
    {es : List JobEvent}
    {x : Custody} {e : JobEvent} (hrun : ((custodyMachine cleaners 10 10).restrict C).Run es x)
    (hC : C x e) (henabled : x.store.enabled e) : ((custodyMachine cleaners 10 10).restrict C).Run
      (es ++ [e]) (x.after e (perform cleaners e x.store).2) := .next hrun ⟨hC, henabled, rfl⟩

/-- A reader has the directory open while its job is deleted. -/
def readWhileDeleted : List JobEvent :=
  [createTraining "a" "d1", .lease "a" "training_artifacts" (.finite 2), .deleteJob "a",
    .cleanup "a" [trainingHandle "d1"]]

/-- The directory is still leased, and is not being cleaned. -/
theorem artifacts_cleaned_once_read :
    trainingHandle "d1" ∈ (custodyAfter readWhileDeleted).store.leases ∧
      trainingHandle "d1" ∉ (custodyAfter readWhileDeleted).store.cleaning := by
  have hrun : ((custodyMachine ["modelling_training_artifacts"] 10 10).restrict
      (Custody.Distinct ["modelling_training_artifacts"])).Run readWhileDeleted
        (custodyAfter readWhileDeleted) := by
    refine run_append (run_append (run_append (run_append (.start rfl) ?_ ?_) ?_ ?_) ?_ ?_) ?_ ?_
    · exact ⟨by decide +kernel, by decide +kernel, fun _ _ h => by cases h⟩
    · exact List.not_mem_nil
    · exact ⟨by decide +kernel, by decide +kernel, fun _ _ h => by cases h⟩
    · trivial
    · exact ⟨by decide +kernel, by decide +kernel, fun _ _ h => by cases h⟩
    · trivial
    · exact ⟨by decide +kernel, by decide +kernel, fun _ _ h => by cases h⟩
    · change ("a", [trainingHandle "d1"]) ∈ (custodyAfter [createTraining "a" "d1",
        .lease "a" "training_artifacts" (.finite 2), .deleteJob "a"]).store.cleanups
      decide +kernel
  have honce := artifacts_cleaned_once ["modelling_training_artifacts"] 10 10 ⟨_, hrun⟩
  have hleased := honce.deferred (trainingHandle "d1") (by decide +kernel)
  exact ⟨hleased, honce.leased _ hleased⟩

/-- Two directories, of which one is being read while the other's job is deleted. -/
def readAnother : List JobEvent :=
  [createTraining "a" "d1", createTraining "b" "d2", .lease "a" "training_artifacts" (.finite 2),
    .deleteJob "b", .cleanup "b" [trainingHandle "d2"], .deleteJob "a",
      .cleanup "a" [trainingHandle "d1"],
    .endLease (trainingHandle "d1"), .clean (trainingHandle "d1")]

/-- Handles without a path share their lease key: the cleanup of a directory that nobody
reads is deferred behind another's lease, and then lost. -/
theorem deferred_cleanup_lost :
    (custodyMachine ["modelling_training_artifacts"] 10 10).Reachable (custodyAfter readAnother) ∧
      trainingHandle "d2" ∈ (custodyAfter (readAnother.take 5)).store.deferredHandles ∧
      (custodyAfter (readAnother.take 5)).store.leases = [trainingHandle "d1"] ∧
      (custodyAfter readAnother).arrived = {trainingHandle "d1", trainingHandle "d2"} ∧
      (custodyAfter readAnother).live = 0 ∧ (custodyAfter readAnother).store.leases = [] ∧
      (custodyAfter readAnother).store.cleaned = [trainingHandle "d1"] := by
  refine ⟨⟨readAnother, ?_⟩, by
    decide +kernel, by decide +kernel, by decide +kernel, by decide +kernel,
    by decide +kernel, by decide +kernel⟩
  have hrun : ((custodyMachine ["modelling_training_artifacts"] 10 10).restrict fun _ _ => True).Run
      readAnother (custodyAfter readAnother) := by
    refine run_append
      (run_append (run_append (run_append (run_append (run_append (run_append (run_append
      (run_append (.start rfl) trivial ?_) trivial ?_) trivial ?_) trivial ?_)
        trivial ?_) trivial ?_)
        trivial ?_) trivial ?_) trivial ?_
    · exact List.not_mem_nil
    · change "b" ∉ (custodyAfter (readAnother.take 1)).store.jobs.keys
      decide +kernel
    · trivial
    · trivial
    · change ("b", [trainingHandle "d2"]) ∈ (custodyAfter (readAnother.take 4)).store.cleanups
      decide +kernel
    · trivial
    · change ("a", [trainingHandle "d1"]) ∈ (custodyAfter (readAnother.take 6)).store.cleanups
      decide +kernel
    · change trainingHandle "d1" ∈ (custodyAfter (readAnother.take 7)).store.leases
      decide +kernel
    · change trainingHandle "d1" ∈ (custodyAfter (readAnother.take 8)).store.cleaning
      decide +kernel
  exact hrun.of_restrict

end JobStore

end Haute
