import Haute.Jobs.Lifecycle

/-!
# What a job settles to

A fold of `receive` over the transitions a job has received. `Settles` is what comes out,
in terms of which transitions there were: but for a completion that comes first, the order
is not in it.
-/

namespace Haute

namespace JobStore

/-! ### Folding transitions -/

/-- A reason's place in `_TERMINAL_REASON_PRECEDENCE`. -/
def rank (reason : TerminalReason) : ℕ := reason.precedence.getD 0

/-- The status of highest precedence among some reasons: running, if there is none. -/
def IsHighest (reasons : List TerminalReason) (status : JobStatus) : Prop :=
  (reasons = [] ∧ status = .running) ∨
    ∃ reason ∈ reasons, status = .ended reason ∧ ∀ other ∈ reasons, rank other ≤ rank reason

/-- The reasons of the transitions that expect a running job. -/
def direct (ds : List (TerminalReason × ExpectedStatus)) : List TerminalReason :=
  (ds.filter fun d => d.2 = .running).map Prod.fst

/-- The reasons that are not a completion. -/
def failures (reasons : List TerminalReason) : List TerminalReason :=
  reasons.filter (· ≠ .completed)

/-- What a running job settles to, by the transitions it receives. -/
structure Settles (ds : List (TerminalReason × ExpectedStatus)) (status : JobStatus) : Prop where
  /-- A completion that does not come first is ignored, and the others are in no order. -/
  failed : (direct ds).head? ≠ some .completed → IsHighest (failures (direct ds)) status
  /-- A completion that comes first stays, until it is corrected. -/
  completed : ∀ us vs, ds = us ++ (.completed, .running) :: vs → (∀ d ∈ us, d.2 = .completed) →
    (∀ d ∈ vs, d.2 = .running) → status = .ended .completed
  /-- A corrected job is failed, and what comes later counts as for any failed job. -/
  corrected : ∀ us ws xs, ds = us ++ (.completed, .running) :: (ws ++ (.error, .completed) :: xs) →
    (∀ d ∈ us, d.2 = .completed) → (∀ d ∈ ws, d.2 = .running) →
      IsHighest (.error :: failures (direct xs)) status

theorem supersedes_iff {to_ old : TerminalReason} :
    supersedes to_ old = true ↔ to_ ≠ .completed ∧ old ≠ .completed ∧ rank old < rank to_ := by
  rcases to_ <;> rcases old <;> decide

/-- **A failed job**, with the transitions it still receives. -/
theorem isHighest_foldl_receive {reason : TerminalReason} (hreason : reason ≠ .completed)
    (ds : List (TerminalReason × ExpectedStatus))
    (hds : ∀ d ∈ ds, d.2 = .completed → d.1 = .error) :
    IsHighest (reason :: failures (direct ds)) (ds.foldl receive (.ended reason)) := by
  induction ds generalizing reason with
  | nil =>
    exact .inr ⟨reason, List.mem_cons_self, rfl, fun other hother => by
      simp_all [failures, direct]⟩
  | cons d ds ih =>
    obtain ⟨to_, expected⟩ := d
    have hrest : ∀ d ∈ ds, d.2 = .completed → d.1 = .error :=
      fun d hd => hds d (List.mem_cons_of_mem _ hd)
    have hreceive : receive (.ended reason) (to_, expected) =
        if supersedes to_ reason then .ended to_ else .ended reason := by
      unfold receive
      rw [if_neg]
      rcases expected with _ | _
      · simp [ExpectedStatus.status]
      · simpa [ExpectedStatus.status] using hreason
    rw [List.foldl_cons, hreceive]
    by_cases hsup : supersedes to_ reason = true
    · obtain ⟨hto, -, hlt⟩ := supersedes_iff.mp hsup
      -- a correction is an error, and supersedes nothing
      have hexpected : expected = .running := by
        rcases expected with _ | _
        · rfl
        · have herror := hds _ List.mem_cons_self rfl
          simp only at herror
          rw [herror] at hlt
          revert hreason hlt
          rcases reason <;> decide
      have hdirect : failures (direct ((to_, expected) :: ds)) = to_ :: failures (direct ds) := by
        simp [failures, direct, hexpected, hto]
      rw [if_pos hsup, hdirect]
      rcases ih hto hrest with ⟨hnil, -⟩ | ⟨best, hmem, hbest, hmax⟩
      · cases hnil
      · refine .inr ⟨best, List.mem_cons_of_mem _ hmem, hbest, fun other hother => ?_⟩
        rcases List.mem_cons.mp hother with rfl | hother
        · exact hlt.le.trans (hmax to_ List.mem_cons_self)
        · exact hmax other hother
    · rw [if_neg hsup]
      rcases ih hreason hrest with ⟨hnil, -⟩ | ⟨best, hmem, hbest, hmax⟩
      · cases hnil
      · have hsub : ∀ other ∈ failures (direct ((to_, expected) :: ds)),
            other = to_ ∧ to_ ≠ .completed ∨ other ∈ failures (direct ds) := by
          intro other hother
          by_cases hexpected : expected = .running
          · by_cases hto : to_ = .completed
            · exact .inr (by simpa [failures, direct, hexpected, hto] using hother)
            · have : other = to_ ∨ other ∈ failures (direct ds) := by
                simpa [failures, direct, hexpected, hto] using hother
              exact this.imp_left fun h => ⟨h, hto⟩
          · exact .inr (by simpa [failures, direct, hexpected] using hother)
        refine .inr ⟨best, ?_, hbest, fun other hother => ?_⟩
        · rcases List.mem_cons.mp hmem with rfl | hmem
          · exact List.mem_cons_self
          · refine List.mem_cons_of_mem _ ?_
            unfold failures direct at hmem ⊢
            rw [List.filter_cons]
            split_ifs
            · rw [List.map_cons, List.filter_cons]
              split_ifs
              · exact List.mem_cons_of_mem _ hmem
              · exact hmem
            · exact hmem
        · rcases List.mem_cons.mp hother with rfl | hother
          · exact hmax other List.mem_cons_self
          rcases hsub other hother with ⟨rfl, hto⟩ | hother
          · refine le_trans ?_ (hmax reason List.mem_cons_self)
            by_contra hlt
            exact hsup (supersedes_iff.mpr ⟨hto, hreason, by omega⟩)
          · exact hmax other (List.mem_cons_of_mem _ hother)

/-- Corrections of a job that is not completed are ignored. -/
theorem foldl_receive_running (us : List (TerminalReason × ExpectedStatus))
    (h : ∀ d ∈ us, d.2 = .completed) : us.foldl receive .running = .running := by
  induction us with
  | nil => rfl
  | cons d us ih =>
    have hd : receive .running d = .running := by
      unfold receive
      rw [h d List.mem_cons_self]
      rfl
    rw [List.foldl_cons, hd, ih fun d hd => h d (List.mem_cons_of_mem _ hd)]

/-- A completed job ignores whatever expects a running one. -/
theorem foldl_receive_completed (vs : List (TerminalReason × ExpectedStatus))
    (h : ∀ d ∈ vs, d.2 = .running) :
    vs.foldl receive (.ended .completed) = .ended .completed := by
  induction vs with
  | nil => rfl
  | cons d vs ih =>
    have hd : receive (.ended .completed) d = .ended .completed := by
      unfold receive
      rw [h d List.mem_cons_self]
      rcases d with ⟨to_, expected⟩
      rcases to_ <;> rfl
    rw [List.foldl_cons, hd, ih fun d hd => h d (List.mem_cons_of_mem _ hd)]

/-- **A running job settles.** -/
theorem settles_foldl_receive (ds : List (TerminalReason × ExpectedStatus))
    (hds : ∀ d ∈ ds, d.2 = .completed → d.1 = .error) : Settles ds (ds.foldl receive .running) where
  failed := by
    induction ds with
    | nil => exact fun _ => .inl ⟨rfl, rfl⟩
    | cons d ds ih =>
      intro hfirst
      have hrest : ∀ d ∈ ds, d.2 = .completed → d.1 = .error :=
        fun d hd => hds d (List.mem_cons_of_mem _ hd)
      obtain ⟨to_, expected⟩ := d
      rw [List.foldl_cons]
      rcases expected with _ | _
      · have hto : to_ ≠ .completed := by
          rintro rfl
          exact hfirst rfl
        have hdirect : failures (direct ((to_, .running) :: ds)) = to_ :: failures (direct ds) := by
          simp [failures, direct, hto]
        rw [hdirect]
        exact isHighest_foldl_receive hto ds hrest
      · exact ih hrest hfirst
  completed us vs heq hus hvs := by
    rw [heq, List.foldl_append, foldl_receive_running us hus]
    exact foldl_receive_completed vs hvs
  corrected us ws xs heq hus hws := by
    rw [heq, List.foldl_append, foldl_receive_running us hus, List.foldl_cons, List.foldl_append]
    change IsHighest _ (List.foldl receive (ws.foldl receive (.ended .completed)) _)
    rw [foldl_receive_completed ws hws]
    refine isHighest_foldl_receive (by decide) xs fun d hd => hds d ?_
    rw [heq]
    simp [hd]

/-! ### Events and runs -/

variable {s t : JobStore}

/-- The job an event makes. -/
def JobEvent.creates : JobEvent → Option String
  | .createJob jobId .. => some jobId
  | _ => none

/-- The transitions that some events deliver to a job, oldest first. -/
def received (jobId : String) (es : List JobEvent) : List (TerminalReason × ExpectedStatus) :=
  es.filterMap (JobEvent.delivers jobId)

/-- Transitions come by two operations. -/
theorem delivers_eq_some_iff {jobId : String} {e : JobEvent} {d : TerminalReason × ExpectedStatus} :
    e.delivers jobId = some d ↔
      (∃ a, e = .transitionTerminal a ∧ a.jobId = jobId ∧ a.wellFormed = true ∧
        d = (a.to_, a.expectedStatus)) ∨
      ∃ a, e = .compareAndPublishCompletion a ∧ a.jobId = jobId ∧ a.wellFormed = true ∧
        d = (.completed, .running) := by
  constructor
  · intro h
    cases e
    case transitionTerminal a =>
      simp only [JobEvent.delivers] at h
      split_ifs at h with hcond
      exact .inl ⟨a, rfl, hcond.1, hcond.2, (Option.some.inj h).symm⟩
    case compareAndPublishCompletion a =>
      simp only [JobEvent.delivers] at h
      split_ifs at h with hcond
      exact .inr ⟨a, rfl, hcond.1, hcond.2, (Option.some.inj h).symm⟩
    all_goals cases h
  · rintro (⟨a, rfl, hid, hwell, rfl⟩ | ⟨a, rfl, hid, hwell, rfl⟩)
    · exact if_pos ⟨hid, hwell⟩
    · exact if_pos ⟨hid, hwell⟩

/-- A transition that expects a completed job is a correction. -/
theorem eq_error_of_delivers {jobId : String} {e : JobEvent} {d : TerminalReason × ExpectedStatus}
    (h : e.delivers jobId = some d) (hd : d.2 = .completed) : d.1 = .error := by
  rcases delivers_eq_some_iff.mp h with ⟨a, -, -, hwell, rfl⟩ | ⟨a, -, -, -, rfl⟩
  · simp only [Transition.wellFormed, Bool.and_eq_true, decide_eq_true_eq] at hwell
    exact hwell.1.1.1.resolve_left fun hne => hne hd
  · cases hd

/-- An update leaves the lifecycle fields alone. -/
theorem get?_update_of_request {a : Update} {m : Merge} (h : a.request s = .ok (some m))
    {key : String}
    (hkey : key ∈ lifecycleKeys) : (m.old.update m.fields).get? key = m.old.get? key := by
  obtain ⟨hfields, -, -, -, hm⟩ := Update.request_eq_some_iff.mp h
  have hnone : m.fields.get? key = none := by
    rw [hm]
    exact validatePayloadFields_eq_ok_iff.mp hfields key hkey
  rw [JobRecord.get?_update, hnone]
  rfl

/-- **What an event does to a status**: the transition it delivers is received, and nothing
else happens. -/
theorem status_of_perform {cleaners : List String} {e : JobEvent} (henabled : s.enabled e)
    {jobId : String} {old new : JobRecord} {status : JobStatus}
    (hold : s.jobs.get? jobId = some old)
    (hvalid : old.Valid status) (hnew : (perform cleaners e s).2.jobs.get? jobId = some new) :
    new.status? = some (match e.delivers jobId with
      | none => status
      | some d => receive status d) := by
  rcases hd : e.delivers jobId with _ | d
  · rcases get?_of_perform cleaners e s hnew
      with ⟨old', hold', hkeeps⟩ | ⟨_, _, _, rfl⟩ | ⟨m, hreq, hid, hmerged⟩
    · obtain rfl := Option.some.inj (hold.symm.trans hold')
      rw [← hvalid.read]
      unfold JobRecord.status?
      rcases hkeeps "status" (by decide) with h | ⟨h, -⟩
      · rw [h]
      · exact absurd h (by decide)
    · exact absurd (OrdDict.mem_keys_iff.mpr ⟨old, hold⟩) henabled
    · have hmold := (get?_of_requested hreq).1
      rw [hid, hold] at hmold
      obtain rfl := Option.some.inj hmold
      cases e
      case transitionTerminal a =>
        have hrequest := toOption_join_eq_some_iff.mp hreq
        obtain ⟨-, -, -, -, -, hm⟩ := Transition.request_eq_some_iff.mp hrequest
        have hjob : a.jobId = jobId := by rw [← hid, hm]
        simp [JobEvent.delivers, hjob, (Transition.wellFormed_of_merged hrequest hmerged).1] at hd
      case compareAndPublishCompletion a =>
        have hrequest := toOption_join_eq_some_iff.mp hreq
        obtain ⟨hwell, hjob, -⟩ := Completion.wellFormed_of_merged hrequest hmerged
        simp [JobEvent.delivers, hjob.symm.trans hid, hwell] at hd
      case update a =>
        rw [JobRecord.status?_of_merged hmerged, ← hvalid.read]
        unfold JobRecord.status?
        rw [get?_update_of_request (toOption_join_eq_some_iff.mp hreq) (by decide)]
      all_goals cases hreq
  · rcases delivers_eq_some_iff.mp hd with ⟨a, rfl, rfl, hwell, rfl⟩ | ⟨a, rfl, rfl, hwell, rfl⟩
    · exact status_of_transition hold hvalid hwell hnew
    · exact status_of_completion hold hvalid hwell hnew

/-- A job that is not there comes only by being made. -/
theorem get?_eq_none_of_perform {cleaners : List String} {e : JobEvent} {jobId : String}
    (hnone : s.jobs.get? jobId = none) (hcreates : e.creates ≠ some jobId) :
    (perform cleaners e s).2.jobs.get? jobId = none := by
  rcases hnew : (perform cleaners e s).2.jobs.get? jobId with _ | new
  · rfl
  rcases get?_of_perform cleaners e s hnew with ⟨old, hold, -⟩ | ⟨_, _, _, rfl⟩ | ⟨m, hreq, hid, -⟩
  · rw [hnone] at hold
    cases hold
  · exact absurd rfl hcreates
  · have hold := (get?_of_requested hreq).1
    rw [hid, hnone] at hold
    cases hold

/-- **What a run does to a status.** -/
theorem status_of_run {cleaners : List String} {ttlSeconds heavyObjectTtlSeconds : ℕ}
    {jobId : String}
    {es : List JobEvent} {status : JobStatus} (hs : AllValid s)
    (hstatus : s.statusOf jobId = some status)
    (hrun : ((machine cleaners ttlSeconds heavyObjectTtlSeconds).startFrom s).Run es t)
    (hcreates : ∀ e ∈ es, e.creates ≠ some jobId) : t.jobs.get? jobId = none ∨
      t.statusOf jobId = some ((received jobId es).foldl receive status) := by
  suffices h : AllValid t ∧ ((∀ e ∈ es, e.creates ≠ some jobId) → t.jobs.get? jobId = none ∨
      t.statusOf jobId = some ((received jobId es).foldl receive status)) from h.2 hcreates
  clear hcreates
  refine hrun.invariant (P := fun es t => AllValid t ∧ ((∀ e ∈ es, e.creates ≠ some jobId) →
    t.jobs.get? jobId = none ∨ t.statusOf jobId = some ((received jobId es).foldl receive status)))
    (fun t ht => ?_) fun es t e u _ ih hstep => ?_
  · rw [show t = s from ht]
    exact ⟨hs, fun _ => .inr hstatus⟩
  · obtain ⟨henabled, rfl⟩ := hstep
    refine ⟨ih.1.perform cleaners e, fun hcreates => ?_⟩
    have hlast := hcreates e (List.mem_append_right _ List.mem_cons_self)
    rcases ih.2 fun e he => hcreates e (List.mem_append_left _ he) with hnone | hsome
    · exact .inl (get?_eq_none_of_perform hnone hlast)
    rcases hnew : (perform cleaners e t).2.jobs.get? jobId with _ | new
    · exact .inl rfl
    right
    obtain ⟨old, hold, hread⟩ := Option.bind_eq_some_iff.mp hsome
    obtain ⟨status', hvalid⟩ := validateCommonRecord_eq_ok_iff.mp (ih.1 jobId old hold)
    have hsame := Option.some.inj (hvalid.read.symm.trans hread)
    change ((perform cleaners e t).2.jobs.get? jobId).bind JobRecord.status? = _
    rw [hnew, Option.bind_some, status_of_perform henabled hold hvalid hnew, received,
      List.filterMap_append, List.foldl_append, hsame]
    rcases hd : e.delivers jobId with _ | d
    · simp [hd, received]
    · simp [hd, received]

/-- A transition or a completion, and the record of a completed job: but for the correction
it stays. -/
theorem completed_of_requested {cleaners : List String} {e : JobEvent} {jobId : String}
    {old new : JobRecord} (hold : s.jobs.get? jobId = some old)
    (hvalid : old.Valid (.ended .completed))
    (hnew : (perform cleaners e s).2.jobs.get? jobId = some new)
    (he : (∃ a, e = .transitionTerminal a) ∨ ∃ a, e = .compareAndPublishCompletion a) :
    e.delivers jobId = some (.error, .completed) ∨ new = old := by
  rcases hreq : s.requested e with _ | m
  · have hnothing : (perform cleaners e s).2 = s := by
      rcases he with ⟨a, rfl⟩ | ⟨a, rfl⟩ <;>
      · rw [perform, Effect.void_apply_snd]
        refine (merging_apply _ s).trans ?_
        change (Except.toOption _).join = none at hreq
        rw [hreq]
    rw [hnothing, hold] at hnew
    exact .inr (Option.some.inj hnew).symm
  rw [perform_of_requested hreq, get?_storeMergedJobLocked] at hnew
  rcases hmerged : m.old.merged m.fields s.heavyObjectTtlSeconds m.now with error | job
  · simp only [hmerged, hold] at hnew
    exact .inr (Option.some.inj hnew).symm
  simp only [hmerged] at hnew
  by_cases hid : jobId = m.jobId
  · left
    have hmold := (get?_of_requested hreq).1
    rw [← hid, hold] at hmold
    obtain rfl := Option.some.inj hmold
    rcases he with ⟨a, rfl⟩ | ⟨a, rfl⟩
    · have hrequest := toOption_join_eq_some_iff.mp hreq
      obtain ⟨hexpected, -, -, -, happlies, hm⟩ := Transition.request_eq_some_iff.mp hrequest
      -- nothing supersedes a completion
      have hcompleted : a.expectedStatus = .completed := by
        rcases (Transition.appliesTo_iff hvalid).mp happlies with h | ⟨reason, h, hsup⟩
        · revert h
          rcases a.expectedStatus <;> simp [ExpectedStatus.status]
        · cases h
          exact absurd rfl (supersedes_iff.mp hsup).2.1
      have herror : a.to_ = .error := hexpected.resolve_left fun hne => hne hcompleted
      refine delivers_eq_some_iff.mpr
        (.inl ⟨a, rfl, ?_, (Transition.wellFormed_of_merged hrequest hmerged).1, ?_⟩)
      · rw [hid, hm]
      · rw [hcompleted, herror]
    · obtain ⟨-, -, hrunning, -⟩ :=
        Completion.request_eq_some_iff.mp (toOption_join_eq_some_iff.mp hreq)
      rw [JobRecord.hasStatus_iff, hvalid.read] at hrunning
      cases hrunning
  · rw [if_neg hid, hold] at hnew
    exact .inr (Option.some.inj hnew).symm

/-- **A completed record**, after an event that leaves its job there: either the event is
the correction, or the lifecycle fields are as they were, and the whole record is where the
event is a transition or a completion. -/
theorem completed_of_perform {cleaners : List String} {e : JobEvent} (hs : AllValid s)
    (henabled : s.enabled e) {jobId : String} {old new : JobRecord}
    (hold : s.jobs.get? jobId = some old) (hstatus : old.status? = some (.ended .completed))
    (hnew : (perform cleaners e s).2.jobs.get? jobId = some new) :
    e.delivers jobId = some (.error, .completed) ∨
      (∀ key ∈ lifecycleKeys, new.get? key = old.get? key) ∧
      ((∃ a, e = .transitionTerminal a) ∨ (∃ a, e = .compareAndPublishCompletion a) →
        new = old) := by
  obtain ⟨status, hvalid⟩ := validateCommonRecord_eq_ok_iff.mp (hs jobId old hold)
  obtain rfl := Option.some.inj (hvalid.read.symm.trans hstatus)
  -- only these two deliver a terminal status; the others keep the lifecycle they find
  by_cases he : (∃ a, e = .transitionTerminal a) ∨ ∃ a, e = .compareAndPublishCompletion a
  · rcases completed_of_requested hold hvalid hnew he with hcorrected | rfl
    · exact .inl hcorrected
    · exact .inr ⟨fun _ _ => rfl, fun _ => rfl⟩
  refine .inr ⟨fun key hkey => ?_, fun h => absurd h he⟩
  have hdelivers : e.delivers jobId = none := by
    rcases hd : e.delivers jobId with _ | d
    · rfl
    · exact absurd ((delivers_eq_some_iff.mp hd).imp (fun ⟨a, ha, _⟩ => ⟨a, ha⟩) fun ⟨a, ha, _⟩ =>
        ⟨a, ha⟩) he
  have hread := status_of_perform henabled hold hvalid hnew
  rw [hdelivers] at hread
  rcases get?_of_perform cleaners e s hnew
    with ⟨old', hold', hkeeps⟩ | ⟨_, _, _, rfl⟩ | ⟨m, hreq, hid, hmerged⟩
  · obtain rfl := Option.some.inj (hold.symm.trans hold')
    rcases hkeeps key hkey with h | ⟨rfl, hnone⟩
    · exact h
    · -- a record that is still completed has its time of completion
      obtain ⟨status, hvalid'⟩ :=
        validateCommonRecord_eq_ok_iff.mp (hs.perform cleaners e jobId new hnew)
      obtain rfl := Option.some.inj (hvalid'.read.symm.trans hread)
      obtain ⟨v, hv⟩ := hvalid'.completed rfl
      rw [hnone] at hv
      cases hv
  · exact absurd (OrdDict.mem_keys_iff.mpr ⟨old, hold⟩) henabled
  · have hmold := (get?_of_requested hreq).1
    rw [hid, hold] at hmold
    obtain rfl := Option.some.inj hmold
    cases e
    case transitionTerminal a => exact absurd (.inl ⟨a, rfl⟩) he
    case compareAndPublishCompletion a => exact absurd (.inr ⟨a, rfl⟩) he
    case update a =>
      have hupdate := get?_update_of_request (toOption_join_eq_some_iff.mp hreq) hkey
      by_cases hcompleted : key = "completed_at"
      · subst hcompleted
        obtain ⟨v, hv⟩ := hvalid.completed rfl
        rw [JobRecord.get?_completedAt_of_merged hmerged (hupdate.trans hv), hv]
      · have hne : ∀ key ∈ lifecycleKeys, key ∉ heavyObjectKeys ∧
            key ≠ heavyObjectExpiresAtKey := by
          decide
        rw [JobRecord.get?_of_merged_of_notMem hmerged (hne key hkey).1 hcompleted (hne key hkey).2,
          hupdate]
    all_goals cases hreq

/-- **The lifecycle of a job.** In every run of a store, a terminal status is never left for
a running one; a job settles by the transitions it has received, which for those before any
completion are in no order; and a completed record's lifecycle fields change by the
correction only, and none of its fields by another transition or completion. -/
theorem job_lifecycle (cleaners : List String) (ttlSeconds heavyObjectTtlSeconds : ℕ) :
    (∀ s, (machine cleaners ttlSeconds heavyObjectTtlSeconds).Reachable s → ∀ e t,
      (machine cleaners ttlSeconds heavyObjectTtlSeconds).step s e t → ∀ jobId reason,
      s.statusOf jobId = some (.ended reason) → t.jobs.get? jobId = none ∨
        ∃ reason', t.statusOf jobId = some (.ended reason')) ∧
    (∀ s, (machine cleaners ttlSeconds heavyObjectTtlSeconds).Reachable s → ∀ jobId,
      s.statusOf jobId = some .running → ∀ es t,
      ((machine cleaners ttlSeconds heavyObjectTtlSeconds).startFrom s).Run es t →
      (∀ e ∈ es, e.creates ≠ some jobId) → t.jobs.get? jobId = none ∨
        ∃ status, t.statusOf jobId = some status ∧ Settles (received jobId es) status) ∧
    ∀ s, (machine cleaners ttlSeconds heavyObjectTtlSeconds).Reachable s → ∀ e t,
      (machine cleaners ttlSeconds heavyObjectTtlSeconds).step s e t → ∀ jobId old new,
      s.jobs.get? jobId = some old → old.status? = some (.ended .completed) →
      t.jobs.get? jobId = some new → e.delivers jobId = some (.error, .completed) ∨
        (∀ key ∈ lifecycleKeys, new.get? key = old.get? key) ∧
        ((∃ a, e = .transitionTerminal a) ∨ (∃ a, e = .compareAndPublishCompletion a) →
          new = old) := by
  refine ⟨fun s hs e t hstep jobId reason hstatus =>
    ?_, fun s hs jobId hrunning es t hrun hcreates => ?_,
    fun s hs e t hstep jobId old new hold hstatus hnew => ?_⟩
  · obtain ⟨henabled, rfl⟩ := hstep
    rcases hnew : (perform cleaners e s).2.jobs.get? jobId with _ | new
    · exact .inl rfl
    right
    obtain ⟨old, hold, hread⟩ := Option.bind_eq_some_iff.mp hstatus
    obtain ⟨status, hvalid⟩ :=
      validateCommonRecord_eq_ok_iff.mp (allValid_of_reachable hs jobId old hold)
    obtain rfl := Option.some.inj (hvalid.read.symm.trans hread)
    have hstatus' := status_of_perform henabled hold hvalid hnew
    unfold statusOf
    rw [hnew, Option.bind_some, hstatus']
    rcases e.delivers jobId with _ | d
    · exact ⟨reason, rfl⟩
    · simp only [receive]
      split_ifs
      · exact ⟨_, rfl⟩
      · exact ⟨_, rfl⟩
      · exact ⟨_, rfl⟩
  · rcases status_of_run (allValid_of_reachable hs) hrunning hrun hcreates with hnone | hsome
    · exact .inl hnone
    · refine .inr ⟨_, hsome, settles_foldl_receive _ fun d hd hcompleted => ?_⟩
      obtain ⟨e, -, he⟩ := List.mem_filterMap.mp hd
      exact eq_error_of_delivers he hcompleted
  · obtain ⟨henabled, rfl⟩ := hstep
    exact completed_of_perform (allValid_of_reachable hs) henabled hold hstatus hnew

/-- A running job is made. -/
def createRunning : JobEvent :=
  .createJob "j" ⟨[("status", .str "running")], by decide⟩ (.finite 1) (.finite 1)

/-- A plain transition of that job. -/
def plainTransition (to_ : TerminalReason) : JobEvent :=
  .transitionTerminal ⟨"j", to_, none, .empty, .running, none, .finite 2⟩

/-- A completion and an error, in either order: what comes first stays. -/
theorem completed_or_failed : ∃ s t,
    (machine [] 10 10).Run [createRunning, plainTransition .completed, plainTransition .error] s ∧
    (machine [] 10 10).Run [createRunning, plainTransition .error, plainTransition .completed] t ∧
    s.statusOf "j" = some (.ended .completed) ∧ t.statusOf "j" = some (.ended .error) := by
  have hcreate : (machine [] 10 10).Run [createRunning] (perform [] createRunning (new 10 10)).2 :=
    .next (.start rfl) ⟨show "j" ∉ (new 10 10).jobs.keys from List.not_mem_nil, rfl⟩
  have hrun (to_ to_' : TerminalReason) :=
    (hcreate.next (e := plainTransition to_) ⟨trivial, rfl⟩).next (e := plainTransition to_')
      ⟨trivial, rfl⟩
  exact ⟨_, _, hrun .completed .error, hrun .error .completed, by decide +kernel, by decide +kernel⟩

end JobStore

end Haute
