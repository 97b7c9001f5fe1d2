import Haute.Jobs.Operations

/-!
# The lifecycle of a job

What decides a job's status is the transitions it receives: the well-formed ones, in their
order. `receive` is one of them, `status_of_run` says that a run's events do nothing else
to a status, and the rest is about folding `receive`.

A transition that expects a running job ends it, and then one of higher precedence
replaces one of lower, so the order is not seen, except that `completed` has no
precedence: where it comes first nothing replaces it but the explicit correction, and
where it comes later it is ignored (`completed_or_failed`).
-/

namespace Haute

theorem isOk_iff {α : Type} {x : Except PyError α} : x.isOk = true ↔ ∃ a, x = .ok a := by
  rcases x with e | a
  · simp [Except.isOk, Except.toBool]
  · simp [Except.isOk, Except.toBool]

/-- A timestamp is one under every name. -/
theorem IsTimestamp.rename {name name' : String} {v : JobValue} (h : IsTimestamp name v) :
    IsTimestamp name' v := by
  obtain ⟨x, hx⟩ := h
  unfold IsTimestamp validateTimestamp at *
  simp only at hx ⊢
  split at hx
  · rename_i n
    obtain ⟨y, hy, hx⟩ := bind_eq_ok_iff.mp hx
    split_ifs at hx with hneg
    exact ⟨y, bind_eq_ok_iff.mpr ⟨y, hy, by rw [if_neg hneg]⟩⟩
  · split_ifs at hx with hneg
    exact ⟨_, by simp only [if_neg hneg]; rfl⟩
  · exact ⟨_, rfl⟩
  · cases hx

namespace JobRecord

variable {old fields new job : JobRecord} {status : JobStatus} {ttl : ℕ} {now : PyFloat}

/-- A message, if there is one, is a string. -/
def messageIsString (job : JobRecord) : Bool :=
  match job.get? "message" with
  | none | some (.plain (.str _)) => true
  | some _ => false

theorem messageIsString_iff :
    job.messageIsString = true ↔ ∀ v, job.get? "message" = some v → ∃ s, v = .str s := by
  unfold messageIsString
  constructor
  · intro h v hv
    rw [hv] at h
    split at h <;> simp_all
  · intro h
    split
    · rfl
    · rfl
    · rename_i v hne hv
      obtain ⟨s, rfl⟩ := h v hv
      exact absurd rfl (hne s)

/-- A merge keeps the time of completion. -/
theorem get?_completedAt_of_merged (h : old.merged fields ttl now = .ok new) {v : JobValue}
    (hv : (old.update fields).get? "completed_at" = some v) : new.get? "completed_at" = some v := by
  have hnot : ∀ job : JobRecord, "completed_at" ∉ job.owningKeys := by
    intro job hmem
    unfold owningKeys at hmem
    split_ifs at hmem
    · cases hmem
    · have := (List.mem_filter.mp hmem).1
      revert this
      decide
  have hswept : ((old.update fields).without (old.update fields).owningKeys).get? "completed_at" =
      some v := by
    rw [get?_without, if_neg (hnot _), hv]
  unfold merged at h
  obtain ⟨job, hjob, h⟩ := bind_eq_ok_iff.mp h
  obtain ⟨_, -, h⟩ := bind_eq_ok_iff.mp h
  cases h
  have hset :
      (((old.update fields).without (old.update fields).owningKeys).setdefault "completed_at"
      (.plain (.float now))).get? "completed_at" = some v := by
    rw [OrdDict.setdefault, OrdDict.get?_upsert_self, hswept]
    rfl
  unfold prepareHeavyObjectPolicy stampExpiry at hjob
  split_ifs at hjob
  · cases hjob
    rw [get?_without, if_neg (by decide)]
    exact hset
  · cases hjob
    exact hset
  · obtain ⟨expiresAt, -, hjob⟩ := bind_eq_ok_iff.mp hjob
    cases hjob
    rw [OrdDict.insert, OrdDict.get?_upsert_ne (by decide)]
    exact hset
  · cases hjob
    exact hswept

private theorem notMem_owningKeys {job : JobRecord} {key : String} (hkey : key ∉ heavyObjectKeys) :
    key ∉ job.owningKeys := by
  unfold owningKeys
  split_ifs
  · exact List.not_mem_nil
  · exact fun hmem => hkey (List.mem_filter.mp hmem).1

/-- What a merge leaves under a field that is neither heavy nor the store's. -/
theorem get?_of_merged_of_notMem (h : old.merged fields ttl now = .ok new) {key : String}
    (hheavy : key ∉ heavyObjectKeys) (hcompleted : key ≠ "completed_at")
    (hexpires : key ≠ heavyObjectExpiresAtKey) : new.get? key = (old.update fields).get? key := by
  rw [get?_of_merged h hcompleted hexpires, if_neg (notMem_owningKeys hheavy), get?_update]

/-- The status of a merged record is the payload's, or else the record's. -/
theorem status?_of_merged (h : old.merged fields ttl now = .ok new) :
    new.status? = (old.update fields).status? := by
  unfold status?
  rw [get?_of_merged_of_notMem h (by decide) (by decide) (by decide)]

/-- A payload that ends a job. -/
structure Ends (payload : JobRecord) (reason : TerminalReason) : Prop where
  status : payload.get? "status" = some (.str reason.name)
  terminal : payload.get? "terminal_reason" = some (.str reason.name)
  createdAt : payload.get? "created_at" = none
  endedAt : ∃ v, payload.get? "ended_at" = some v ∧ IsTimestamp "ended_at" v
  completedAt : ∀ v, payload.get? "completed_at" = some v → IsTimestamp "completed_at" v
  completed : reason = .completed → ∃ x : PyFloat, payload.get? "completed_at" =
    some (.plain (.float x))

theorem Ends.status?_update {reason : TerminalReason} (h : Ends fields reason) :
    (old.update fields).status? = some (.ended reason) := by
  unfold status?
  rw [get?_update, h.status]
  exact JobStatus.ofName_eq_some_iff.mpr rfl

/-- A valid record is valid with the payload, if the message is. -/
theorem Ends.valid_update {reason : TerminalReason} (h : Ends fields reason)
    (hvalid : old.Valid status)
    (hmessage : fields.messageIsString = true) : (old.update fields).Valid (.ended reason) where
  read := h.status?_update
  createdAt := by
    rw [get?_update, h.createdAt]
    exact hvalid.createdAt
  message v hv := by
    rw [get?_update] at hv
    rcases hf : fields.get? "message" with _ | w
    · rw [hf] at hv
      exact hvalid.message v hv
    · rw [hf] at hv
      obtain rfl := Option.some.inj hv
      exact messageIsString_iff.mp hmessage w hf
  running hs := by cases hs
  reason r hr := by
    cases hr
    rw [get?_update, h.terminal]
    rfl
  endedAt r _ := by
    obtain ⟨v, hv, htime⟩ := h.endedAt
    exact ⟨v, by rw [get?_update, hv]; rfl, htime⟩
  completedAt v hv := by
    rw [get?_update] at hv
    rcases hf : fields.get? "completed_at" with _ | w
    · rw [hf] at hv
      exact hvalid.completedAt v hv
    · rw [hf] at hv
      obtain rfl := Option.some.inj hv
      exact h.completedAt w hf
  completed hs := by
    cases hs
    obtain ⟨x, hx⟩ := h.completed rfl
    exact ⟨_, by rw [get?_update, hx]; rfl⟩

/-- Stamping an expiry does not raise where the job's completion is a float. -/
private theorem exists_stampExpiry {x : PyFloat}
    (h : job.get? "completed_at" = some (.plain (.float x))) :
    ∃ new, stampExpiry job ttl = .ok new := by
  unfold stampExpiry
  split_ifs with hheavy hexpires
  · exact ⟨_, rfl⟩
  · exact ⟨_, rfl⟩
  · have hnone : job.get? heavyObjectExpiresAtKey = none := OrdDict.get?_eq_none_iff.mpr hexpires
    simp only [heavyObjectsExpiresAt, hnone, h, expect, floatOf]
    exact ⟨_, rfl⟩

/-- **A well-formed payload that ends a job is merged.** -/
theorem Ends.exists_merged {reason : TerminalReason} (h : Ends fields reason)
    (hvalid : old.Valid status)
    (hmessage : fields.messageIsString = true) (ttl : ℕ) (now : PyFloat) :
    ∃ new, old.merged fields ttl now = .ok new := by
  have hupdate := h.valid_update hvalid hmessage
  -- the fields the check reads are not swept
  have hread : ∀ key ∈ "message" :: lifecycleKeys,
      ((old.update fields).without (old.update fields).owningKeys).get? key =
        (old.update fields).get? key := by
    intro key hkey
    have hheavy : ∀ key ∈ "message" :: lifecycleKeys, key ∉ heavyObjectKeys := by decide
    rw [get?_without, if_neg (notMem_owningKeys (hheavy key hkey))]
  have hswept := hupdate.congr hread
  suffices hprepare : ∃ job, ((old.update fields).without
      (old.update fields).owningKeys).prepareHeavyObjectPolicy ttl now = .ok job ∧
        validateCommonRecord job = .ok () by
    obtain ⟨job, hjob, hcheck⟩ := hprepare
    exact ⟨job, bind_eq_ok_iff.mpr ⟨job, hjob, bind_eq_ok_iff.mpr ⟨(), hcheck, rfl⟩⟩⟩
  by_cases hcompleted : reason = .completed
  · obtain ⟨x, hx⟩ := h.completed hcompleted
    have hat : ((old.update fields).without (old.update fields).owningKeys).get? "completed_at" =
        some (.plain (.float x)) := by
      rw [hread "completed_at" (by decide), get?_update, hx]
      rfl
    have hset : ((old.update fields).without (old.update fields).owningKeys).setdefault
        "completed_at"
        (.plain (.float now)) = (old.update fields).without (old.update fields).owningKeys :=
      OrdDict.upsert_eq_self hat rfl
    obtain ⟨job, hjob⟩ := @exists_stampExpiry _ ttl x hat
    have hprepare : ((old.update fields).without
        (old.update fields).owningKeys).prepareHeavyObjectPolicy ttl now = .ok job := by
      rw [prepareHeavyObjectPolicy, if_pos, hset, hjob]
      rw [hasStatus_iff, hswept.read, hcompleted]
    refine ⟨job, hprepare, validateCommonRecord_eq_ok_iff.mpr ⟨_, hswept.congr fun key hkey => ?_⟩⟩
    have hexpires : ∀ key ∈ "message" :: lifecycleKeys, key ∉ [heavyObjectExpiresAtKey] ∧
        key ≠ heavyObjectExpiresAtKey := by decide
    unfold stampExpiry at hjob
    split_ifs at hjob
    · cases hjob
      rw [get?_without, if_neg (hexpires key hkey).1]
    · cases hjob
      rfl
    · obtain ⟨expiresAt, -, hjob⟩ := bind_eq_ok_iff.mp hjob
      cases hjob
      exact OrdDict.get?_upsert_ne (hexpires key hkey).2 _ _
  · refine ⟨_, ?_, validateCommonRecord_eq_ok_iff.mpr ⟨_, hswept⟩⟩
    rw [prepareHeavyObjectPolicy, if_neg]
    rw [hasStatus_iff, hswept.read]
    simpa using hcompleted

end JobRecord

namespace JobStore

variable {s t : JobStore}

/-! ### Transitions -/

/-- A job's status, if there is such a job. -/
def statusOf (s : JobStore) (jobId : String) : Option JobStatus :=
  (s.jobs.get? jobId).bind JobRecord.status?

/-- A transition whose arguments and payload pass every check. -/
def Transition.wellFormed (a : Transition) : Bool :=
  decide (a.expectedStatus ≠ .completed ∨ a.to_ = .error) &&
    (validatePayloadFields a.fields).isOk &&
    (validateTimestamp "now" (.plain (.float a.now))).isOk && a.payload.messageIsString

/-- A completion whose publisher returns and leaves the record alone, and whose payload passes
every check. -/
def Completion.wellFormed (a : Completion) : Bool :=
  (validateNow a.now).isOk &&
    (validateTimestamp "now" (.plain (.float (a.now.getD a.clock)))).isOk &&
    a.keepsRecord && match a.published with
    | .ok (some fields) => (validatePayloadFields fields).isOk &&
        (a.payload fields (a.now.getD a.clock)).messageIsString
    | _ => false

/-- The transition that an event delivers to a job: its reason, and the status it expects. -/
def JobEvent.delivers (jobId : String) : JobEvent → Option (TerminalReason × ExpectedStatus)
  | .transitionTerminal a =>
    if a.jobId = jobId ∧ a.wellFormed = true then some (a.to_, a.expectedStatus) else none
  | .compareAndPublishCompletion a =>
    if a.jobId = jobId ∧ a.wellFormed = true then some (.completed, .running) else none
  | _ => none

/-- What a job's status becomes when it receives a transition. -/
def receive (status : JobStatus) (d : TerminalReason × ExpectedStatus) : JobStatus :=
  if status = d.2.status then .ended d.1
  else match status with
    | .running => .running
    | .ended old => if supersedes d.1 old then .ended d.1 else .ended old

theorem validatePayloadFields_eq_ok_iff {fields : JobRecord} :
    validatePayloadFields fields = .ok () ↔ ∀ key ∈ lifecycleKeys, fields.get? key = none := by
  unfold validatePayloadFields
  rw [require_eq_ok_iff, decide_eq_true_eq, List.filter_eq_nil_iff]
  simp [OrdDict.get?_eq_none_iff]

theorem get?_withReport {payload : JobRecord} {message : Option String} {elapsed : Option PyFloat}
    {key : String} (hmessage : key ≠ "message") (helapsed : key ≠ "elapsed_seconds") :
    (withReport payload message elapsed).get? key = payload.get? key := by
  unfold withReport
  rcases message with _ | message <;> rcases elapsed with _ | elapsed <;>
    simp [OrdDict.insert, OrdDict.get?_upsert_ne hmessage, OrdDict.get?_upsert_ne helapsed]

/-- The payload of a transition ends a job. -/
theorem Transition.ends_payload {a : Transition} (hfields : validatePayloadFields a.fields = .ok ())
    (hnow : ∃ x, validateTimestamp "now" (.plain (.float a.now)) = .ok x) :
    JobRecord.Ends a.payload a.to_ := by
  have hnone := validatePayloadFields_eq_ok_iff.mp hfields
  have hread {key : String} (h1 : key ≠ "message") (h2 : key ≠ "elapsed_seconds")
      (h3 : key ≠ "completed_at") : a.payload.get? key = (((a.fields.insert "status"
        (.str a.to_.name)).insert "terminal_reason" (.str a.to_.name)).insert "ended_at"
          (.plain (.float a.now))).get? key := by
    unfold Transition.payload
    rw [get?_withReport h1 h2]
    split_ifs
    · exact OrdDict.get?_upsert_ne h3 _ _
    · rfl
  have hcompleted : a.payload.get? "completed_at" =
      if a.to_ = .completed then some (.plain (.float a.now)) else none := by
    unfold Transition.payload
    rw [get?_withReport (by decide) (by decide)]
    have hmissing : (((a.fields.insert "status" (.str a.to_.name)).insert "terminal_reason"
        (.str a.to_.name)).insert "ended_at" (.plain (.float a.now))).get? "completed_at" =
          none := by
      simp [OrdDict.insert, OrdDict.get?_upsert, hnone "completed_at" (by decide)]
    split_ifs
    · rw [OrdDict.setdefault, OrdDict.get?_upsert_self, hmissing]
      rfl
    · exact hmissing
  constructor
  · rw [hread (by decide) (by decide) (by decide)]
    simp [OrdDict.insert, OrdDict.get?_upsert]
  · rw [hread (by decide) (by decide) (by decide)]
    simp [OrdDict.insert, OrdDict.get?_upsert]
  · rw [hread (by decide) (by decide) (by decide)]
    simp [OrdDict.insert, OrdDict.get?_upsert, hnone "created_at" (by decide)]
  · refine ⟨.plain (.float a.now), ?_, IsTimestamp.rename hnow⟩
    rw [hread (by decide) (by decide) (by decide)]
    simp [OrdDict.insert]
  · intro v hv
    rw [hcompleted] at hv
    split_ifs at hv
    · obtain rfl := Option.some.inj hv
      exact IsTimestamp.rename hnow
  · intro hto
    exact ⟨a.now, by rw [hcompleted, if_pos hto]⟩

/-- The payload of a completion ends a job as completed. -/
theorem Completion.ends_payload {a : Completion} {fields : JobRecord} {now : PyFloat}
    (hfields : validatePayloadFields fields = .ok ())
    (hnow : ∃ x, validateTimestamp "now" (.plain (.float now)) = .ok x) :
    JobRecord.Ends (a.payload fields now) .completed := by
  have hnone := validatePayloadFields_eq_ok_iff.mp hfields
  have hread {key : String} (h1 : key ≠ "message") (h2 : key ≠ "elapsed_seconds") :
      (a.payload fields now).get? key = ((((fields.insert "status" (.str "completed")).insert
        "terminal_reason" (.str "completed")).insert "ended_at" (.plain (.float now))).insert
          "completed_at" (.plain (.float now))).get? key := get?_withReport h1 h2
  constructor
  · rw [hread (by decide) (by decide)]
    simp [OrdDict.insert, OrdDict.get?_upsert, TerminalReason.name]
  · rw [hread (by decide) (by decide)]
    simp [OrdDict.insert, OrdDict.get?_upsert, TerminalReason.name]
  · rw [hread (by decide) (by decide)]
    simp [OrdDict.insert, OrdDict.get?_upsert, hnone "created_at" (by decide)]
  · refine ⟨.plain (.float now), ?_, IsTimestamp.rename hnow⟩
    rw [hread (by decide) (by decide)]
    simp [OrdDict.insert, OrdDict.get?_upsert]
  · intro v hv
    rw [hread (by decide) (by decide)] at hv
    simp only [OrdDict.insert, OrdDict.get?_upsert_self] at hv
    obtain rfl := Option.some.inj hv
    exact IsTimestamp.rename hnow
  · intro _
    exact ⟨now, by rw [hread (by decide) (by decide)]; simp [OrdDict.insert]⟩

theorem terminalReason?_of_valid {job : JobRecord} {reason : TerminalReason}
    (h : job.Valid (.ended reason)) : terminalReason? job = some reason := by
  unfold terminalReason?
  rw [h.reason reason rfl]
  clear h
  rcases reason <;> decide

theorem Transition.appliesTo_iff {a : Transition} {old : JobRecord} {status : JobStatus}
    (h : old.Valid status) : a.appliesTo old = true ↔ status = a.expectedStatus.status ∨
      ∃ reason, status = .ended reason ∧ supersedes a.to_ reason = true := by
  unfold Transition.appliesTo
  rw [Bool.or_eq_true, JobRecord.hasStatus_iff, h.read, Option.some_inj]
  refine or_congr Iff.rfl ?_
  rcases status with _ | reason
  · have hnone : terminalReason? old = none := by
      unfold terminalReason?
      rw [h.running rfl "terminal_reason" (by decide)]
    simp [hnone]
  · simp [terminalReason?_of_valid h]

/-- A transition that applies is the one received, and one that does not is not. -/
theorem receive_eq {a : Transition} {old : JobRecord} {status : JobStatus} (h : old.Valid status) :
    receive status (a.to_, a.expectedStatus) =
      if a.appliesTo old then .ended a.to_ else status := by
  unfold receive
  split_ifs with h1 h2 h2
  · rfl
  · exact absurd ((Transition.appliesTo_iff h).mpr (.inl h1)) h2
  · rcases (Transition.appliesTo_iff h).mp h2 with h3 | ⟨reason, rfl, hsup⟩
    · exact absurd h3 h1
    · simp [hsup]
  · rcases status with _ | reason
    · rfl
    · have hsup : ¬supersedes a.to_ reason = true := fun hsup =>
        h2 ((Transition.appliesTo_iff h).mpr (.inr ⟨reason, rfl, hsup⟩))
      simp [hsup]

/-! ### One event -/

/-- Every stored record passes its check. -/
def AllValid (s : JobStore) : Prop :=
  ∀ jobId job, s.jobs.get? jobId = some job → validateCommonRecord job = .ok ()

/-- A record with another's lifecycle fields, but perhaps without its time of completion. -/
def KeepsLifecycle (new old : JobRecord) : Prop :=
  ∀ key ∈ lifecycleKeys, new.get? key = old.get? key ∨ key = "completed_at" ∧ new.get? key = none

theorem KeepsLifecycle.of_eq {new old : JobRecord}
    (h : ∀ key ∈ lifecycleKeys, new.get? key = old.get? key) : KeepsLifecycle new old :=
  fun key hkey => .inl (h key hkey)

/-- Fields taken from a record that still passes its check: no lifecycle field is one of
them, unless it is the time of completion. -/
theorem keepsLifecycle_withoutResultData {job : JobRecord} {keys : List String}
    (hvalid : validateCommonRecord job = .ok ())
    (hcheck : validateCommonRecord (job.withoutResultData keys) = .ok ()) :
    KeepsLifecycle (job.withoutResultData keys) job := by
  obtain ⟨status, h⟩ := validateCommonRecord_eq_ok_iff.mp hcheck
  -- a field of the lifecycle is dropped if it is named, and else as it was
  have hread : ∀ key ∈ lifecycleKeys, (job.withoutResultData keys).get? key =
      if key ∈ keys then none else job.get? key := by
    intro key hkey
    have hne : ∀ key ∈ lifecycleKeys, key ∉ [heavyObjectExpiresAtKey] := by decide
    unfold JobRecord.withoutResultData
    split_ifs <;> simp only [JobRecord.get?_without, if_neg (hne key hkey)] <;> simp [*]
  have hkept {key : String} (hkey : key ∈ lifecycleKeys)
      (hsome : (job.withoutResultData keys).get? key ≠ none) :
      (job.withoutResultData keys).get? key = job.get? key := by
    rw [hread key hkey] at hsome ⊢
    split_ifs at hsome ⊢
    · exact absurd rfl hsome
    · rfl
  have hstatus : (job.withoutResultData keys).get? "status" = job.get? "status" := by
    refine hkept (by decide) fun hnone => ?_
    have hread := h.read
    unfold JobRecord.status? at hread
    rw [hnone] at hread
    cases hread
  have hcreated : (job.withoutResultData keys).get? "created_at" = job.get? "created_at" := by
    obtain ⟨v, hv, -⟩ := h.createdAt
    exact hkept (by decide) fun hnone => by rw [hnone] at hv; cases hv
  intro key hkey
  by_cases hcompleted : key = "completed_at"
  · subst hcompleted
    rw [hread _ hkey]
    split_ifs
    · exact .inr ⟨rfl, rfl⟩
    · exact .inl rfl
  left
  rcases status with _ | reason
  · -- a running job has no terminal field, and had none
    obtain ⟨status, hold⟩ := validateCommonRecord_eq_ok_iff.mp hvalid
    have hrunning : status = .running := by
      have hsame : (job.withoutResultData keys).status? = job.status? := by
        unfold JobRecord.status?
        rw [hstatus]
      exact Option.some.inj (hold.read.symm.trans (hsame.symm.trans h.read))
    have hcases : ∀ key ∈ lifecycleKeys, key = "status" ∨ key = "created_at" ∨
        key ∈ terminalKeys := by
      decide
    rcases hcases key hkey with rfl | rfl | hterminal
    · exact hstatus
    · exact hcreated
    · rw [h.running rfl key hterminal, hold.running hrunning key hterminal]
  · have hcases : ∀ key ∈ lifecycleKeys, key = "status" ∨ key = "created_at" ∨
        key = "terminal_reason" ∨
        key = "ended_at" ∨ key = "completed_at" := by decide
    rcases hcases key hkey with rfl | rfl | rfl | rfl | rfl
    · exact hstatus
    · exact hcreated
    · exact hkept hkey fun hnone => by rw [h.reason reason rfl] at hnone; cases hnone
    · obtain ⟨v, hv, -⟩ := h.endedAt reason rfl
      exact hkept hkey fun hnone => by rw [hnone] at hv; cases hv
    · exact absurd rfl hcompleted

/-- The store after a merge, whether or not the merged record passed its check. -/
theorem get?_storeMergedJobLocked (m : Merge) (s : JobStore) (jobId : String) :
    (storeMergedJobLocked m s).2.jobs.get? jobId =
      match m.old.merged m.fields s.heavyObjectTtlSeconds m.now with
      | .error _ => s.jobs.get? jobId
      | .ok new => if jobId = m.jobId then some new else s.jobs.get? jobId := by
  rw [storeMergedJobLocked_apply]
  rcases m.old.merged m.fields s.heavyObjectTtlSeconds m.now with error | new
  · rfl
  · exact OrdDict.get?_upsert _ _ _ _

/-- What a sweep leaves of a job: nothing, or its record, perhaps without its heavy
values. -/
theorem get?_of_sweeps (h : Sweeps s t) {jobId : String} {new : JobRecord}
    (hnew : t.jobs.get? jobId = some new) : ∃ old, s.jobs.get? jobId = some old ∧
      ∀ key ∈ "message" :: lifecycleKeys, new.get? key = old.get? key := by
  induction h generalizing new with
  | refl => exact ⟨new, hnew, fun _ _ => rfl⟩
  | tail _ hlast ih =>
    cases hlast
    case activity => exact ih hnew
    case clear jobId' job now hjob hvalid =>
      change OrdDict.get? (OrdDict.upsert _ _ _) jobId = some new at hnew
      rw [OrdDict.get?_upsert] at hnew
      split_ifs at hnew with heq
      · obtain rfl := Option.some.inj hnew
        obtain ⟨old, hold, hsame⟩ := ih (heq.symm ▸ hjob)
        refine ⟨old, hold, fun key hkey => ?_⟩
        have hkeys : ∀ key ∈ "message" :: lifecycleKeys, key ≠ "heavy_objects_cleared_at" ∧
            key ≠ "heavy_objects_retention_seconds" ∧
            key ∉ heavyObjectExpiresAtKey :: heavyObjectKeys := by decide
        obtain ⟨h1, h2, h3⟩ := hkeys key hkey
        rw [JobRecord.get?_cleared h1 h2, if_neg h3, hsame key hkey]
      · exact ih hnew
    case remove jobId' job handles hjob hhandles =>
      change OrdDict.get? (OrdDict.erase _ _) jobId = some new at hnew
      rw [OrdDict.get?_erase] at hnew
      split_ifs at hnew
      exact ih hnew

/-- **What one event leaves of a job**: its lifecycle fields and its message as they were,
unless the event makes or merges into that very job. -/
theorem get?_of_perform (cleaners : List String) (e : JobEvent) (s : JobStore) {jobId : String}
    {new : JobRecord} (hnew : (perform cleaners e s).2.jobs.get? jobId = some new) :
    (∃ old, s.jobs.get? jobId = some old ∧ KeepsLifecycle new old) ∨
    (∃ initialStatus now now', e = .createJob jobId initialStatus now now') ∨
    ∃ m, s.requested e = some m ∧ m.jobId = jobId ∧
      m.old.merged m.fields s.heavyObjectTtlSeconds m.now = .ok new := by
  obtain ⟨mid, hsweeps, hmid, hown⟩ := perform_cases cleaners e s
  -- a record whose lifecycle fields are those it had after the sweep
  have hsame (old : JobRecord) (hold : mid.jobs.get? jobId = some old)
      (hkeys : KeepsLifecycle new old) : ∃ old, s.jobs.get? jobId = some old ∧
        KeepsLifecycle new old := by
    obtain ⟨old', hold', hkeys'⟩ := get?_of_sweeps hsweeps hold
    exact ⟨old', hold', fun key hkey => (hkeys key hkey).imp_left fun h =>
      h.trans (hkeys' key (List.mem_cons_of_mem _ hkey))⟩
  have hframe (hjobs : (perform cleaners e s).2.jobs = mid.jobs) : ∃ old, s.jobs.get? jobId =
      some old ∧
      KeepsLifecycle new old :=
    hsame new (hjobs ▸ hnew) (.of_eq fun _ _ => rfl)
  -- one record is replaced by one with the same lifecycle fields
  have hreplace {id : String} {old job : JobRecord} (hold : mid.jobs.get? id = some old)
      (hjobs : (perform cleaners e s).2.jobs = mid.jobs.insert id job)
      (hkeys : KeepsLifecycle job old) : ∃ old, s.jobs.get? jobId = some old ∧
        KeepsLifecycle new old := by
    rw [hjobs, OrdDict.insert, OrdDict.get?_upsert] at hnew
    split_ifs at hnew with heq
    · obtain rfl := Option.some.inj hnew
      exact hsame old (heq ▸ hold) hkeys
    · exact hsame new hnew (.of_eq fun _ _ => rfl)
  generalize hperform : (perform cleaners e s).2 = t at *
  cases hown
  case create jobId' initialStatus now now' hstatus hcheck =>
    change OrdDict.get? (OrdDict.upsert _ _ _) jobId = some new at hnew
    rw [OrdDict.get?_upsert] at hnew
    split_ifs at hnew with heq
    · exact .inr (.inl ⟨initialStatus, now, now', by rw [heq]⟩)
    · exact .inl (hsame new hnew (.of_eq fun _ _ => rfl))
  case touch jobId' requiredKeys now now' job expiresAt hcheck hjob =>
    refine .inl (hreplace hjob rfl (.of_eq fun key hkey => ?_))
    have hne : ∀ key ∈ lifecycleKeys, key ≠ heavyObjectExpiresAtKey := by decide
    exact OrdDict.get?_upsert_ne (hne key hkey) _ _
  case merge m hreq =>
    have hs : mid = s := by
      refine hmid ?_
      cases e <;> first | rfl | cases hreq
    subst hs
    rw [get?_storeMergedJobLocked] at hnew
    rcases hmerged : m.old.merged m.fields mid.heavyObjectTtlSeconds m.now with error | job
    · rw [hmerged] at hnew
      exact .inl (hsame new hnew (.of_eq fun _ _ => rfl))
    · simp only [hmerged] at hnew
      split_ifs at hnew with heq
      · obtain rfl := Option.some.inj hnew
        exact .inr (.inr ⟨m, hreq, heq.symm, hmerged⟩)
      · exact .inl (hsame new hnew (.of_eq fun _ _ => rfl))
  case clear jobId' keys job hvalid hcheck hjob =>
    exact .inl (hreplace hjob rfl (keepsLifecycle_withoutResultData hvalid hcheck))
  case detach jobId' key old handles handle hhandles hhandle hjob =>
    refine .inl (hreplace hjob rfl (.of_eq fun key hkey => ?_))
    have hne : ∀ key ∈ lifecycleKeys, key ≠ "artifact_handles" := by decide
    exact OrdDict.get?_upsert_ne (hne key hkey) _ _
  case releaseDetached jobId' handles =>
    exact .inl (hframe (cleanupArtifactHandles_frame jobId' handles mid).1)
  case endLease handle n hn =>
    exact .inl (hframe (mid.releaseLeaseOf_frame (artifactLeaseKey handle) (n - 1)).1)
  case cleanup jobId' handles =>
    exact .inl (hframe (cleanupArtifactHandles_frame jobId' handles
      { mid with cleanups := mid.cleanups.erase (jobId', handles) }).1)
  all_goals exact .inl (hframe rfl)

/-- **Every stored record stays valid.** -/
theorem AllValid.perform (h : AllValid s) (cleaners : List String) (e : JobEvent) :
    AllValid (perform cleaners e s).2 := by
  obtain ⟨mid, hsweeps, -, hown⟩ := perform_cases cleaners e s
  -- storing one checked record
  have hput {s : JobStore} {jobs : OrdDict String JobRecord} {id : String} {job : JobRecord}
      (h : AllValid s)
      (hjobs : jobs = s.jobs.insert id job) (hcheck : validateCommonRecord job = .ok ()) :
      ∀ jobId new, jobs.get? jobId = some new → validateCommonRecord new = .ok () := by
    intro jobId new hnew
    rw [hjobs, OrdDict.insert, OrdDict.get?_upsert] at hnew
    split_ifs at hnew
    · exact Option.some.inj hnew ▸ hcheck
    · exact h jobId new hnew
  have hmid : AllValid mid := by
    refine hsweeps.keeps (P := AllValid) h fun s t hstep hs => ?_
    cases hstep
    case activity => exact hs
    case clear jobId job now hjob hvalid =>
      exact hput hs rfl (validateCommonRecord_eq_ok_iff.mpr ⟨_, hvalid.cleared _ now⟩)
    case remove jobId job handles hjob hhandles =>
      intro jobId' new hnew
      change OrdDict.get? (OrdDict.erase _ _) jobId' = some new at hnew
      rw [OrdDict.get?_erase] at hnew
      split_ifs at hnew
      exact hs jobId' new hnew
  generalize (JobStore.perform cleaners e s).2 = t at hown
  have hframe {t : JobStore} (hjobs : t.jobs = mid.jobs) : AllValid t := by
    intro jobId job hjob
    exact hmid jobId job (hjobs ▸ hjob)
  cases hown
  case create jobId initialStatus now now' hstatus hcheck => exact hput hmid rfl hcheck
  case touch jobId requiredKeys now now' job expiresAt hcheck hjob => exact hput hmid rfl hcheck
  case merge m hreq =>
    rw [storeMergedJobLocked_apply]
    rcases hmerged : m.old.merged m.fields mid.heavyObjectTtlSeconds m.now with error | new
    · exact hmid
    · exact hput hmid rfl (JobRecord.check_of_merged hmerged)
  case clear jobId keys job hvalid hcheck hjob => exact hput hmid rfl hcheck
  case detach jobId key old handles handle hhandles hhandle hjob =>
    obtain ⟨status, hvalid⟩ := validateCommonRecord_eq_ok_iff.mp (hmid jobId old hjob)
    refine hput hmid rfl
      (validateCommonRecord_eq_ok_iff.mpr ⟨status, hvalid.congr fun key hkey => ?_⟩)
    have hne : ∀ key ∈ "message" :: lifecycleKeys, key ≠ "artifact_handles" := by decide
    exact OrdDict.get?_upsert_ne (hne key hkey) _ _
  case releaseDetached jobId handles =>
    exact hframe (cleanupArtifactHandles_frame jobId handles mid).1
  case endLease handle n hn =>
    exact hframe (mid.releaseLeaseOf_frame (artifactLeaseKey handle) (n - 1)).1
  case cleanup jobId handles =>
    exact hframe (cleanupArtifactHandles_frame jobId handles
      { mid with cleanups := mid.cleanups.erase (jobId, handles) }).1
  all_goals exact hframe rfl

theorem allValid_of_reachable {cleaners : List String} {ttlSeconds heavyObjectTtlSeconds : ℕ}
    (h : (machine cleaners ttlSeconds heavyObjectTtlSeconds).Reachable s) : AllValid s := by
  refine h.invariant (P := AllValid) (fun s hs => ?_) fun s e t hs hstep => ?_
  · rw [show s = _ from hs]
    intro jobId job hjob
    cases hjob
  · rw [hstep.2]
    exact hs.perform cleaners e

/-- What a transition asks for, and is merged, is well-formed. -/
theorem Transition.wellFormed_of_merged {a : Transition} {m : Merge} {new : JobRecord} {ttl : ℕ}
    (h : a.request s = .ok (some m)) (hmerged : m.old.merged m.fields ttl m.now = .ok new) :
    a.wellFormed = true ∧ JobRecord.Ends m.fields a.to_ := by
  obtain ⟨hexpected, hfields, hnow, -, -, hm⟩ := Transition.request_eq_some_iff.mp h
  have hpayload : m.fields = a.payload := by rw [hm]
  obtain ⟨status, hvalid⟩ := validateCommonRecord_eq_ok_iff.mp (JobRecord.check_of_merged hmerged)
  have hmessage : a.payload.messageIsString = true := by
    refine JobRecord.messageIsString_iff.mpr fun v hv => hvalid.message v ?_
    rw [JobRecord.get?_of_merged_of_notMem hmerged (by decide) (by decide) (by decide),
      JobRecord.get?_update, hpayload, hv]
    rfl
  refine ⟨?_, hpayload ▸ Transition.ends_payload hfields hnow⟩
  simp only [Transition.wellFormed, hmessage, Bool.and_true, Bool.and_eq_true, decide_eq_true_eq]
  exact ⟨⟨hexpected, isOk_iff.mpr ⟨_, hfields⟩⟩, isOk_iff.mpr hnow⟩

/-- What a completion asks for, and is merged, is well-formed. -/
theorem Completion.wellFormed_of_merged {a : Completion} {m : Merge} {new : JobRecord} {ttl : ℕ}
    (h : a.request s = .ok (some m)) (hmerged : m.old.merged m.fields ttl m.now = .ok new) :
    a.wellFormed = true ∧ m.jobId = a.jobId ∧ JobRecord.Ends m.fields .completed := by
  obtain ⟨hnow, -, -, hm⟩ := Completion.request_eq_some_iff.mp h
  unfold Completion.publish at hm
  obtain ⟨published, hpublished, hm⟩ := bind_eq_ok_iff.mp hm
  obtain ⟨_, hkeeps, hm⟩ := bind_eq_ok_iff.mp hm
  obtain ⟨fields, hfields, hm⟩ := bind_eq_ok_iff.mp hm
  obtain ⟨_, hchecked, hm⟩ := bind_eq_ok_iff.mp hm
  obtain ⟨x, hx, hm⟩ := bind_eq_ok_iff.mp hm
  rw [expect_eq_ok_iff] at hfields
  have hpayload : m.fields = a.payload fields (a.now.getD a.clock) :=
    (congrArg Merge.fields (Except.ok.inj hm)).symm
  obtain ⟨status, hvalid⟩ := validateCommonRecord_eq_ok_iff.mp (JobRecord.check_of_merged hmerged)
  have hmessage : (a.payload fields (a.now.getD a.clock)).messageIsString = true := by
    refine JobRecord.messageIsString_iff.mpr fun v hv => hvalid.message v ?_
    rw [JobRecord.get?_of_merged_of_notMem hmerged (by decide) (by decide) (by decide),
      JobRecord.get?_update, hpayload, hv]
    rfl
  refine ⟨?_, (congrArg Merge.jobId (Except.ok.inj hm)).symm,
    hpayload ▸ Completion.ends_payload hchecked ⟨x, hx⟩⟩
  simp only [Completion.wellFormed, hpublished, hfields, hmessage, Bool.and_true, Bool.and_eq_true]
  exact ⟨⟨⟨isOk_iff.mpr ⟨_, hnow⟩, isOk_iff.mpr ⟨x, hx⟩⟩, require_eq_ok_iff.mp hkeeps⟩,
    isOk_iff.mpr ⟨_, hchecked⟩⟩

/-- What is read of a job after an event that asks for a merge into it. -/
theorem get?_perform_of_requested {cleaners : List String} {e : JobEvent} {m : Merge}
    {new : JobRecord}
    (h : s.requested e = some m)
    (hmerged : m.old.merged m.fields s.heavyObjectTtlSeconds m.now = .ok new) :
    (perform cleaners e s).2.jobs.get? m.jobId = some new := by
  rw [perform_of_requested h, get?_storeMergedJobLocked, hmerged]
  exact if_pos rfl

/-- **A well-formed transition is received.** -/
theorem status_of_transition {cleaners : List String} {a : Transition} {old new : JobRecord}
    {status : JobStatus} (hold : s.jobs.get? a.jobId = some old) (hvalid : old.Valid status)
    (hwell : a.wellFormed = true)
    (hnew : (perform cleaners (.transitionTerminal a) s).2.jobs.get? a.jobId = some new) :
    new.status? = some (receive status (a.to_, a.expectedStatus)) := by
  simp only [Transition.wellFormed, Bool.and_eq_true, decide_eq_true_eq] at hwell
  obtain ⟨⟨⟨hexpected, hfields⟩, hnow⟩, hmessage⟩ := hwell
  obtain ⟨_, hfields⟩ := isOk_iff.mp hfields
  obtain ⟨x, hx⟩ := isOk_iff.mp hnow
  have hends := Transition.ends_payload hfields ⟨x, hx⟩
  have hrecord : s.requireRecord a.jobId = .ok old :=
    requireRecord_eq_ok_iff.mpr ⟨hold, validateCommonRecord_eq_ok_iff.mpr ⟨status, hvalid⟩⟩
  rw [receive_eq hvalid]
  by_cases happlies : a.appliesTo old = true
  · have hreq : s.requested (.transitionTerminal a) = some ⟨a.jobId, old, a.payload, a.now⟩ :=
      toOption_join_eq_some_iff.mpr (Transition.request_eq_some_iff.mpr
        ⟨hexpected, hfields, ⟨x, hx⟩, hrecord, happlies, rfl⟩)
    obtain ⟨new', hmerged⟩ := hends.exists_merged hvalid hmessage s.heavyObjectTtlSeconds a.now
    have hget := @get?_perform_of_requested _ cleaners _ _ _ hreq hmerged
    obtain rfl := Option.some.inj (hnew.symm.trans hget)
    rw [if_pos happlies, JobRecord.status?_of_merged hmerged, hends.status?_update]
  · have hreq : s.requested (.transitionTerminal a) = none := by
      rcases hreq : s.requested (.transitionTerminal a) with _ | m
      · rfl
      · obtain ⟨-, -, -, hold', happlies', -⟩ :=
          Transition.request_eq_some_iff.mp (toOption_join_eq_some_iff.mp hreq)
        rw [hrecord] at hold'
        rw [← Except.ok.inj hold'] at happlies'
        exact absurd happlies' happlies
    have hsame : (perform cleaners (.transitionTerminal a) s).2 = s := by
      rw [perform, Effect.void_apply_snd]
      refine (merging_apply _ s).trans ?_
      change (Except.toOption _).join = none at hreq
      rw [hreq]
    rw [hsame, hold] at hnew
    rw [if_neg happlies, ← Option.some.inj hnew, hvalid.read]

/-- **A well-formed completion is received.** -/
theorem status_of_completion {cleaners : List String} {a : Completion} {old new : JobRecord}
    {status : JobStatus} (hold : s.jobs.get? a.jobId = some old) (hvalid : old.Valid status)
    (hwell : a.wellFormed = true)
    (hnew : (perform cleaners (.compareAndPublishCompletion a) s).2.jobs.get? a.jobId = some new) :
    new.status? = some (receive status (.completed, .running)) := by
  simp only [Completion.wellFormed, Bool.and_eq_true] at hwell
  obtain ⟨⟨⟨hnow, htime⟩, hkeeps⟩, hpublished⟩ := hwell
  obtain ⟨_, hnow⟩ := isOk_iff.mp hnow
  obtain ⟨x, hx⟩ := isOk_iff.mp htime
  rcases hp : a.published with error | _ | fields <;> rw [hp] at hpublished <;> try cases hpublished
  obtain ⟨hfields, hmessage⟩ := Bool.and_eq_true_iff.mp hpublished
  obtain ⟨_, hfields⟩ := isOk_iff.mp hfields
  have hends := @Completion.ends_payload a _ _ hfields ⟨x, hx⟩
  have hrecord : s.requireRecord a.jobId = .ok old :=
    requireRecord_eq_ok_iff.mpr ⟨hold, validateCommonRecord_eq_ok_iff.mpr ⟨status, hvalid⟩⟩
  have hpublish : a.publish old = .ok ⟨a.jobId, old, a.payload fields (a.now.getD a.clock),
      a.now.getD a.clock⟩ := by
    unfold Completion.publish
    exact bind_eq_ok_iff.mpr ⟨_, hp, bind_eq_ok_iff.mpr ⟨(), require_eq_ok_iff.mpr hkeeps,
      bind_eq_ok_iff.mpr ⟨fields, rfl, bind_eq_ok_iff.mpr
        ⟨(), hfields, bind_eq_ok_iff.mpr ⟨x, hx, rfl⟩⟩⟩⟩⟩
  -- a running job takes the completion, and an ended one keeps its record
  by_cases hrunning : status = .running
  · have hreq : s.requested (.compareAndPublishCompletion a) = some ⟨a.jobId, old,
        a.payload fields (a.now.getD a.clock), a.now.getD a.clock⟩ :=
      toOption_join_eq_some_iff.mpr (Completion.request_eq_some_iff.mpr
        ⟨hnow, hrecord, by rw [JobRecord.hasStatus_iff, hvalid.read, hrunning], hpublish⟩)
    obtain ⟨new', hmerged⟩ := hends.exists_merged hvalid hmessage s.heavyObjectTtlSeconds
      (a.now.getD a.clock)
    have hget := @get?_perform_of_requested _ cleaners _ _ _ hreq hmerged
    obtain rfl := Option.some.inj (hnew.symm.trans hget)
    rw [JobRecord.status?_of_merged hmerged, hends.status?_update, hrunning]
    rfl
  · have hreq : s.requested (.compareAndPublishCompletion a) = none := by
      rcases hreq : s.requested (.compareAndPublishCompletion a) with _ | m
      · rfl
      · obtain ⟨-, hold', hstatus, -⟩ :=
          Completion.request_eq_some_iff.mp (toOption_join_eq_some_iff.mp hreq)
        rw [hrecord] at hold'
        rw [← Except.ok.inj hold', JobRecord.hasStatus_iff, hvalid.read] at hstatus
        exact absurd (Option.some.inj hstatus) hrunning
    have hsame : (perform cleaners (.compareAndPublishCompletion a) s).2 = s := by
      rw [perform, Effect.void_apply_snd]
      refine (merging_apply _ s).trans ?_
      change (Except.toOption _).join = none at hreq
      rw [hreq]
    rw [hsame, hold] at hnew
    rw [← Option.some.inj hnew, hvalid.read]
    rcases status with _ | reason
    · exact absurd rfl hrunning
    · rfl

end JobStore

end Haute
