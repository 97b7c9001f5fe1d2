import Haute.Json.Float
import Haute.Data.OrdDict

/-!
# Job records

The record a job store keeps for a job: a dict whose lifecycle fields (`status`,
`terminal_reason`, `created_at`, `ended_at`, `completed_at`) only the store's own
transitions write, and whose other fields are the payload of the route that made the job.
Six of the payload fields are heavy; a value there may own a process, a `HeavyResource`,
which is known here by its identity.

`validateCommonRecord` is the check every stored record passes. `JobRecord.Valid` says what
it amounts to.
-/

namespace Haute

/-- `TerminalReason`. -/
inductive TerminalReason where
  | completed
  | superseded
  | timedOut
  | cancelled
  | memoryLimited
  | contractError
  | error
  deriving DecidableEq

/-- The string a reason is written as. -/
def TerminalReason.name : TerminalReason → String
  | .completed => "completed"
  | .superseded => "superseded"
  | .timedOut => "timed_out"
  | .cancelled => "cancelled"
  | .memoryLimited => "memory_limited"
  | .contractError => "contract_error"
  | .error => "error"

/-- `TERMINAL_REASONS`. -/
def terminalReasons : List TerminalReason :=
  [.completed, .superseded, .timedOut, .cancelled, .memoryLimited, .contractError, .error]

/-- `_TERMINAL_REASON_PRECEDENCE`: a completed job is in no such order. -/
def TerminalReason.precedence : TerminalReason → Option ℕ
  | .error => some 10
  | .contractError => some 20
  | .memoryLimited => some 30
  | .cancelled => some 40
  | .timedOut => some 50
  | .superseded => some 60
  | .completed => none

/-- `JobStatus`. -/
inductive JobStatus where
  | running
  | ended (reason : TerminalReason)
  deriving DecidableEq

/-- The string a status is written as. -/
def JobStatus.name : JobStatus → String
  | .running => "running"
  | .ended reason => reason.name

/-- `JOB_STATUSES`. -/
def jobStatuses : List JobStatus := .running :: terminalReasons.map .ended

/-- The status written as a string, if it is one. -/
def JobStatus.ofName (s : String) : Option JobStatus :=
  jobStatuses.find? fun status => status.name = s

theorem JobStatus.mem_jobStatuses (status : JobStatus) : status ∈ jobStatuses := by
  rcases status with _ | reason
  · exact List.mem_cons_self
  · rcases reason <;> decide

theorem JobStatus.name_injective : Function.Injective JobStatus.name := by
  have h : ∀ x ∈ jobStatuses, ∀ y ∈ jobStatuses, x.name = y.name → x = y := by decide
  exact fun x y hxy => h x x.mem_jobStatuses y y.mem_jobStatuses hxy

theorem JobStatus.ofName_eq_some_iff {s : String} {status : JobStatus} :
    JobStatus.ofName s = some status ↔ s = status.name := by
  constructor
  · intro h
    have := List.find?_some h
    exact (of_decide_eq_true this).symm
  · rintro rfl
    rcases h : JobStatus.ofName status.name with _ | other
    · have := List.find?_eq_none.mp h status status.mem_jobStatuses
      simp at this
    · have := List.find?_some h
      rw [JobStatus.name_injective (of_decide_eq_true this)]

/-- The file or directory of a job, as `artifact_handles` describes it to its cleaner. -/
structure ArtifactHandle where
  kind : String
  path : Option String
  directory : Option String
  deriving DecidableEq

/-- The value of a record's field. -/
inductive JobValue where
  | plain (v : Value)
  /-- A `HeavyResource`, by its identity. -/
  | resource (id : ℕ)
  /-- A dict of artifact handles. -/
  | handles (hs : OrdDict String ArtifactHandle)
  deriving DecidableEq

/-- `type(value).__name__`. -/
def JobValue.typeName : JobValue → String
  | .plain v => v.typeName
  | .resource _ => "HeavyResource"
  | .handles _ => "dict"

/-- A string field. -/
@[match_pattern] abbrev JobValue.str (s : String) : JobValue := .plain (.str s)

/-- The fields of a job. -/
abbrev JobRecord := OrdDict String JobValue

/-- `_HEAVY_OBJECT_KEYS`. -/
def heavyObjectKeys : List String :=
  ["solver", "solve_result", "quote_grid", "ratebook_factor_contexts", "solver_session"]

/-- `_HEAVY_OBJECT_EXPIRES_AT_KEY`. -/
def heavyObjectExpiresAtKey : String := "heavy_objects_expires_at"

/-- `_LIFECYCLE_KEYS`, sorted. -/
def lifecycleKeys : List String :=
  ["completed_at", "created_at", "ended_at", "status", "terminal_reason"]

/-- The fields a running job may not have, sorted. -/
def terminalKeys : List String := ["completed_at", "ended_at", "terminal_reason"]

/-- `repr` of a list of strings. -/
def reprList (xs : List String) : String := "[" ++ ", ".intercalate (xs.map pyRepr) ++ "]"

/-! ### Numbers -/

namespace PyFloat

/-- The number a float stands for, if it is one. -/
def num : PyFloat → Option (WithBot (WithTop ℚ))
  | .finite q => some (q : WithTop ℚ)
  | .negZero => some ((0 : ℚ) : WithTop ℚ)
  | .inf true => some ⊥
  | .inf false => some (⊤ : WithTop ℚ)
  | .nan _ => none

/-- `x < y`. -/
def lt (x y : PyFloat) : Bool :=
  match x.num, y.num with
  | some a, some b => decide (a < b)
  | _, _ => false

/-- `x <= y`. -/
def le (x y : PyFloat) : Bool :=
  match x.num, y.num with
  | some a, some b => decide (a ≤ b)
  | _, _ => false

/-- `x + n` for a whole number: the sum is taken exactly. -/
def addInt (x : PyFloat) (n : ℤ) : PyFloat :=
  match x with
  | .finite q => .finite (q + n)
  | .negZero => .finite n
  | x => x

/-- `min(x, y)`. -/
def min (x y : PyFloat) : PyFloat := if y.lt x then y else x

end PyFloat

/-- `float(value)`, where the value is a number. -/
def floatOf : JobValue → Except PyError PyFloat
  | .plain (.bool b) => .ok (.finite (if b then 1 else 0))
  | .plain (.int n) => floatOfInt n
  | .plain (.float x) => .ok x
  | _ => .error (.value "could not convert to float")

/-- `_validate_timestamp`. -/
def validateTimestamp (name : String) (value : JobValue) : Except PyError PyFloat :=
  let invalid : PyError := .value (name ++ " must be a finite, non-negative numeric value")
  match value with
  | .plain (.int n) => do
    -- `float` raises for what is too large for one
    let x ← floatOfInt n
    if n < 0 then .error invalid else .ok x
  | .plain (.float (.finite q)) => if q < 0 then .error invalid else .ok (.finite q)
  | .plain (.float .negZero) => .ok .negZero
  | _ => .error invalid

namespace JobRecord

/-- The job's status, if it is one. -/
def status? (job : JobRecord) : Option JobStatus :=
  match job.get? "status" with
  | some (.plain (.str s)) => JobStatus.ofName s
  | _ => none

/-- `job.get("status") == status`. -/
def hasStatus (job : JobRecord) (status : JobStatus) : Bool :=
  decide (job.get? "status" = some (.str status.name))

/-- `any(key in job for key in _HEAVY_OBJECT_KEYS)`. -/
def hasHeavyObjects (job : JobRecord) : Bool :=
  heavyObjectKeys.any fun key => decide (key ∈ job.keys)

/-- `{**old, **fields}`. -/
def update (old fields : JobRecord) : JobRecord := old.mergeWith (fun _ v => v) fields

/-- The record without some of its fields. -/
def without (job : JobRecord) (keys : List String) : JobRecord :=
  job.filterKeys fun key => key ∉ keys

theorem get?_update (old fields : JobRecord) (key : String) :
    (old.update fields).get? key = (fields.get? key).or (old.get? key) := by
  rw [update, OrdDict.get?_mergeWith]
  rcases fields.get? key with _ | v <;> rfl

theorem get?_without (job : JobRecord) (keys : List String) (key : String) :
    (job.without keys).get? key = if key ∈ keys then none else job.get? key := by
  rw [without, OrdDict.get?_filterKeys]
  by_cases h : key ∈ keys <;> simp [h]

theorem hasStatus_iff {job : JobRecord} {status : JobStatus} :
    job.hasStatus status = true ↔ job.status? = some status := by
  unfold hasStatus status?
  constructor
  · intro h
    rw [of_decide_eq_true h]
    exact JobStatus.ofName_eq_some_iff.mpr rfl
  · intro h
    refine decide_eq_true ?_
    split at h
    · rename_i s hs
      rw [hs, JobStatus.ofName_eq_some_iff.mp h]
    · cases h

end JobRecord

/-- The text of a status for an error: a stored one is a string or missing. -/
def reprStatus : Option JobValue → String
  | some (.plain (.str s)) => pyRepr s
  | _ => "None"

/-- `_validate_common_record`. -/
def validateCommonRecord (job : JobRecord) : Except PyError Unit := do
  let status ← expect job.status?
    (.value ("Job record has invalid status: " ++ reprStatus (job.get? "status")))
  let createdAt ← expect (job.get? "created_at") (.value "Job record is missing created_at")
  let _ ← validateTimestamp "created_at" createdAt
  require (match job.get? "message" with
    | none | some (.plain (.str _)) => true
    | some _ => false) (.value "Job record message must be a string")
  match status with
  | .running =>
    require (terminalKeys.filter (· ∈ job.keys) = [])
      (.value ("Running job may not contain terminal metadata: " ++
        reprList (terminalKeys.filter (· ∈ job.keys))))
  | .ended reason => do
    require (job.get? "terminal_reason" = some (.str reason.name))
      (.value "Terminal job reason must match its status")
    let endedAt ← expect (job.get? "ended_at") (.value "Terminal job is missing ended_at")
    let _ ← validateTimestamp "ended_at" endedAt
    require (reason ≠ .completed ∨ "completed_at" ∈ job.keys)
      (.value "Completed job is missing completed_at")
    match job.get? "completed_at" with
    | none => .ok ()
    | some completedAt => do
      let _ ← validateTimestamp "completed_at" completedAt
      .ok ()

/-- A timestamp that passes its check. -/
def IsTimestamp (name : String) (value : JobValue) : Prop :=
  ∃ x, validateTimestamp name value = .ok x

/-- What every stored record satisfies. -/
structure JobRecord.Valid (job : JobRecord) (status : JobStatus) : Prop where
  read : job.status? = some status
  createdAt : ∃ v, job.get? "created_at" = some v ∧ IsTimestamp "created_at" v
  message : ∀ v, job.get? "message" = some v → ∃ s, v = .str s
  running : status = .running → ∀ key ∈ terminalKeys, job.get? key = none
  reason : ∀ reason, status = .ended reason → job.get? "terminal_reason" = some (.str reason.name)
  endedAt : ∀ reason, status = .ended reason →
    ∃ v, job.get? "ended_at" = some v ∧ IsTimestamp "ended_at" v
  completedAt : ∀ v, job.get? "completed_at" = some v → IsTimestamp "completed_at" v
  completed : status = .ended .completed → ∃ v, job.get? "completed_at" = some v

/-- A record is valid by its lifecycle fields and its message. -/
theorem JobRecord.Valid.congr {job other : JobRecord} {status : JobStatus} (h : job.Valid status)
    (hsame : ∀ key ∈ "message" :: lifecycleKeys, other.get? key = job.get? key) :
    other.Valid status where
  read := by
    unfold JobRecord.status?
    rw [hsame "status" (by decide)]
    exact h.read
  createdAt := by
    rw [hsame "created_at" (by decide)]
    exact h.createdAt
  message v hv := h.message v (hsame "message" (by decide) ▸ hv)
  running hs key hkey := by
    rw [hsame key]
    · exact h.running hs key hkey
    · have : ∀ key ∈ terminalKeys, key ∈ "message" :: lifecycleKeys := by decide
      exact this key hkey
  reason r hr := by
    rw [hsame "terminal_reason" (by decide)]
    exact h.reason r hr
  endedAt r hr := by
    rw [hsame "ended_at" (by decide)]
    exact h.endedAt r hr
  completedAt v hv := h.completedAt v (hsame "completed_at" (by decide) ▸ hv)
  completed hs := by
    rw [hsame "completed_at" (by decide)]
    exact h.completed hs

private theorem message_iff {o : Option JobValue} : (match o with
    | none | some (.plain (.str _)) => true
    | some _ => false) = true ↔ ∀ v, o = some v → ∃ s, v = .str s := by
  constructor
  · intro h v hv
    subst hv
    split at h <;> simp_all
  · intro h
    split
    · rfl
    · rfl
    · rename_i v hne
      obtain ⟨s, rfl⟩ := h v rfl
      exact absurd rfl (hne s)

/-- **What the check amounts to.** -/
theorem validateCommonRecord_eq_ok_iff {job : JobRecord} :
    validateCommonRecord job = .ok () ↔ ∃ status, job.Valid status := by
  constructor
  · intro h
    obtain ⟨status, hstatus, h⟩ := bind_eq_ok_iff.mp h
    obtain ⟨createdAt, hcreated, h⟩ := bind_eq_ok_iff.mp h
    obtain ⟨x, hx, h⟩ := bind_eq_ok_iff.mp h
    obtain ⟨_, hmessage, h⟩ := bind_eq_ok_iff.mp h
    rw [expect_eq_ok_iff] at hstatus hcreated
    have hmessage := message_iff.mp (require_eq_ok_iff.mp hmessage)
    refine ⟨status, ?_⟩
    -- a running record has no terminal field, an ended one has its reason and its time
    rcases status with _ | reason
    · have hnone : ∀ key ∈ terminalKeys, job.get? key = none := by
        intro key hkey
        have := List.filter_eq_nil_iff.mp (of_decide_eq_true (require_eq_ok_iff.mp h)) key hkey
        exact OrdDict.get?_eq_none_iff.mpr (by simpa using this)
      exact {
        read := hstatus
        createdAt := ⟨createdAt, hcreated, x, hx⟩
        message := hmessage
        running := fun _ => hnone
        reason := fun _ h => by cases h
        endedAt := fun _ h => by cases h
        completedAt := fun v hv => by rw [hnone "completed_at" (by decide)] at hv; cases hv
        completed := fun h => by cases h }
    · obtain ⟨_, hreason, h⟩ := bind_eq_ok_iff.mp h
      obtain ⟨endedAt, hended, h⟩ := bind_eq_ok_iff.mp h
      obtain ⟨y, hy, h⟩ := bind_eq_ok_iff.mp h
      obtain ⟨_, hcompleted, h⟩ := bind_eq_ok_iff.mp h
      rw [expect_eq_ok_iff] at hended
      have hcompleted := of_decide_eq_true (require_eq_ok_iff.mp hcompleted)
      exact {
        read := hstatus
        createdAt := ⟨createdAt, hcreated, x, hx⟩
        message := hmessage
        running := fun h => by cases h
        reason := fun _ h => by
          cases h
          exact of_decide_eq_true (require_eq_ok_iff.mp hreason)
        endedAt := fun _ _ => ⟨endedAt, hended, y, hy⟩
        completedAt := fun v hv => by
          rw [hv] at h
          obtain ⟨z, hz, -⟩ := bind_eq_ok_iff.mp h
          exact ⟨z, hz⟩
        completed := fun h => by
          cases h
          exact OrdDict.mem_keys_iff.mp (hcompleted.resolve_left (by simp)) }
  · rintro ⟨status, h⟩
    obtain ⟨createdAt, hcreated, x, hx⟩ := h.createdAt
    refine bind_eq_ok_iff.mpr ⟨status, expect_eq_ok_iff.mpr h.read, ?_⟩
    refine bind_eq_ok_iff.mpr ⟨createdAt, expect_eq_ok_iff.mpr hcreated, ?_⟩
    refine bind_eq_ok_iff.mpr ⟨x, hx, ?_⟩
    refine bind_eq_ok_iff.mpr ⟨(), require_eq_ok_iff.mpr (message_iff.mpr h.message), ?_⟩
    rcases status with _ | reason
    · refine require_eq_ok_iff.mpr (decide_eq_true (List.filter_eq_nil_iff.mpr fun key hkey => ?_))
      simpa using OrdDict.get?_eq_none_iff.mp (h.running rfl key hkey)
    · obtain ⟨endedAt, hended, y, hy⟩ := h.endedAt reason rfl
      refine bind_eq_ok_iff.mpr
        ⟨(), require_eq_ok_iff.mpr (decide_eq_true (h.reason reason rfl)), ?_⟩
      refine bind_eq_ok_iff.mpr ⟨endedAt, expect_eq_ok_iff.mpr hended, ?_⟩
      refine bind_eq_ok_iff.mpr ⟨y, hy, ?_⟩
      refine bind_eq_ok_iff.mpr ⟨(), require_eq_ok_iff.mpr (decide_eq_true ?_), ?_⟩
      · rcases eq_or_ne reason .completed with rfl | hne
        · exact .inr (OrdDict.mem_keys_iff.mpr (h.completed rfl))
        · exact .inl hne
      · rcases hc : job.get? "completed_at" with _ | v
        · rfl
        · obtain ⟨z, hz⟩ := h.completedAt v hc
          exact bind_eq_ok_iff.mpr ⟨z, hz, rfl⟩

end Haute
