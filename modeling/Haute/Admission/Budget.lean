import Haute.Json.Errors
import Mathlib.Order.MinMax

/-!
# Execution budgets

What an execution may use is resolved once, before it starts, from the pipeline settings,
the environment and one observation of the host's available memory: `executionBudget` for
an execution admitted under its profile's budget, `profileLimitFromSample` for one that
takes what memory there is. `inFlightLimitBytes` is the bound all heavy executions share.

An environment variable is given by what Python's `int` makes of its text, and the policy
variable by its text, stripped and lower-cased. Memory observations are the values the host
probe returns, `none` where it cannot tell.
-/

namespace Haute

/-- `ExecutionProfile`. -/
inductive ExecutionProfile where
  | previewEager | lazySink | trainingPrep | optimiserSetup | optimiserSolve
  | exploreAnalysis | deployLive | deployBatch | nodeSnapshot
  deriving DecidableEq

namespace ExecutionProfile

/-- The profile's value. -/
def value : ExecutionProfile → String
  | previewEager => "preview_eager"
  | lazySink => "lazy_sink"
  | trainingPrep => "training_prep"
  | optimiserSetup => "optimiser_setup"
  | optimiserSolve => "optimiser_solve"
  | exploreAnalysis => "explore_analysis"
  | deployLive => "deploy_live"
  | deployBatch => "deploy_batch"
  | nodeSnapshot => "node_snapshot"

/-- `_IN_FLIGHT_PROFILE_SET`: the profiles whose work shares the in-flight budget. -/
def inFlight : ExecutionProfile → Bool
  | lazySink | trainingPrep | optimiserSetup | optimiserSolve | exploreAnalysis | deployBatch
  | nodeSnapshot => true
  | previewEager | deployLive => false

/-- `_ADAPTIVE_LOCAL_PROFILES`. -/
def adaptiveLocal : ExecutionProfile → Bool
  | deployLive => false
  | _ => true

end ExecutionProfile

/-- `_MIB`. -/
def mib : ℤ := 1024 * 1024

/-- `_GIB`. -/
def gib : ℤ := 1024 * mib

/-- `_DEFAULT_OS_RESERVE_BYTES`. -/
def defaultOsReserveBytes : ℤ := 2 * gib

/-- `_DEFAULT_MEMORY_LIMIT_BYTES`. -/
def defaultMemoryLimitBytes : ExecutionProfile → ℤ
  | .deployLive => 1024 * mib
  | _ => 4 * 1024 * mib

/-- `_AdaptiveMemoryPolicy`. -/
structure AdaptiveMemoryPolicy where
  /-- The share of the usable memory, in hundredths of a percent. -/
  availableRamBasisPoints : ℤ
  /-- No less than this. -/
  floorBytes : ℤ
  /-- No more than this. -/
  ceilingBytes : Option ℤ := none

/-- `_ADAPTIVE_MEMORY_POLICY`. -/
def adaptiveMemoryPolicy : ExecutionProfile → AdaptiveMemoryPolicy
  | .trainingPrep | .optimiserSetup => ⟨7500, 4 * 1024 * mib, none⟩
  | .optimiserSolve => ⟨10000, 4 * 1024 * mib, none⟩
  | .deployLive => ⟨2500, 1024 * mib, some (2 * 1024 * mib)⟩
  | .previewEager | .lazySink | .exploreAnalysis | .deployBatch | .nodeSnapshot =>
    ⟨7000, 4 * 1024 * mib, none⟩

/-- The part of a variable's name that names the profile in the memory-limit variables;
`none` for the previews, which only the settings size. -/
def memoryEnvStem : ExecutionProfile → Option String
  | .previewEager => none
  | .lazySink => some "HAUTE_SINK"
  | .trainingPrep => some "HAUTE_TRAINING"
  | .optimiserSetup => some "HAUTE_OPTIMISER"
  | .optimiserSolve => some "HAUTE_OPTIMISER_SOLVE"
  | .exploreAnalysis => some "HAUTE_EXPLORE"
  | .deployLive => some "HAUTE_DEPLOY_LIVE"
  | .deployBatch => some "HAUTE_DEPLOY_BATCH"
  | .nodeSnapshot => some "HAUTE_NODE_SNAPSHOT"

/-- The variables of one limit: the profile's, then the global ones, each in bytes and in MiB. -/
def envCandidates (stem limit : String) : List (String × ℤ) :=
  [(stem ++ limit ++ "_BYTES", 1), (stem ++ limit ++ "_MB", mib),
    ("HAUTE_EXECUTION" ++ limit ++ "_BYTES", 1), ("HAUTE_EXECUTION" ++ limit ++ "_MB", mib)]

/-- `_memory_env_candidates`: previews have no variables of their own. -/
def memoryEnvCandidates (profile : ExecutionProfile) : Except PyError (List (String × ℤ)) := do
  let stem ← expect (memoryEnvStem profile) (.key profile.value)
  return envCandidates stem "_MEMORY_LIMIT"

/-- `_process_rss_env_candidates`. -/
def processRssEnvCandidates (profile : ExecutionProfile) : List (String × ℤ) :=
  envCandidates ((memoryEnvStem profile).getD "HAUTE_PREVIEW") "_PROCESS_RSS_LIMIT"

/-- The process environment, as the modelled code reads it. -/
structure Environ where
  /-- The text of `HAUTE_EXECUTION_MEMORY_POLICY`, stripped and lower-cased. -/
  policy : Option String
  /-- A variable as `int` reads it: unset, not an integer, or an integer. -/
  int : String → Option (Option ℤ)

/-- `optional_int_env`. -/
def optionalIntEnv (env : Environ) (name : String) : Except PyError (Option ℤ) :=
  match env.int name with
  | none => .ok none
  | some none => .error (.runtime s!"{name} must be a positive integer")
  | some (some value) =>
    if value < 1 then .error (.runtime s!"{name} must be a positive integer") else .ok (some value)

/-- The first of the variables that is set, in bytes, with its name. -/
def firstSet (env : Environ) : List (String × ℤ) → Except PyError (Option (ℤ × String))
  | [] => .ok none
  | (key, multiplier) :: rest => do
    match ← optionalIntEnv env key with
    | none => firstSet env rest
    | some value => return some (value * multiplier, key)

/-- The settings the admission reads, in bytes. -/
structure PipelineSettings where
  /-- `preview_memory_bytes`. -/
  previewMemoryBytes : Option ℤ
  /-- `kept_free_bytes`. -/
  keptFreeBytes : Option ℤ

/-- `_ResolvedMemoryLimit`. -/
structure ResolvedMemoryLimit where
  memoryLimitBytes : ℤ
  configKey : String
  budgetPolicy : String
  availableRamBytes : Option ℤ := none
  osReserveBytes : Option ℤ := none

/-- `ExecutionBudget`. -/
structure ExecutionBudget where
  memoryLimitBytes : ℤ
  configKey : String
  processRssLimitBytes : Option ℤ
  processRssLimitConfigKey : Option String
  budgetPolicy : String
  availableRamBytes : Option ℤ
  osReserveBytes : Option ℤ

/-- `require_positive_available_ram`. -/
def requirePositiveAvailableRam : Option ℤ → Except PyError ℤ
  | none => .error (.runtime
      "physical RAM is unavailable; configure an explicit execution memory limit")
  | some available =>
    if available < 0 then .error (.runtime
      ("available memory observation is negative (memory probe defect); " ++
        "configure an explicit execution memory limit"))
    else if available = 0 then .error (.runtime
      ("available memory is exhausted (the host or cgroup memory limit is " ++
        "currently fully used); free memory and retry"))
    else .ok available

/-- `_memory_policy_name`. -/
def memoryPolicyName (env : Environ) : Except PyError String := do
  let policy := env.policy.getD "local_adaptive"
  require (policy ∈ ["local_adaptive", "fixed", "strict_server"]) (.runtime
    ("HAUTE_EXECUTION_MEMORY_POLICY must be one of " ++
      "'local_adaptive', 'fixed', or 'strict_server'"))
  return policy

/-- `_uses_fixed_default`. -/
def usesFixedDefault (env : Environ) (profile : ExecutionProfile) : Except PyError Bool := do
  let policy ← memoryPolicyName env
  return policy = "fixed" || policy = "strict_server" || !profile.adaptiveLocal

/-- `_fixed_default_memory_limit`. -/
def fixedDefaultMemoryLimit (profile : ExecutionProfile) : ResolvedMemoryLimit where
  memoryLimitBytes := defaultMemoryLimitBytes profile
  configKey := s!"default:{profile.value}"
  budgetPolicy := "fixed_default"

/-- `_adaptive_limit`: the profile's share of the usable memory, clamped. -/
def adaptiveLimit (profile : ExecutionProfile) (usable : ℤ) : ℤ :=
  let usable := max usable 1
  let policy := adaptiveMemoryPolicy profile
  let limit := max (usable * policy.availableRamBasisPoints / 10000) policy.floorBytes
  let limit := match policy.ceilingBytes with
    | none => limit
    | some ceiling => min limit ceiling
  min limit usable

/-- `_os_reserve_bytes`: the settings' figure exactly, else 2 GiB or half of what there is. -/
def osReserveBytes (available : ℤ) (settings : PipelineSettings) : ℤ :=
  settings.keptFreeBytes.getD (min defaultOsReserveBytes (max (available / 2) 1))

/-- The limit the settings (for previews) or the environment set outright. -/
def configuredMemoryLimit (env : Environ) (profile : ExecutionProfile)
    (settings : PipelineSettings) :
    Except PyError (Option ResolvedMemoryLimit) :=
  if profile = .previewEager then
    .ok (settings.previewMemoryBytes.map fun bytes =>
      { memoryLimitBytes := bytes, configKey := "preview_memory_gb",
        budgetPolicy := "pipeline_settings" })
  else do
    let found ← firstSet env (← memoryEnvCandidates profile)
    return found.map fun (bytes, key) =>
      { memoryLimitBytes := bytes, configKey := key, budgetPolicy := "explicit_env" }

/-- `_resolve_required_budget`; `observed` is the host's available memory. -/
def resolveRequiredBudget (env : Environ) (observed : Option ℤ) (profile : ExecutionProfile)
    (settings : PipelineSettings) : Except PyError ResolvedMemoryLimit := do
  match ← configuredMemoryLimit env profile settings with
  | some limit => return limit
  | none =>
    if ← usesFixedDefault env profile then return fixedDefaultMemoryLimit profile
    else
      let available ← requirePositiveAvailableRam observed
      let reserve := osReserveBytes available settings
      return {
        memoryLimitBytes := adaptiveLimit profile (available - reserve)
        configKey := s!"adaptive:{profile.value}"
        budgetPolicy := "adaptive_local"
        availableRamBytes := some available
        osReserveBytes := some reserve }

/-- `_resolve_optional_rss_limit`. -/
def resolveOptionalRssLimit (env : Environ) (profile : ExecutionProfile) :
    Except PyError (Option (ℤ × String)) :=
  firstSet env (processRssEnvCandidates profile)

/-- `execution_budget_for_profile`. -/
def executionBudgetForProfile (env : Environ) (observed : Option ℤ) (profile : ExecutionProfile)
    (settings : PipelineSettings) : Except PyError ExecutionBudget := do
  let memoryLimit ← resolveRequiredBudget env observed profile settings
  let rssLimit ← resolveOptionalRssLimit env profile
  return {
    memoryLimitBytes := memoryLimit.memoryLimitBytes
    configKey := memoryLimit.configKey
    processRssLimitBytes := rssLimit.map Prod.fst
    processRssLimitConfigKey := rssLimit.map Prod.snd
    budgetPolicy := memoryLimit.budgetPolicy
    availableRamBytes := memoryLimit.availableRamBytes
    osReserveBytes := memoryLimit.osReserveBytes }

/-- `_in_flight_limit_bytes`. -/
def inFlightLimitBytes (observed : Option ℤ) (budget : ExecutionBudget)
    (settings : PipelineSettings) :
    Except PyError ℤ := do
  let available ← requirePositiveAvailableRam (budget.availableRamBytes.or observed)
  let reserve := budget.osReserveBytes.getD (osReserveBytes available settings)
  return max (available - reserve) 1

/-- `_profile_limit_from_sample`. -/
def profileLimitFromSample (env : Environ) (profile : ExecutionProfile) (available usable : ℤ) :
    Except PyError ResolvedMemoryLimit := do
  match ← firstSet env (← memoryEnvCandidates profile) with
  | some (bytes, key) =>
    return { memoryLimitBytes := bytes, configKey := key, budgetPolicy := "explicit_env" }
  | none =>
    if ← usesFixedDefault env profile then return fixedDefaultMemoryLimit profile
    else return {
      memoryLimitBytes := adaptiveLimit profile usable
      configKey := s!"adaptive:{profile.value}"
      budgetPolicy := "adaptive_local"
      availableRamBytes := some available }

/-! ### What the figures are -/

theorem adaptiveLimit_pos (profile : ExecutionProfile) (usable : ℤ) :
    0 < adaptiveLimit profile usable := by
  have hmib : 0 < mib := by decide
  cases profile <;> simp only [adaptiveLimit, adaptiveMemoryPolicy] <;> omega

theorem defaultMemoryLimitBytes_pos (profile : ExecutionProfile) :
    0 < defaultMemoryLimitBytes profile := by
  cases profile <;> decide

theorem pos_of_firstSet {env : Environ} {candidates : List (String × ℤ)}
    (hpos : ∀ c ∈ candidates, 0 < c.2) {found : ℤ × String}
    (h : firstSet env candidates = .ok (some found)) : 0 < found.1 := by
  induction candidates with
  | nil => cases h
  | cons c rest ih =>
    obtain ⟨key, multiplier⟩ := c
    obtain ⟨value?, hvalue, h⟩ := bind_eq_ok_iff.mp h
    rcases value? with _ | value
    · exact ih (fun c hc => hpos c (List.mem_cons_of_mem _ hc)) h
    · cases h
      have hone : 1 ≤ value := by
        unfold optionalIntEnv at hvalue
        split at hvalue
        · cases hvalue
        · cases hvalue
        · split_ifs at hvalue
          cases hvalue
          omega
      exact Int.mul_pos (by omega) (hpos _ List.mem_cons_self)

theorem pos_of_mem_envCandidates {stem limit : String} :
    ∀ c ∈ envCandidates stem limit, 0 < c.2 := by
  have hmib : 0 < mib := by decide
  simp [envCandidates, hmib]

/-- The budget of an in-flight profile is a positive number of bytes. -/
theorem memoryLimitBytes_pos {env : Environ} {observed : Option ℤ} {profile : ExecutionProfile}
    {settings : PipelineSettings} {budget : ExecutionBudget} (hprofile : profile.inFlight = true)
    (h : executionBudgetForProfile env observed profile settings = .ok budget) :
    0 < budget.memoryLimitBytes := by
  obtain ⟨limit, hlimit, h⟩ := bind_eq_ok_iff.mp h
  obtain ⟨rssLimit, -, h⟩ := bind_eq_ok_iff.mp h
  cases h
  simp only
  have hpreview : profile ≠ .previewEager := by
    rintro rfl
    cases hprofile
  obtain ⟨explicit, hexplicit, hlimit⟩ := bind_eq_ok_iff.mp hlimit
  rcases explicit with _ | explicit
  · -- nothing sets the limit: a fixed default or the adaptive share
    obtain ⟨fixed, -, hlimit⟩ := bind_eq_ok_iff.mp hlimit
    rcases fixed with _ | _
    · obtain ⟨available, -, hlimit⟩ := bind_eq_ok_iff.mp hlimit
      cases hlimit
      exact adaptiveLimit_pos ..
    · cases hlimit
      exact defaultMemoryLimitBytes_pos profile
  · cases hlimit
    rw [configuredMemoryLimit, if_neg hpreview] at hexplicit
    obtain ⟨candidates, hcandidates, hexplicit⟩ := bind_eq_ok_iff.mp hexplicit
    obtain ⟨stem, -, hcandidates⟩ := bind_eq_ok_iff.mp hcandidates
    cases hcandidates
    obtain ⟨found, hfound, hexplicit⟩ := bind_eq_ok_iff.mp hexplicit
    rcases found with _ | found
    · cases hexplicit
    · cases hexplicit
      exact pos_of_firstSet pos_of_mem_envCandidates hfound

/-- The in-flight limit for one observation of the available memory. -/
def limitOf (available : ℤ) (settings : PipelineSettings) : ℤ :=
  max (available - osReserveBytes available settings) 1

theorem eq_of_requirePositiveAvailableRam {observed : Option ℤ} {available : ℤ}
    (h : requirePositiveAvailableRam observed = .ok available) : observed = some available := by
  unfold requirePositiveAvailableRam at h
  split at h
  · cases h
  · split_ifs at h
    cases h
    rfl

/-- A budget samples the memory or leaves that to the limit; under one observation the limit
is the same. -/
theorem inFlightLimitBytes_eq {env : Environ} {observed : Option ℤ} {profile : ExecutionProfile}
    {settings : PipelineSettings} {budget : ExecutionBudget} {limit : ℤ}
    (hbudget : executionBudgetForProfile env observed profile settings = .ok budget)
    (h : inFlightLimitBytes observed budget settings = .ok limit) :
    ∃ available, observed = some available ∧ limit = limitOf available settings := by
  -- the budget carries both figures of its own sample, or neither
  have hsample : (budget.availableRamBytes = none ∧ budget.osReserveBytes = none) ∨
      ∃ available, observed = some available ∧ budget.availableRamBytes = some available ∧
        budget.osReserveBytes = some (osReserveBytes available settings) := by
    obtain ⟨memoryLimit, hlimit, hbudget⟩ := bind_eq_ok_iff.mp hbudget
    obtain ⟨rssLimit, -, hbudget⟩ := bind_eq_ok_iff.mp hbudget
    cases hbudget
    obtain ⟨explicit, hexplicit, hlimit⟩ := bind_eq_ok_iff.mp hlimit
    rcases explicit with _ | explicit
    · obtain ⟨fixed, -, hlimit⟩ := bind_eq_ok_iff.mp hlimit
      rcases fixed with _ | _
      · obtain ⟨available, havailable, hlimit⟩ := bind_eq_ok_iff.mp hlimit
        cases hlimit
        exact .inr ⟨available, eq_of_requirePositiveAvailableRam havailable, rfl, rfl⟩
      · cases hlimit
        exact .inl ⟨rfl, rfl⟩
    · cases hlimit
      left
      unfold configuredMemoryLimit at hexplicit
      split_ifs at hexplicit
      · obtain ⟨bytes, -, rfl⟩ := Option.map_eq_some_iff.mp (Except.ok.inj hexplicit)
        exact ⟨rfl, rfl⟩
      · obtain ⟨candidates, -, hexplicit⟩ := bind_eq_ok_iff.mp hexplicit
        obtain ⟨found, -, hexplicit⟩ := bind_eq_ok_iff.mp hexplicit
        obtain ⟨bytes, -, rfl⟩ := Option.map_eq_some_iff.mp (Except.ok.inj hexplicit)
        exact ⟨rfl, rfl⟩
  obtain ⟨available, havailable, h⟩ := bind_eq_ok_iff.mp h
  cases h
  have hav := eq_of_requirePositiveAvailableRam havailable
  rcases hsample with ⟨hram, hreserve⟩ | ⟨sampled, hobserved, hram, hreserve⟩
  · rw [hram, Option.none_or] at hav
    exact ⟨available, hav, by rw [hreserve]; rfl⟩
  · rw [hram, Option.some_or] at hav
    obtain rfl := Option.some.inj hav
    exact ⟨sampled, hobserved, by rw [hreserve]; rfl⟩

end Haute
