import Haute.Banding.Partition

/-!
# The rule that claims a row

`applyBanding` assigns a label to each cell of a column, or the default. `bandingRuleClaimExpr`
says which rule of the factor claims the cell. Both are compiled from the same rows, the one to
labels and the other to positions; `claim_iff_applied` says that they agree on every cell.

What Polars makes of a cell (its text, its comparison with a threshold, its date) is in `Cells`;
nothing is assumed of it.
-/

namespace Haute.Banding

open Haute.Data

variable {ν δ τ κ : Type}

/-- What Polars answers about the cells of a column. -/
structure Cells (κ ν δ τ : Type) where
  castText : κ → Option String
  nonFinite : κ → Bool
  missing : κ
  wallClock : κ → κ
  dateOf : κ → κ
  compare : Operator → κ → Boundary ν δ τ → Option Bool

/-- The type of a column, as far as banding asks. -/
inductive Dtype where
  | null
  | floating
  | numeric
  | date
  | datetime (timeZone : Option String)
  | other
  deriving DecidableEq

/-- What a cell is assigned. -/
inductive Assigned where
  | label (text : String)
  | default
  deriving DecidableEq

/-- The column that breakpoints of a kind are compared against, cell by cell. -/
def bandingComparisonExpr (pl : Cells κ ν δ τ) (dtype : Option Dtype) (kind : BoundaryKind)
    (outputColumn : String) : Except BandingError (κ → κ) :=
  match dtype, kind with
  | some .null, _ => .ok id
  | none, .number | some .numeric, .number => .ok id
  | some .floating, .number => .ok fun cell => if pl.nonFinite cell then pl.missing else cell
  | some (.datetime timeZone), .date =>
    .ok fun cell => pl.dateOf (if timeZone.isSome then pl.wallClock cell else cell)
  | some (.datetime timeZone), .datetime =>
    .ok fun cell => if timeZone.isSome then pl.wallClock cell else cell
  | some .date, .date => .ok id
  | _, kind => .error (.wrongColumn outputColumn kind)

/-- Whether a rule's field is missing: null or an empty text. -/
def isMissing (value : Value) : Bool := decide (value = .none ∨ value = .str "")

/-- Each claimed value with the position and the assignment of its rule, the last that has it. -/
def bandingCategoricalClaims (py : Readers ν δ τ) (rules : List Row) :
    List (String × (ℕ × String)) :=
  rules.zipIdx.foldl (fun claims e =>
    let value := (Assoc.get? e.1 "value").getD (.str "")
    let assignment := (Assoc.get? e.1 "assignment").getD (.str "")
    if isMissing value || isMissing assignment then claims
    else Assoc.set claims (py.str value) (e.2, py.str assignment)) []

/-- What the first branch that is taken gives. -/
def whenThen {γ : Type} (branches : List ((κ → Option Bool) × γ)) (cell : κ) : Option γ :=
  (branches.find? fun b => b.1 cell == some true).map (·.2)

/-- The branches of the rules that can be applied, each with what `out` makes of the rule. -/
def branchesOf {β γ : Type} (compare : Operator → κ → β → Option Bool) (column : κ → κ)
    (rules : List (IntervalRule β × ℕ)) (out : IntervalRule β × ℕ → γ) :
    List ((κ → Option Bool) × γ) :=
  rules.filterMap fun rule =>
    (bandingCondition compare rule.1).bind fun condition =>
      if rule.1.assignment = "" then none else some (condition ∘ column, out rule)

/-- Whether the type of banding is one there is. -/
def requireBandingType (bandingType : String) : Except BandingError Unit :=
  if bandingType = "categorical" ∨ bandingType = "breakpoints" then .ok ()
  else .error (.unsupportedType bandingType)

/-- The label that a rule assigns. -/
def labelOf (py : Readers ν δ τ) (mode : String) (row : Row) : String :=
  if mode = "categorical" then py.str ((Assoc.get? row "assignment").getD (.str ""))
  else textOf py row "label"

/-! ### The two compilations of one preparation -/

/-- Whether a rule can be applied. -/
def usable {β : Type} (compare : Operator → κ → β → Option Bool) (rule : IntervalRule β) : Bool :=
  (bandingCondition compare rule).isSome && decide (rule.assignment ≠ "")

/-- Whether a rule can be applied and holds of a cell. -/
def takes {β : Type} (compare : Operator → κ → β → Option Bool) (cell : κ)
    (rule : IntervalRule β) : Bool :=
  decide (rule.assignment ≠ "") &&
    (bandingCondition compare rule).any fun condition => condition cell == some true

section Branches

variable {β γ : Type} {compare : Operator → κ → β → Option Bool} {column : κ → κ}

theorem branchesOf_cons_of_usable {rule : IntervalRule β × ℕ} {rules : List (IntervalRule β × ℕ)}
    {out : IntervalRule β × ℕ → γ} {condition : κ → Option Bool}
    (hc : bandingCondition compare rule.1 = some condition) (ha : rule.1.assignment ≠ "") :
    branchesOf compare column (rule :: rules) out =
      (condition ∘ column, out rule) :: branchesOf compare column rules out := by
  unfold branchesOf
  exact List.filterMap_cons_some (by rw [hc, Option.bind_some, if_neg ha])

theorem branchesOf_cons_of_not_usable {rule : IntervalRule β × ℕ}
    {rules : List (IntervalRule β × ℕ)} {out : IntervalRule β × ℕ → γ}
    (h : usable compare rule.1 = false) :
    branchesOf compare column (rule :: rules) out = branchesOf compare column rules out := by
  unfold branchesOf
  refine List.filterMap_cons_none ?_
  cases hc : bandingCondition compare rule.1 with
  | none => rfl
  | some condition =>
    rw [Option.bind_some, if_pos]
    simpa [usable, hc] using h

/-- Whether there is a branch does not depend on what the branches give. -/
theorem isEmpty_branchesOf (rules : List (IntervalRule β × ℕ)) (out : IntervalRule β × ℕ → γ) :
    (branchesOf compare column rules out).isEmpty = !rules.any fun rule =>
      usable compare rule.1 := by
  induction rules with
  | nil => rfl
  | cons rule rules ih =>
    cases hu : usable compare rule.1 with
    | false => rw [branchesOf_cons_of_not_usable hu, ih, List.any_cons, hu, Bool.false_or]
    | true =>
      have h := hu
      simp only [usable, Bool.and_eq_true, Option.isSome_iff_exists, decide_eq_true_eq] at h
      obtain ⟨⟨condition, hc⟩, ha⟩ := h
      rw [branchesOf_cons_of_usable hc ha, List.any_cons, hu, Bool.true_or]
      rfl

/-- A chain gives what `out` makes of the first rule that takes the cell. -/
theorem whenThen_branchesOf (rules : List (IntervalRule β × ℕ)) (out : IntervalRule β × ℕ → γ)
    (cell : κ) : whenThen (branchesOf compare column rules out) cell =
      (rules.find? fun rule => takes compare (column cell) rule.1).map out := by
  induction rules with
  | nil => rfl
  | cons rule rules ih =>
    cases hu : usable compare rule.1 with
    | false =>
      have htakes : takes compare (column cell) rule.1 = false := by
        cases hc : bandingCondition compare rule.1 with
        | none => simp [takes, hc]
        | some condition =>
          have ha : rule.1.assignment = "" := by simpa [usable, hc] using hu
          simp [takes, ha]
      rw [branchesOf_cons_of_not_usable hu, ih,
        List.find?_cons_of_neg (by rw [htakes]; exact Bool.false_ne_true)]
    | true =>
      simp only [usable, Bool.and_eq_true, Option.isSome_iff_exists, decide_eq_true_eq] at hu
      obtain ⟨⟨condition, hc⟩, ha⟩ := hu
      have htakes : takes compare (column cell) rule.1 =
          (condition (column cell) == some true) := by
        simp [takes, hc, ha]
      rw [branchesOf_cons_of_usable hc ha]
      cases hcond : condition (column cell) == some true with
      | true =>
        rw [List.find?_cons_of_pos (by rw [htakes, hcond])]
        unfold whenThen
        rw [List.find?_cons_of_pos (by simpa using hcond)]
        rfl
      | false =>
        rw [List.find?_cons_of_neg (by rw [htakes, hcond]; exact Bool.false_ne_true), ← ih]
        unfold whenThen
        rw [List.find?_cons_of_neg (by simpa using hcond)]

end Branches

/-- A claimed value is that of the rule that claims it, with that rule's assignment. -/
theorem of_get?_categoricalClaims {py : Readers ν δ τ} {rules : List Row} {text label : String}
    {i : ℕ} (h : Assoc.get? (bandingCategoricalClaims py rules) text = some (i, label)) :
    ∃ row, rules[i]? = some row ∧ label = labelOf py "categorical" row ∧
      text = py.str ((Assoc.get? row "value").getD (.str "")) := by
  have hfold : ∀ (entries : List (Row × ℕ)) (claims : List (String × (ℕ × String))),
      (∀ e ∈ entries, rules[e.2]? = some e.1) →
      (∀ t j l, Assoc.get? claims t = some (j, l) → ∃ row, rules[j]? = some row ∧
        l = labelOf py "categorical" row ∧ t = py.str ((Assoc.get? row "value").getD (.str ""))) →
      ∀ t j l, Assoc.get? (entries.foldl (fun claims e =>
        let value := (Assoc.get? e.1 "value").getD (.str "")
        let assignment := (Assoc.get? e.1 "assignment").getD (.str "")
        if isMissing value || isMissing assignment then claims
        else Assoc.set claims (py.str value) (e.2, py.str assignment)) claims) t = some (j, l) →
        ∃ row, rules[j]? = some row ∧ l = labelOf py "categorical" row ∧
          t = py.str ((Assoc.get? row "value").getD (.str "")) := by
    intro entries
    induction entries with
    | nil => exact fun claims _ hclaims => hclaims
    | cons e entries ih =>
      intro claims hentries hclaims
      rw [List.foldl_cons]
      refine ih _ (fun e' he' => hentries e' (List.mem_cons_of_mem e he')) ?_
      intro t j l htjl
      dsimp only at htjl
      split_ifs at htjl with hmissing
      · exact hclaims t j l htjl
      · rw [Assoc.get?_set] at htjl
        split_ifs at htjl with ht
        · simp only [Option.some.injEq, Prod.mk.injEq] at htjl
          obtain ⟨rfl, rfl⟩ := htjl
          exact ⟨e.1, hentries e List.mem_cons_self, rfl, ht⟩
        · exact hclaims t j l htjl
  refine hfold rules.zipIdx [] (fun e he => List.mem_zipIdx_iff_getElem?.mp he) ?_ text i label h
  intro t j l ht
  cases ht

variable [LinearOrder ν] [LinearOrder δ] [LinearOrder τ]

/-- Per cell, the position in the rules of the one that claims it. -/
def bandingRuleClaimExpr (pl : Cells κ ν δ τ) (py : Readers ν δ τ) (dtype : Option Dtype)
    (mode : String) (rules : RulesConfig) (rightClosed : Bool) (outputColumn : String) :
    Except BandingError (κ → Option ℕ) := do
  requireBandingType mode
  let prepared ← normaliseBandingRules mode rules
  if prepared = [] then .ok fun _ => none
  else if mode = "categorical" then
    let claims := bandingCategoricalClaims py prepared
    if claims = [] then .error (.noUsableRule outputColumn mode)
    else .ok fun cell => (pl.castText cell).bind fun text =>
      Assoc.get? (claims.map fun e => (e.1, e.2.1)) text
  else do
    let kind ← breakpointsKind py prepared
    let column ← bandingComparisonExpr pl dtype kind outputColumn
    let intervals ← breakpointsToRulesWithSources py rightClosed (.rows prepared)
    let chain := branchesOf pl.compare column intervals (·.2)
    if chain.isEmpty then .error (.noUsableRule outputColumn mode) else .ok (whenThen chain)

/-- What each cell is assigned; without rules the frame is left as it is. -/
def applyBanding (pl : Cells κ ν δ τ) (py : Readers ν δ τ) (dtype : Option Dtype)
    (outputColumn bandingType : String) (rules : RulesConfig) (rightClosed : Bool) :
    Except BandingError (Option (κ → Assigned)) := do
  requireBandingType bandingType
  let rows ← normaliseBandingRules bandingType rules
  if bandingType = "categorical" then
    let remap := (bandingCategoricalClaims py rows).map fun e => (e.1, e.2.2)
    if remap = [] then
      if rows = [] then .ok none else .error (.noUsableRule outputColumn bandingType)
    else .ok (some fun cell => ((pl.castText cell).bind (Assoc.get? remap)).elim .default .label)
  else do
    let kind ← breakpointsKind py rows
    let intervals ← breakpointsToRulesWithSources py rightClosed (.rows rows)
    let column ← bandingComparisonExpr pl dtype kind outputColumn
    let chain := branchesOf pl.compare column intervals (·.1.assignment)
    if chain.isEmpty then
      if rows = [] then .ok none else .error (.noUsableRule outputColumn bandingType)
    else .ok (some fun cell => (whenThen chain cell).elim .default .label)

/-- The rule that a chain takes is that of a breakpoint, with its label. -/
theorem label_of_mem_intervals {py : Readers ν δ τ} {rightClosed : Bool} {rows : List Row}
    {intervals : List (IntervalRule (Boundary ν δ τ) × ℕ)}
    (h : breakpointsToRulesWithSources py rightClosed (.rows rows) = .ok intervals)
    {rule : IntervalRule (Boundary ν δ τ) × ℕ} (hrule : rule ∈ intervals) :
    ∃ row, rows[rule.2]? = some row ∧ rule.1.assignment = textOf py row "label" := by
  obtain ⟨rows', hrows, hcases⟩ := breakpointsToRules_eq_ok h
  obtain rfl : rows = rows' := Except.ok.inj hrows
  rcases hcases with ⟨-, rfl⟩ | ⟨kind, bounded, -, hbounded, -, -, -, rfl⟩
  · exact absurd hrule List.not_mem_nil
  · obtain ⟨k, hk⟩ := List.getElem?_of_mem hrule
    obtain ⟨-, -, row, hrow, hlabel, -⟩ :=
      rule_spec hbounded (fun e => List.mem_insertionSort _) hk
    exact ⟨row, hrow, hlabel⟩

/-- The rule at `i` holds of the cell: its value is the cell's text, or its interval has what the
cell is compared as. -/
def Fires (pl : Cells κ ν δ τ) (py : Readers ν δ τ) (dtype : Option Dtype) (mode : String)
    (rightClosed : Bool) (outputColumn : String) (prepared : List Row) (cell : κ) (i : ℕ) : Prop :=
  if mode = "categorical" then
    ∃ row, prepared[i]? = some row ∧
      pl.castText cell = some (py.str ((Assoc.get? row "value").getD (.str "")))
  else
    ∃ kind column intervals rule, breakpointsKind py prepared = .ok kind ∧
      bandingComparisonExpr pl dtype kind outputColumn = .ok column ∧
      breakpointsToRulesWithSources py rightClosed (.rows prepared) = .ok intervals ∧
      (rule, i) ∈ intervals ∧ Claims pl.compare rule (column cell)

theorem claims_of_takes {β : Type} {compare : Operator → κ → β → Option Bool} {cell : κ}
    {rule : IntervalRule β} (h : takes compare cell rule = true) : Claims compare rule cell := by
  unfold takes at h
  rw [Bool.and_eq_true, Option.any_eq_true] at h
  obtain ⟨-, condition, hc, hcell⟩ := h
  exact ⟨condition, hc, by simpa using hcell⟩

/-- By value: the rule last given the cell's text is claimed, and its assignment written. -/
theorem claimed_of_text (pl : Cells κ ν δ τ) (py : Readers ν δ τ) (dtype : Option Dtype)
    (rightClosed : Bool) (outputColumn : String) (prepared : List Row) (cell : κ)
    {claim : Option ℕ} {assigned : Assigned}
    (hclaim : claim = (pl.castText cell).bind fun text =>
      Assoc.get? ((bandingCategoricalClaims py prepared).map fun e => (e.1, e.2.1)) text)
    (hassigned : assigned = ((pl.castText cell).bind (Assoc.get?
      ((bandingCategoricalClaims py prepared).map fun e => (e.1, e.2.2)))).elim .default .label) :
    (claim = none ↔ assigned = .default) ∧ ∀ i, claim = some i →
      Fires pl py dtype "categorical" rightClosed outputColumn prepared cell i ∧
      ∃ row, prepared[i]? = some row ∧ assigned = .label (labelOf py "categorical" row) := by
  subst hclaim hassigned
  cases hcell : pl.castText cell with
  | none => simp
  | some text =>
    -- position and assignment are looked up in one table
    have hposition := Assoc.get?_map_snd (fun _ (v : ℕ × String) => v.1)
      (bandingCategoricalClaims py prepared) text
    have hlabels := Assoc.get?_map_snd (fun _ (v : ℕ × String) => v.2)
      (bandingCategoricalClaims py prepared) text
    rw [Option.bind_some, Option.bind_some, hposition, hlabels]
    cases hget : Assoc.get? (bandingCategoricalClaims py prepared) text with
    | none => simp
    | some claim =>
      obtain ⟨j, label⟩ := claim
      obtain ⟨row, hrow, hlabel, htext⟩ := of_get?_categoricalClaims hget
      refine ⟨by simp, fun i hi => ?_⟩
      obtain rfl : j = i := by simpa using hi
      refine ⟨?_, row, hrow, by rw [← hlabel]; rfl⟩
      rw [Fires, if_pos rfl]
      exact ⟨row, hrow, by rw [hcell, htext]⟩

/-- By interval: the first rule that takes the cell is claimed, and its label written. -/
theorem claimed_of_interval (pl : Cells κ ν δ τ) {py : Readers ν δ τ} {dtype : Option Dtype}
    {mode outputColumn : String} {rightClosed : Bool} {prepared : List Row}
    (hcat : mode ≠ "categorical") {kind : BoundaryKind} {column : κ → κ}
    {intervals : List (IntervalRule (Boundary ν δ τ) × ℕ)}
    (hkind : breakpointsKind py prepared = .ok kind)
    (hcolumn : bandingComparisonExpr pl dtype kind outputColumn = .ok column)
    (hintervals : breakpointsToRulesWithSources py rightClosed (.rows prepared) = .ok intervals)
    (cell : κ) {claim : Option ℕ} {assigned : Assigned}
    (hclaim : claim = whenThen (branchesOf pl.compare column intervals (·.2)) cell)
    (hassigned : assigned = (whenThen (branchesOf pl.compare column intervals
      (·.1.assignment)) cell).elim .default .label) :
    (claim = none ↔ assigned = .default) ∧ ∀ i, claim = some i →
      Fires pl py dtype mode rightClosed outputColumn prepared cell i ∧
      ∃ row, prepared[i]? = some row ∧ assigned = .label (labelOf py mode row) := by
  rw [whenThen_branchesOf] at hclaim hassigned
  subst hclaim hassigned
  cases hfind : intervals.find? fun rule => takes pl.compare (column cell) rule.1 with
  | none => simp
  | some rule =>
    refine ⟨by simp, fun i hi => ?_⟩
    obtain rfl : rule.2 = i := by simpa using hi
    have hmem := List.mem_of_find?_eq_some hfind
    have htakes : takes pl.compare (column cell) rule.1 = true := by
      simpa using List.find?_some hfind
    obtain ⟨row, hrow, hlabel⟩ := label_of_mem_intervals hintervals hmem
    refine ⟨?_, row, hrow, ?_⟩
    · rw [Fires, if_neg hcat]
      exact ⟨kind, column, intervals, rule.1, hkind, hcolumn, hintervals, hmem,
        claims_of_takes htakes⟩
    · rw [labelOf, if_neg hcat, ← hlabel]
      rfl

/-- The claimed rule is the one whose label is assigned, and no rule is claimed exactly where the
default is. Without rules nothing is written and nothing claimed. -/
theorem claim_iff_applied (pl : Cells κ ν δ τ) (py : Readers ν δ τ) (dtype : Option Dtype)
    (outputColumn mode : String) (rules : RulesConfig) (rightClosed : Bool)
    (applied : Option (κ → Assigned))
    (h : applyBanding pl py dtype outputColumn mode rules rightClosed = .ok applied) :
    ∃ prepared claim, normaliseBandingRules mode rules = .ok prepared ∧
      bandingRuleClaimExpr pl py dtype mode rules rightClosed outputColumn = .ok claim ∧
      (applied = none → ∀ cell, claim cell = none) ∧
      ∀ assign, applied = some assign → ∀ cell,
        (claim cell = none ↔ assign cell = .default) ∧
        ∀ i, claim cell = some i →
          Fires pl py dtype mode rightClosed outputColumn prepared cell i ∧
          ∃ row, prepared[i]? = some row ∧ assign cell = .label (labelOf py mode row) := by
  unfold applyBanding at h
  obtain ⟨_, hmode, h⟩ := bind_eq_ok.mp h
  obtain ⟨prepared, hprepared, h⟩ := bind_eq_ok.mp h
  unfold bandingRuleClaimExpr
  rw [hmode, hprepared]
  simp only [bind, Except.bind]
  by_cases hcat : mode = "categorical"
  · rw [if_pos hcat] at h
    simp only [List.map_eq_nil_iff] at h
    simp only [if_pos hcat]
    by_cases hnil : prepared = []
    · subst hnil
      have hclaims : bandingCategoricalClaims py ([] : List Row) = [] := rfl
      rw [if_pos hclaims, if_pos rfl] at h
      obtain rfl := Except.ok.inj h
      refine ⟨[], fun _ => none, rfl, rfl, fun _ _ => rfl, fun assign ha => ?_⟩
      cases ha
    · by_cases hclaims : bandingCategoricalClaims py prepared = []
      · rw [if_pos hclaims, if_neg hnil] at h
        cases h
      · rw [if_neg hclaims] at h
        obtain rfl := Except.ok.inj h
        rw [if_neg hnil, if_neg hclaims]
        refine ⟨prepared, _, rfl, rfl, fun hn => (by cases hn), fun assign ha cell => ?_⟩
        obtain rfl := Option.some.inj ha
        subst hcat
        exact claimed_of_text pl py dtype rightClosed outputColumn prepared cell rfl rfl
  · rw [if_neg hcat] at h
    simp only [if_neg hcat]
    obtain ⟨kind, hkind, h⟩ := bind_eq_ok.mp h
    obtain ⟨intervals, hintervals, h⟩ := bind_eq_ok.mp h
    obtain ⟨column, hcolumn, h⟩ := bind_eq_ok.mp h
    simp only [isEmpty_branchesOf] at h
    by_cases hnil : prepared = []
    · subst hnil
      obtain rfl := Except.ok.inj hintervals
      simp only [List.any_nil, Bool.not_false, if_true] at h
      obtain rfl := Except.ok.inj h
      refine ⟨[], fun _ => none, rfl, rfl, fun _ _ => rfl, fun assign ha => ?_⟩
      cases ha
    · simp only [if_neg hnil, hkind, hcolumn, hintervals, isEmpty_branchesOf]
      cases hany : intervals.any (fun rule => usable pl.compare rule.1) with
      | false => simp [hany, hnil] at h
      | true =>
        simp only [hany, Bool.not_true, Bool.false_eq_true, if_false, Except.ok.injEq] at h ⊢
        subst h
        refine ⟨prepared, _, rfl, rfl, fun hn => (by cases hn), fun assign ha cell => ?_⟩
        obtain rfl := Option.some.inj ha
        exact claimed_of_interval pl hcat hkind hcolumn hintervals cell rfl rfl

/-- Cells that are texts, or missing. -/
def textCells : Cells (Option String) ℤ ℤ ℤ where
  castText := id
  nonFinite _ := false
  missing := none
  wallClock := id
  dateOf := id
  compare _ _ _ := none

/-- A house claimed by its rule, the second of the two. -/
theorem house_claimed :
    ∃ prepared claim, normaliseBandingRules "categorical" (.rows
        [[("value", .str "Flat"), ("assignment", .str "Flat")],
          [("value", .str "Terrace"), ("assignment", .str "House")]]) = .ok prepared ∧
      bandingRuleClaimExpr textCells (readersOf "25" 25) none "categorical" (.rows
        [[("value", .str "Flat"), ("assignment", .str "Flat")],
          [("value", .str "Terrace"), ("assignment", .str "House")]]) true "band" = .ok claim ∧
      claim (some "Terrace") = some 1 := by
  obtain ⟨prepared, claim, hprepared, hclaim, -⟩ :=
    claim_iff_applied textCells (readersOf "25" 25) none "band" "categorical" (.rows
        [[("value", .str "Flat"), ("assignment", .str "Flat")],
          [("value", .str "Terrace"), ("assignment", .str "House")]]) true _ rfl
  refine ⟨prepared, claim, hprepared, hclaim, ?_⟩
  obtain rfl := Except.ok.inj hclaim
  rfl

end Haute.Banding
