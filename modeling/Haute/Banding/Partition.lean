import Haute.Banding.Rules
import Haute.Data.Cuts

/-!
# The intervals of breakpoints partition the values

The interval rules of accepted breakpoints are, one after another, the intervals between their
boundaries in order: each rule holds of what its interval encloses (`claims_iff_encloses`). The
boundaries are distinct, so no value is in two, and one that is within the last boundary, or any
if there is an open-ended breakpoint, is in one.
-/

namespace Haute.Banding

open Haute.Data

variable {ν δ τ : Type}

/-- Whether a rule holds of a cell. -/
def Claims {α β : Type} (compare : Operator → α → β → Option Bool) (rule : IntervalRule β)
    (cell : α) : Prop :=
  ∃ condition, bandingCondition compare rule = some condition ∧ condition cell = some true

section Rules

variable {β : Type}

theorem length_rulesFrom (rightClosed : Bool) (prev : Option β) (es : List (Bounded β)) :
    (rulesFrom rightClosed prev es).length = es.length := by
  induction es generalizing prev with
  | nil => rfl
  | cons e es ih => simp [rulesFrom, ih]

/-- Each rule runs from the boundary before its own. -/
theorem getElem?_rulesFrom (rightClosed : Bool) (prev : Option β) (es : List (Bounded β)) (k : ℕ) :
    (rulesFrom rightClosed prev es)[k]? = es[k]?.map fun e =>
      (ruleTo rightClosed (if k = 0 then prev else es[k - 1]?.map (·.boundary)) e.boundary e.label,
        e.source) := by
  induction es generalizing prev k with
  | nil => simp [rulesFrom]
  | cons e es ih =>
    rcases k with _ | k
    · simp [rulesFrom]
    · rw [rulesFrom, List.getElem?_cons_succ, ih, List.getElem?_cons_succ]
      rcases k with _ | k <;> simp

@[simp]
theorem assignment_ruleTo (rightClosed : Bool) (prev : Option β) (b : β) (label : String) :
    (ruleTo rightClosed prev b label).assignment = label := by
  cases prev <;> rfl

theorem nodup_of_duplicateOf [DecidableEq β] {seen : List β} {es : List (Bounded β)}
    (h : duplicateOf seen es = none) :
    (es.map (·.boundary)).Nodup ∧ ∀ e ∈ es, e.boundary ∉ seen := by
  induction es generalizing seen with
  | nil => simp
  | cons e es ih =>
    rw [duplicateOf] at h
    split_ifs at h with he
    obtain ⟨hnodup, hnot⟩ := ih h
    refine ⟨?_, List.forall_mem_cons.mpr ⟨he, fun e' he' hm => ?_⟩⟩
    · rw [List.map_cons, List.nodup_cons]
      refine ⟨fun hm => ?_, hnodup⟩
      obtain ⟨e', he', heq⟩ := List.mem_map.mp hm
      exact hnot e' he' (heq ▸ List.mem_cons_self)
    · exact hnot e' he' (List.mem_cons_of_mem _ hm)

variable [LinearOrder β]

/-- Comparison of values that are there. -/
def exactly (op : Operator) (x threshold : β) : Option Bool := some (op.holds x threshold)

theorem claims_ruleTo_iff {rightClosed : Bool} {prev : Option β} {b x : β} {label : String} :
    Claims exactly (ruleTo rightClosed prev b label) x ↔
      (∀ p, prev = some p → Above rightClosed p x) ∧ Within rightClosed b x := by
  rcases prev with _ | p <;> cases rightClosed <;>
    simp [Claims, ruleTo, bandingCondition, bandingRuleComparators, exactly, Operator.holds, Above,
      Within]

theorem claims_tail_iff {rightClosed : Bool} {b x : β} {label : String} :
    Claims exactly ⟨label, (if rightClosed then .gt else .ge, b), none⟩ x ↔
      Above rightClosed b x := by
  cases rightClosed <;>
    simp [Claims, bandingCondition, bandingRuleComparators, exactly, Operator.holds, Above]

/-- Sorted breakpoints without duplicates have increasing boundaries. -/
theorem pairwise_lt_of_sorted {es : List (Bounded β)}
    (h : duplicateOf [] (es.insertionSort fun a b => a.boundary ≤ b.boundary) = none) :
    ((es.insertionSort fun a b => a.boundary ≤ b.boundary).map (·.boundary)).Pairwise (· < ·) := by
  have htotal : Std.Total fun a b : Bounded β => a.boundary ≤ b.boundary :=
    ⟨fun a b => le_total a.boundary b.boundary⟩
  have htrans : IsTrans (Bounded β) fun a b => a.boundary ≤ b.boundary :=
    ⟨fun _ _ _ => le_trans⟩
  have hsorted := List.pairwise_insertionSort (fun a b : Bounded β => a.boundary ≤ b.boundary) es
  have hle : ((es.insertionSort fun a b => a.boundary ≤ b.boundary).map
      (·.boundary)).Pairwise (· ≤ ·) := List.pairwise_map.mpr hsorted
  exact (hle.and (nodup_of_duplicateOf h).1).imp fun h => lt_of_le_of_ne h.1 h.2

/-- The rules of increasing boundaries hold of what their intervals enclose. -/
theorem claims_iff_encloses {rightClosed : Bool} {es : List (Bounded β)} {k : ℕ}
    {rule : IntervalRule β × ℕ} (h : (rulesFrom rightClosed none es)[k]? = some rule) (x : β) :
    Claims exactly rule.1 x ↔ Encloses rightClosed (es.map (·.boundary)) k x := by
  rw [getElem?_rulesFrom, Option.map_eq_some_iff] at h
  obtain ⟨e, he, rfl⟩ := h
  rw [claims_ruleTo_iff]
  unfold Encloses
  simp only [List.getElem?_map, he, Option.map_some, Option.some.injEq, forall_eq']
  refine and_congr_left fun _ => ?_
  rcases k with _ | k
  · simp
  · simp

end Rules

/-! ### The breakpoints behind the rules -/

/-- A breakpoint with a boundary is a row that has one. -/
theorem mem_boundedOf_iff {py : Readers ν δ τ} {rows : List Row}
    {bounded : List (Bounded (Boundary ν δ τ))} (h : boundedOf py rows = .ok bounded)
    (e : Bounded (Boundary ν δ τ)) :
    e ∈ bounded ↔ ∃ row, rows[e.source]? = some row ∧ boundaryText py row ≠ "" ∧
      parseBreakpointBoundary py (boundaryText py row) = .ok e.boundary ∧
      e.label = textOf py row "label" := by
  have hall := forall₂_of_mapM h
  constructor
  · intro he
    obtain ⟨⟨row, i⟩, hrow, hread⟩ := List.Forall₂.exists_of_mem_right hall he
    rw [List.mem_filter, List.mk_mem_zipIdx_iff_getElem?, decide_eq_true_eq] at hrow
    obtain ⟨boundary, hb, hread⟩ := bind_eq_ok.mp hread
    obtain rfl := Except.ok.inj hread
    exact ⟨row, hrow.1, hrow.2, hb, rfl⟩
  · rintro ⟨row, hrow, htext, hb, hlabel⟩
    have hmem : (row, e.source) ∈ rows.zipIdx.filter fun e => decide (boundaryText py e.1 ≠ "") :=
      List.mem_filter.mpr ⟨List.mk_mem_zipIdx_iff_getElem?.mpr hrow, decide_eq_true htext⟩
    obtain ⟨e', he', hread⟩ := List.Forall₂.exists_of_mem_left hall hmem
    obtain ⟨boundary, hb', hread⟩ := bind_eq_ok.mp hread
    obtain rfl := Except.ok.inj (hb.symm.trans hb')
    obtain rfl := Except.ok.inj hread
    rcases e with ⟨b, l, i⟩
    dsimp only at hlabel
    rwa [hlabel]

/-- Accepted breakpoints are of one kind. -/
theorem kind_of_breakpointsKind {py : Readers ν δ τ} {rows : List Row} {kind : BoundaryKind}
    (h : breakpointsKind py rows = .ok kind) {row : Row} (hrow : row ∈ rows)
    (htext : boundaryText py row ≠ "") {b : Boundary ν δ τ}
    (hb : parseBreakpointBoundary py (boundaryText py row) = .ok b) : b.kind = kind := by
  unfold breakpointsKind at h
  obtain ⟨boundaries, hbs, h⟩ := bind_eq_ok.mp h
  have hmem : boundaryText py row ∈ (rows.map (boundaryText py)).filter fun t => decide (t ≠ "") :=
    List.mem_filter.mpr ⟨List.mem_map_of_mem hrow, decide_eq_true htext⟩
  obtain ⟨b', hb', hread⟩ := List.Forall₂.exists_of_mem_left (forall₂_of_mapM hbs) hmem
  obtain rfl := Except.ok.inj (hb.symm.trans hread)
  have hkind : b.kind ∈ (boundaries.map Boundary.kind).dedup :=
    List.mem_dedup.mpr (List.mem_map_of_mem hb')
  dsimp only at h
  split_ifs at h with hlen
  rcases hkinds : (boundaries.map Boundary.kind).dedup with _ | ⟨k, _ | ⟨k', ks⟩⟩
  · rw [hkinds] at hkind
    exact absurd hkind List.not_mem_nil
  · rw [hkinds] at h hkind
    rw [List.mem_singleton.mp hkind]
    exact Except.ok.inj h
  · rw [hkinds] at hlen
    exact absurd hlen (by simp)

theorem mem_openEndedOf_iff {py : Readers ν δ τ} {rows : List Row} {e : Row × ℕ} :
    e ∈ openEndedOf py rows ↔ rows[e.2]? = some e.1 ∧ boundaryText py e.1 = "" := by
  unfold openEndedOf
  rw [List.mem_filter, List.mem_zipIdx_iff_getElem?, decide_eq_true_eq]

variable [LinearOrder ν] [LinearOrder δ] [LinearOrder τ]

/-- What acceptance found. -/
theorem breakpointsToRules_eq_ok {py : Readers ν δ τ} {rightClosed : Bool} {config : RulesConfig}
    {rules : List (IntervalRule (Boundary ν δ τ) × ℕ)}
    (h : breakpointsToRulesWithSources py rightClosed config = .ok rules) :
    ∃ rows, normaliseBandingRules "breakpoints" config = .ok rows ∧
      (rows = [] ∧ rules = [] ∨
        ∃ kind bounded, breakpointsKind py rows = .ok kind ∧ boundedOf py rows = .ok bounded ∧
          (openEndedOf py rows).length ≤ 1 ∧ (openEndedOf py rows ≠ [] → bounded ≠ []) ∧
          duplicateOf [] (bounded.insertionSort fun a b => a.boundary ≤ b.boundary) = none ∧
          rules = rulesFrom rightClosed none
              (bounded.insertionSort fun a b => a.boundary ≤ b.boundary) ++
            tailRule py rightClosed
              ((bounded.insertionSort fun a b => a.boundary ≤ b.boundary).map
                (·.boundary)).getLast? (openEndedOf py rows).head?) := by
  unfold breakpointsToRulesWithSources at h
  obtain ⟨rows, hrows, h⟩ := bind_eq_ok.mp h
  refine ⟨rows, hrows, ?_⟩
  split_ifs at h with hnil
  · exact .inl ⟨hnil, (Except.ok.inj h).symm⟩
  · obtain ⟨kind, hkind, h⟩ := bind_eq_ok.mp h
    obtain ⟨bounded, hbounded, h⟩ := bind_eq_ok.mp h
    dsimp only at h
    split_ifs at h with hmany honly
    cases hdup : duplicateOf [] (bounded.insertionSort fun a b => a.boundary ≤ b.boundary) with
    | some e => simp [hdup] at h
    | none =>
      simp only [hdup, Except.ok.injEq] at h
      refine .inr ⟨kind, bounded, hkind, hbounded, Nat.not_lt.mp hmany, fun ho hb => ?_, hdup,
        h.symm⟩
      exact honly ⟨ho, List.isEmpty_iff.mpr hb⟩

/-- A rule in its place: of the interval that ends at the boundary of its breakpoint, or of what
is above all of them. -/
theorem rule_spec {py : Readers ν δ τ} {rightClosed : Bool} {rows : List Row}
    {bounded es : List (Bounded (Boundary ν δ τ))} (hbounded : boundedOf py rows = .ok bounded)
    (hes : ∀ e, e ∈ es ↔ e ∈ bounded) {k : ℕ} {rule : IntervalRule (Boundary ν δ τ) × ℕ}
    (h : (rulesFrom rightClosed none es ++ tailRule py rightClosed
      (es.map (·.boundary)).getLast? (openEndedOf py rows).head?)[k]? = some rule) :
    k ≤ (es.map (·.boundary)).length ∧
    (∀ x, Claims exactly rule.1 x ↔ Encloses rightClosed (es.map (·.boundary)) k x) ∧
    ∃ row, rows[rule.2]? = some row ∧ rule.1.assignment = textOf py row "label" ∧
      (∀ b, (es.map (·.boundary))[k]? = some b →
        parseBreakpointBoundary py (boundaryText py row) = .ok b) ∧
      ((es.map (·.boundary))[k]? = none → boundaryText py row = "") := by
  -- a rule below a boundary, or the one above the last
  rcases Nat.lt_or_ge k (rulesFrom rightClosed none es).length with hk | hk
  · rw [List.getElem?_append_left hk] at h
    rw [length_rulesFrom] at hk
    refine ⟨by rw [List.length_map]; exact hk.le, claims_iff_encloses h, ?_⟩
    rw [getElem?_rulesFrom, Option.map_eq_some_iff] at h
    obtain ⟨e, he, rfl⟩ := h
    obtain ⟨row, hrow, -, hb, hlabel⟩ :=
      (mem_boundedOf_iff hbounded e).mp ((hes e).mp (List.mem_of_getElem? he))
    refine ⟨row, hrow, ?_, fun b hk' => ?_, fun hnone => ?_⟩
    · rw [assignment_ruleTo, hlabel]
    · rw [List.getElem?_map, he, Option.map_some, Option.some.injEq] at hk'
      rw [← hk', hb]
    · rw [List.getElem?_map, he] at hnone
      cases hnone
  · rw [List.getElem?_append_right hk, length_rulesFrom] at h
    rw [length_rulesFrom] at hk
    unfold tailRule at h
    split at h
    · rename_i e b hopen hlast
      rw [List.getElem?_singleton] at h
      have hzero : k - es.length = 0 := by
        by_contra hne
        rw [if_neg hne] at h
        cases h
      rw [if_pos hzero] at h
      obtain rfl : k = es.length := by omega
      obtain rfl := Option.some.inj h
      rw [List.getLast?_eq_getElem?, List.length_map] at hlast
      have hpos : 0 < es.length := by
        rcases es with _ | ⟨e', es⟩
        · simp at hlast
        · exact Nat.succ_pos _
      have hnone : (es.map (·.boundary))[es.length]? = none :=
        List.getElem?_eq_none (by rw [List.length_map])
      obtain ⟨hrow, htext⟩ := mem_openEndedOf_iff.mp (List.mem_of_mem_head? hopen)
      refine ⟨by
        rw [List.length_map], fun x => ?_, e.1, hrow, rfl, fun b' hb' => ?_, fun _ => htext⟩
      · rw [claims_tail_iff]
        unfold Encloses
        rw [hnone, hlast]
        simp [hpos]
      · rw [hnone] at hb'
        cases hb'
    · simp at h

/-- The interval rules of accepted breakpoints, with increasing boundaries `cuts` of one kind:
each holds of what is enclosed between its breakpoint's boundary and the one before; no value is
in two; and one within the last boundary, or any with an open end, is in one. -/
theorem breakpointsToRules_partition (py : Readers ν δ τ) (rightClosed : Bool)
    (config : RulesConfig) (rules : List (IntervalRule (Boundary ν δ τ) × ℕ))
    (h : breakpointsToRulesWithSources py rightClosed config = .ok rules) :
    ∃ rows cuts, normaliseBandingRules "breakpoints" config = .ok rows ∧
      cuts.Pairwise (· < ·) ∧
      (∀ b, b ∈ cuts ↔ ∃ row ∈ rows, boundaryText py row ≠ "" ∧
        parseBreakpointBoundary py (boundaryText py row) = .ok b) ∧
      (∃ kind, ∀ b ∈ cuts, b.kind = kind) ∧
      (∀ (k : ℕ) (rule : IntervalRule (Boundary ν δ τ) × ℕ), rules[k]? = some rule →
        (∀ x, Claims exactly rule.1 x ↔ Encloses rightClosed cuts k x) ∧
        ∃ row, rows[rule.2]? = some row ∧ rule.1.assignment = textOf py row "label" ∧
          (∀ b, cuts[k]? = some b → parseBreakpointBoundary py (boundaryText py row) = .ok b) ∧
          (cuts[k]? = none → boundaryText py row = "")) ∧
      (∀ x (i j : ℕ) (rule rule' : IntervalRule (Boundary ν δ τ) × ℕ), rules[i]? = some rule →
        rules[j]? = some rule' →
        Claims exactly rule.1 x → Claims exactly rule'.1 x → i = j) ∧
      ∀ x, ((∃ b ∈ cuts, Within rightClosed b x) ∨ ∃ row ∈ rows, boundaryText py row = "") →
        ∃ (k : ℕ) (rule : IntervalRule (Boundary ν δ τ) × ℕ), rules[k]? = some rule ∧
          Claims exactly rule.1 x := by
  obtain ⟨rows, hrows, ⟨rfl, rfl⟩ | ⟨kind, bounded, hkind, hbounded, -, hopen, hdup, hrules⟩⟩ :=
    breakpointsToRules_eq_ok h
  · exact ⟨[], [], hrows, List.Pairwise.nil, by simp, ⟨.number, by simp⟩, by simp, by simp, by simp⟩
  · have hes : ∀ e, e ∈ bounded.insertionSort (fun a b => a.boundary ≤ b.boundary) ↔ e ∈ bounded :=
      fun e => List.mem_insertionSort _
    have hcuts := pairwise_lt_of_sorted hdup
    generalize bounded.insertionSort (fun a b => a.boundary ≤ b.boundary) = es at hes hcuts hrules
    have hmem : ∀ b, b ∈ es.map (·.boundary) ↔ ∃ row ∈ rows, boundaryText py row ≠ "" ∧
        parseBreakpointBoundary py (boundaryText py row) = .ok b := by
      intro b
      rw [List.mem_map]
      constructor
      · rintro ⟨e, he, rfl⟩
        obtain ⟨row, hrow, htext, hb, -⟩ := (mem_boundedOf_iff hbounded e).mp ((hes e).mp he)
        exact ⟨row, List.mem_of_getElem? hrow, htext, hb⟩
      · rintro ⟨row, hrow, htext, hb⟩
        obtain ⟨i, hi⟩ := List.getElem?_of_mem hrow
        refine ⟨⟨b, textOf py row "label", i⟩, (hes _).mpr ?_, rfl⟩
        exact (mem_boundedOf_iff hbounded _).mpr ⟨row, hi, htext, hb, rfl⟩
    have hrule : ∀ k rule, rules[k]? = some rule → _ := fun k rule hk =>
      rule_spec hbounded hes (hrules ▸ hk)
    -- each rule encloses its own stretch between cuts, and the cuts are increasing
    refine ⟨rows, es.map (·.boundary), hrows, hcuts, hmem, ⟨kind, fun b hb => ?_⟩,
      fun k rule hk => (hrule k rule hk).2, fun x i j rule rule' hi hj hx hx' => ?_, fun x hx => ?_⟩
    · obtain ⟨row, hrow, htext, hb⟩ := (hmem b).mp hb
      exact kind_of_breakpointsKind hkind hrow htext hb
    · obtain ⟨hile, hispec, -⟩ := hrule i rule hi
      obtain ⟨hjle, hjspec, -⟩ := hrule j rule' hj
      exact encloses_unique hcuts hile hjle ((hispec x).mp hx) ((hjspec x).mp hx')
    · obtain ⟨k, hk, hencl⟩ : ∃ k < rules.length,
          Encloses rightClosed (es.map (·.boundary)) k x := by
        rw [hrules, List.length_append, length_rulesFrom]
        rcases hx with ⟨b, hb, hwithin⟩ | ⟨row, hrow, htext⟩
        · obtain ⟨k, hk, hencl⟩ := exists_encloses_of_within hcuts hb hwithin
          rw [List.length_map] at hk
          exact ⟨k, by omega, hencl⟩
        · obtain ⟨k, hk, hencl⟩ := exists_encloses rightClosed (es.map (·.boundary)) x
          rw [List.length_map] at hk
          obtain ⟨i, hi⟩ := List.getElem?_of_mem hrow
          have he : (row, i) ∈ openEndedOf py rows := mem_openEndedOf_iff.mpr ⟨hi, htext⟩
          obtain ⟨e, he'⟩ := Option.ne_none_iff_exists'.mp (fun hn =>
            List.ne_nil_of_mem he (List.head?_eq_none_iff.mp hn))
          obtain ⟨e', he''⟩ := List.exists_mem_of_ne_nil _ (hopen (List.ne_nil_of_mem he))
          have hne : es.map (·.boundary) ≠ [] :=
            List.ne_nil_of_mem (List.mem_map_of_mem ((hes e').mpr he''))
          have hlen : (tailRule py rightClosed (es.map (·.boundary)).getLast?
              (openEndedOf py rows).head?).length = 1 := by
            rw [he', List.getLast?_eq_some_getLast hne]
            rfl
          exact ⟨k, by omega, hencl⟩
      refine ⟨k, rules[k], List.getElem?_eq_getElem hk, ?_⟩
      exact ((hrule k _ (List.getElem?_eq_getElem hk)).2.1 x).mpr hencl

/-- Readers that know one number and texts. -/
def readersOf (text : String) (number : ℤ) : Readers ℤ ℤ ℤ where
  float s := if s = text then some (some number) else none
  dateFromIso _ := none
  datetimeFromIso _ := none
  str v := match v with
    | .str s => s
    | _ => ""

/-- Bands up to 25 and above: 25 itself is in one of their intervals. -/
theorem twoBands_claim :
    ∃ (k : ℕ) (rule : IntervalRule (Boundary ℤ ℤ ℤ) × ℕ),
      [((⟨"young", (.le, .number 25), none⟩ : IntervalRule (Boundary ℤ ℤ ℤ)), 0),
        (⟨"old", (.gt, .number 25), none⟩, 1)][k]? = some rule ∧
      Claims exactly rule.1 (Boundary.number 25) := by
  obtain ⟨rows, cuts, hrows, -, -, -, -, -, hcover⟩ :=
    breakpointsToRules_partition (readersOf "25" 25) true
      (.rows [[("boundary", .str "25"), ("label", .str "young")],
        [("boundary", .str ""), ("label", .str "old")]])
      [(⟨"young", (.le, .number 25), none⟩, 0), (⟨"old", (.gt, .number 25), none⟩, 1)] (by rfl)
  obtain rfl := Except.ok.inj hrows
  exact hcover (.number 25) (.inr ⟨_, List.mem_cons_of_mem _ List.mem_cons_self, by decide⟩)

end Haute.Banding
