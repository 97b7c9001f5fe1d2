import Haute.Shred.Walk

/-!
# One table of the walk

The walk emits for many tables at once. `tableTrace` is the walk for one table alone: it
follows the table's own steps and sees no other table and no set of descents. The two agree
table by table (`shredEvents_projects`): the walk raises nothing exactly when no table's
trace does, and then the events of one table are its trace, in order. So the walk does not
depend on the other tables, nor on the order in which its descents are taken.
-/

namespace Haute

open Yielded

/-! ### Events of one table -/

/-- A walk over all tables is, table by table, a given walk of the table. -/
structure Projects (specs : List EmittingTableSpec) (y : Yielded ShredEvent)
    (t : EmittingTableSpec → Yielded ShredEvent) : Prop where
  raised : y.raised = none ↔ ∀ spec ∈ specs, (t spec).raised = none
  values : y.raised = none → ∀ spec ∈ specs,
    y.values.filter (fun e => decide (e.label = spec.label)) = (t spec).values
  labels : ∀ e ∈ y.values, e.label ∈ specs.map EmittingTableSpec.label

namespace Projects

variable {specs : List EmittingTableSpec} {y z : Yielded ShredEvent}
  {t u : EmittingTableSpec → Yielded ShredEvent}

theorem done : Projects specs .done fun _ => .done := ⟨by simp, by simp, by simp⟩

theorem congr (h : Projects specs y t) (htu : ∀ spec ∈ specs, t spec = u spec) :
    Projects specs y u := by
  constructor
  · rw [h.raised]
    exact forall₂_congr fun spec hspec => by rw [htu spec hspec]
  · intro hy spec hspec
    rw [← htu spec hspec]
    exact h.values hy spec hspec
  · exact h.labels

theorem append (hy : Projects specs y t) (hz : Projects specs z u) :
    Projects specs (y.append z) fun spec => (t spec).append (u spec) := by
  constructor
  · simp only [raised_append_iff, hy.raised, hz.raised, forall_and]
  · intro hraised spec hspec
    obtain ⟨hy', hz'⟩ := raised_append_iff.mp hraised
    rw [values_append hy', values_append (hy.raised.mp hy' spec hspec), List.filter_append,
      hy.values hy' spec hspec, hz.values hz' spec hspec]
  · exact fun e he => (mem_values_append he).elim (hy.labels e) (hz.labels e)

theorem forEach {α : Type*} {xs : List α} {f : α → Yielded ShredEvent}
    {g : α → EmittingTableSpec → Yielded ShredEvent} (h : ∀ x ∈ xs, Projects specs (f x) (g x)) :
    Projects specs (Yielded.forEach xs f) fun spec => Yielded.forEach xs fun x => g x spec := by
  induction xs with
  | nil => exact done
  | cons x xs ih =>
    exact (h x List.mem_cons_self).append (ih fun x hx => h x (List.mem_cons_of_mem _ hx))

private theorem filter_flatMap_label {specs : List EmittingTableSpec}
    (hn : (specs.map EmittingTableSpec.label).Nodup) (p : EmittingTableSpec → Bool)
    {f : EmittingTableSpec → List ShredEvent} (hf : ∀ s ∈ specs, ∀ e ∈ f s, e.label = s.label)
    {spec : EmittingTableSpec} (hspec : spec ∈ specs) :
    ((specs.filter p).flatMap f).filter (fun e => decide (e.label = spec.label))
      = if p spec then f spec else [] := by
  have hnone : ∀ (specs : List EmittingTableSpec), (∀ s ∈ specs, ∀ e ∈ f s, e.label = s.label) →
      spec.label ∉ specs.map EmittingTableSpec.label →
      ((specs.filter p).flatMap f).filter (fun e => decide (e.label = spec.label)) = [] := by
    intro specs hf hmem
    refine List.filter_eq_nil_iff.mpr fun e he hlabel => hmem ?_
    obtain ⟨s, hs, he⟩ := List.mem_flatMap.mp he
    have hs := (List.mem_filter.mp hs).1
    rw [← of_decide_eq_true hlabel, hf s hs e he]
    exact List.mem_map_of_mem hs
  induction specs with
  | nil => simp at hspec
  | cons s specs ih =>
    rw [List.map_cons, List.nodup_cons] at hn
    have hrest : ∀ s ∈ specs, ∀ e ∈ f s, e.label = s.label := fun s hs =>
      hf s (List.mem_cons_of_mem _ hs)
    have hhead : ((if p s then f s else []).filter fun e => decide (e.label = spec.label))
        = if s.label = spec.label then (if p s then f s else []) else [] := by
      split_ifs with hp hl hl
      · exact List.filter_eq_self.mpr fun e he =>
          decide_eq_true ((hf s List.mem_cons_self e he).trans hl)
      · exact List.filter_eq_nil_iff.mpr fun e he h =>
          hl ((hf s List.mem_cons_self e he).symm.trans (of_decide_eq_true h))
      all_goals rfl
    have hsplit : ((s :: specs).filter p).flatMap f
        = (if p s then f s else []) ++ (specs.filter p).flatMap f := by
      rw [List.filter_cons]
      split_ifs <;> simp
    rw [hsplit, List.filter_append, hhead]
    rcases List.mem_cons.mp hspec with rfl | hspec
    · rw [if_pos rfl, hnone specs hrest hn.1, List.append_nil]
    · have hne : s.label ≠ spec.label := fun h => hn.1 (h ▸ List.mem_map_of_mem hspec)
      rw [if_neg hne, List.nil_append, ih hn.2 hrest hspec]

/-- A loop over some of the tables, each yielding its own events. -/
theorem forEach_filter (hn : (specs.map EmittingTableSpec.label).Nodup)
    (p : EmittingTableSpec → Bool) {f : EmittingTableSpec → Yielded ShredEvent}
    (hf : ∀ s ∈ specs, ∀ e ∈ (f s).values, e.label = s.label) :
    Projects specs (Yielded.forEach (specs.filter p) f) fun spec => if p spec then f spec
      else .done := by
  constructor
  · rw [raised_forEach_iff]
    refine ⟨fun h spec hspec => ?_, fun h spec hspec => ?_⟩
    · split_ifs with hp
      · exact h spec (List.mem_filter.mpr ⟨hspec, hp⟩)
      · rfl
    · obtain ⟨hspec, hp⟩ := List.mem_filter.mp hspec
      have := h spec hspec
      rwa [if_pos hp] at this
  · intro hraised spec hspec
    rw [values_forEach hraised, filter_flatMap_label hn p hf hspec]
    split_ifs <;> rfl
  · intro e he
    obtain ⟨s, hs, he⟩ := exists_of_mem_values_forEach he
    have hs := List.mem_of_mem_filter hs
    rw [hf s hs e he]
    exact List.mem_map_of_mem hs

end Projects

theorem label_of_mem_deliverRow {spec : EmittingTableSpec} {value : Value}
    {ancestors : List Value} :
    ∀ e ∈ (deliverRow spec value ancestors).values, e.label = spec.label := by
  intro e he
  rw [deliverRow] at he
  cases hrow : readRow spec.columns spec.depth value ancestors with
  | ok cells =>
    rw [hrow] at he
    obtain rfl := List.mem_singleton.mp he
    rfl
  | error err =>
    rw [hrow] at he
    exact absurd he List.not_mem_nil

theorem label_of_mem_emitTable {spec : EmittingTableSpec} {record : ℕ} {pos : Level} {value : Value}
    {ancestors : List Value} :
    ∀ e ∈ (emitTable spec record pos value ancestors).values, e.label = spec.label := by
  intro e he
  rw [emitTable] at he
  split_ifs at he
  · exact label_of_mem_deliverRow e he
  · obtain rfl := List.mem_singleton.mp he
    rfl

/-- Counting a loss for some of the tables. -/
theorem countRowSkips_projects {specs : List EmittingTableSpec}
    (hn : (specs.map EmittingTableSpec.label).Nodup) (p : EmittingTableSpec → Bool) (record : ℕ)
    (place : Level) (expected : Expected) :
    Projects specs (countRowSkips (specs.filter p) record place expected) fun spec =>
      if p spec then ⟨[.skip spec.label record place expected], none⟩ else .done :=
  Projects.forEach_filter hn p fun s _ e he => by
    obtain rfl := List.mem_singleton.mp he
    rfl

/-! ### The walk of one table -/

section Table

variable (spec : EmittingTableSpec) (record : ℕ)

/-- Iterate an array on the table's path, which is the table's own when no step remains. -/
def traceArray (ps steps : List Step) (visit : Value → Yielded ShredEvent) (arr : Value)
    (ancestors : List Value) : Yielded ShredEvent :=
  match arr with
  | .list items => .forEach items fun item =>
      if holdsNothing item then
        if steps.isEmpty && spec.isScalarTable then deliverRow spec item ancestors else .done
      else visit item
  | arr =>
    if holdsNothing arr then .done else ⟨[.skip spec.label record (levelOf ps) .array], none⟩

/-- The walk for one table, from an element that some steps lead to, along those that
remain. -/
def tableTrace : List Step → List Step → Value → List Value → Yielded ShredEvent
  | ps, [], value, ancestors => emitTable spec record (levelOf ps) value ancestors
  | ps, step :: steps, value, ancestors =>
    match value with
    | .dict fields =>
      match followObjects fields [] step.1 with
      | .inl inner =>
        traceArray spec record (ps ++ [step]) steps
          (fun item => tableTrace (ps ++ [step]) steps item (ancestors ++ [value]))
          (Value.getKey inner step.2) (ancestors ++ [value])
      | .inr (taken, container) =>
        if holdsNothing container then .done
        else ⟨[.skip spec.label record (levelOf ps ++ objectHops taken) .object], none⟩
    | _ => ⟨[.skip spec.label record (levelOf ps) .object], none⟩

end Table

/-! ### Descents are steps -/

/-- A set of descents is iterated in some order, each once. -/
def Iterates (specs : List EmittingTableSpec) (order : Level → List Descent) : Prop :=
  ∀ pos, (order pos).Nodup ∧ ∀ d, d ∈ order pos ↔ d ∈ descentsAt specs pos

/-- The descents at a level in the order the tables first register them. -/
def firstRegistered (specs : List EmittingTableSpec) (pos : Level) : List Descent :=
  (((specs.flatMap fun spec => descentsFrom [] [] [] spec.segments).filter
    fun d => d.1 = pos).map Prod.snd).dedup

theorem iterates_firstRegistered (specs : List EmittingTableSpec) :
    Iterates specs (firstRegistered specs) := fun pos =>
  ⟨List.nodup_dedup _, fun d => by
    rw [firstRegistered, descentsAt, List.mem_dedup, List.mem_toFinset]⟩

private theorem mem_descentsFrom {parent : Level} {hops : List String} {segs : List Seg}
    {pos : Level} {d : Descent} :
    (pos, d) ∈ descentsFrom (parent ++ objectHops hops) parent hops segs ↔
      ∃ front step rest, stepsFrom hops segs = front ++ step :: rest ∧
        pos = parent ++ levelOf front ∧ d = ⟨step.1, step.2, pos ++ stepSegments step⟩ := by
  induction segs generalizing parent hops with
  | nil => simp [descentsFrom, stepsFrom]
  | cons seg segs ih =>
    obtain ⟨name, isArray⟩ := seg
    rw [descentsFrom, stepsFrom]
    cases isArray with
    | true =>
      have hchild : parent ++ objectHops hops ++ [⟨name, true⟩] = parent ++ stepSegments
          (hops, name) := by
        rw [stepSegments, List.append_assoc]
      have hbelow := @ih (parent ++ stepSegments (hops, name)) []
      rw [show objectHops [] = [] from rfl, List.append_nil] at hbelow
      rw [if_pos rfl, if_pos rfl, List.mem_cons, hchild, hbelow]
      constructor
      · rintro (h | ⟨front, step, rest, hsteps, rfl, rfl⟩)
        · obtain ⟨rfl, rfl⟩ := Prod.mk.injEq .. ▸ h
          exact ⟨[], (hops, name), stepsFrom [] segs, rfl, (List.append_nil _).symm, rfl⟩
        · exact ⟨(hops, name) :: front, step, rest, by rw [hsteps]; rfl,
            by rw [levelOf_cons, List.append_assoc], rfl⟩
      · rintro ⟨front, step, rest, hsteps, rfl, rfl⟩
        cases front with
        | nil =>
          obtain ⟨rfl, -⟩ := List.cons.inj hsteps
          left
          rw [levelOf_nil, List.append_nil]
        | cons first front =>
          rw [List.cons_append] at hsteps
          obtain ⟨rfl, hrest⟩ := List.cons.inj hsteps
          exact .inr ⟨front, step, rest, hrest, by rw [levelOf_cons, List.append_assoc], rfl⟩
    | false =>
      have hhops : parent ++ objectHops hops ++ [⟨name, false⟩]
          = parent ++ objectHops (hops ++ [name]) := by simp [objectHops]
      rw [if_neg Bool.false_ne_true, if_neg Bool.false_ne_true, hhops, ih]

theorem EmittingTableSpec.segments_eq {spec : EmittingTableSpec} (h : IsLevel spec.segments) :
    spec.segments = levelOf spec.steps := (levelOf_stepsOf h).symm

/-- **The descents at a level** are the next steps of the tables below it. -/
theorem mem_descentsAt {specs : List EmittingTableSpec} {ps : List Step} {d : Descent} :
    d ∈ descentsAt specs (levelOf ps) ↔ ∃ spec ∈ specs, ∃ step, ps ++ [step] <+: spec.steps ∧
      d = ⟨step.1, step.2, levelOf (ps ++ [step])⟩ := by
  have hlevel : ∀ step, levelOf ps ++ stepSegments step = levelOf (ps ++ [step]) := by simp
  have hmem : d ∈ descentsAt specs (levelOf ps) ↔
      ∃ spec ∈ specs, (levelOf ps, d) ∈ descentsFrom [] [] [] spec.segments := by
    simp only [descentsAt, List.mem_toFinset, List.mem_map, List.mem_filter, List.mem_flatMap,
      decide_eq_true_eq]
    constructor
    · rintro ⟨⟨pos, d⟩, ⟨⟨spec, hspec, hd⟩, rfl⟩, rfl⟩
      exact ⟨spec, hspec, hd⟩
    · rintro ⟨spec, hspec, hd⟩
      exact ⟨(levelOf ps, d), ⟨⟨spec, hspec, hd⟩, rfl⟩, rfl⟩
  rw [hmem]
  refine exists_congr fun spec => and_congr_right fun _ => ?_
  rw [show descentsFrom [] [] [] spec.segments
    = descentsFrom ([] ++ objectHops []) [] [] spec.segments from rfl, mem_descentsFrom]
  constructor
  · rintro ⟨front, step, rest, hsteps, hpos, rfl⟩
    obtain rfl : ps = front := levelOf_injective hpos
    exact ⟨step, ⟨rest, by rw [List.append_assoc]; exact hsteps.symm⟩, by rw [hlevel]⟩
  · rintro ⟨step, ⟨rest, hrest⟩, rfl⟩
    rw [List.append_assoc] at hrest
    exact ⟨ps, step, rest, hrest.symm, rfl, by rw [hlevel]⟩

/-! ### The walk, table by table -/

section Projection

variable {specs : List EmittingTableSpec} {order : Level → List Descent}

theorem prefix_segments_iff {spec : EmittingTableSpec} (h : IsLevel spec.segments)
    {ps : List Step} :
    levelOf ps <+: spec.segments ↔ ps <+: spec.steps := by
  rw [EmittingTableSpec.segments_eq h, levelOf_prefix_iff]

theorem segments_eq_levelOf_iff {spec : EmittingTableSpec} (h : IsLevel spec.segments)
    {ps : List Step} : spec.segments = levelOf ps ↔ spec.steps = ps := by
  rw [EmittingTableSpec.segments_eq h, levelOf_injective.eq_iff]

/-- The walk over one array is, table by table, the table's. -/
private theorem walkArray_projects (hspecs : ValidSpecs specs) {record : ℕ} {ps : List Step}
    {arr : Value} {ancestors : List Value} {visit : Value → Yielded ShredEvent}
    {trace : Value → EmittingTableSpec → Yielded ShredEvent}
    (hvisit : ∀ item, Projects specs (visit item) fun spec =>
      if ps <+: spec.steps then trace item spec else .done) :
    Projects specs (walkArray specs visit record (levelOf ps) arr ancestors) fun spec =>
      if ps <+: spec.steps then
        traceArray spec record ps (spec.steps.drop ps.length)
          (fun item => trace item spec) arr ancestors
      else .done := by
  have hlevel : ∀ spec ∈ specs, IsLevel spec.segments := fun spec hspec =>
    (hspecs.spec spec hspec).isLevel
  -- what is no list is skipped once by every table at the array or below
  have hnotList (harr : arr.isList = false) : Projects specs
      (if holdsNothing arr then .done
        else countRowSkips (tablesAtOrBelow specs (levelOf ps)) record (levelOf ps) .array)
      fun spec => if ps <+: spec.steps then
        if holdsNothing arr then .done else ⟨[.skip spec.label record (levelOf ps) .array], none⟩
      else .done := by
    split_ifs with hnothing
    · exact Projects.done.congr fun spec _ => (ite_self _).symm
    · refine (countRowSkips_projects hspecs.nodupLabels _ record (levelOf ps) .array).congr
        fun spec hspec => ?_
      simp only [decide_eq_true_eq, prefix_segments_iff (hlevel spec hspec)]
  cases harr : arr.isList with
  | false => cases arr <;> first | exact hnotList harr | simp at harr
  | true =>
    obtain ⟨items, rfl⟩ := Value.isList_eq_true_iff.mp harr
    rw [walkArray]
    refine (Projects.forEach (g := fun item spec => if ps <+: spec.steps then
      if holdsNothing item then
        if (spec.steps.drop ps.length).isEmpty && spec.isScalarTable then
          deliverRow spec item ancestors else .done
      else trace item spec else .done) fun item _ => ?_).congr fun spec _ => ?_
    · split_ifs with hnothing
      · refine (Projects.forEach_filter hspecs.nodupLabels _ fun _ _ =>
          label_of_mem_deliverRow).congr fun spec hspec => ?_
        have hiff : (spec.segments = levelOf ps ∧ spec.isScalarTable = true) ↔ ps <+: spec.steps ∧
            ((spec.steps.drop ps.length).isEmpty && spec.isScalarTable) = true := by
          rw [segments_eq_levelOf_iff (hlevel spec hspec), Bool.and_eq_true, List.isEmpty_iff,
            List.drop_eq_nil_iff]
          constructor
          · rintro ⟨rfl, hscalar⟩
            exact ⟨List.prefix_rfl, le_rfl, hscalar⟩
          · rintro ⟨hpre, hlen, hscalar⟩
            exact ⟨(hpre.eq_of_length_le hlen).symm, hscalar⟩
        simp only [decide_eq_true_eq, hiff, ite_and]
      · exact hvisit item
    · by_cases hpre : ps <+: spec.steps
      · simp only [if_pos hpre]
        rfl
      · simp only [if_neg hpre]
        exact forEach_eq_done fun _ _ => rfl

/-- The losses below an element that is no object are, table by table, the table's. -/
private theorem tablesBelow_projects (hspecs : ValidSpecs specs) (record : ℕ) (ps : List Step) :
    Projects specs (countRowSkips (tablesBelow specs (levelOf ps)) record (levelOf ps) .object)
      fun spec => if ps <+: spec.steps ∧ ps ≠ spec.steps then
        ⟨[.skip spec.label record (levelOf ps) .object], none⟩ else .done := by
  have hiff : ∀ spec ∈ specs, ((levelOf ps).length < spec.segments.length ∧
      levelOf ps <+: spec.segments) ↔ ps <+: spec.steps ∧ ps ≠ spec.steps := by
    intro spec hspec
    have hlevel := (hspecs.spec spec hspec).isLevel
    rw [prefix_segments_iff hlevel, EmittingTableSpec.segments_eq hlevel]
    constructor
    · rintro ⟨hlen, hpre⟩
      refine ⟨hpre, ?_⟩
      rintro rfl
      exact lt_irrefl _ hlen
    · rintro ⟨hpre, hne⟩
      refine ⟨lt_of_le_of_ne (levelOf_prefix_iff.mpr hpre).length_le fun hlen => hne ?_, hpre⟩
      exact levelOf_injective ((levelOf_prefix_iff.mpr hpre).eq_of_length hlen)
  rw [tablesBelow]
  split_ifs with hempty
  · -- without a descent no table lies below
    refine Projects.done.congr fun spec hspec => (if_neg ?_).symm
    rintro ⟨⟨rest, hrest⟩, hne⟩
    cases rest with
    | nil => exact hne (by rw [← hrest, List.append_nil])
    | cons step rest =>
      have hmem := (mem_descentsAt (d := ⟨step.1, step.2, levelOf (ps ++ [step])⟩)).mpr
        ⟨spec, hspec, step, ⟨rest, by rw [← hrest, List.append_assoc]; rfl⟩, rfl⟩
      rw [hempty] at hmem
      exact absurd hmem (Finset.notMem_empty _)
  · refine (countRowSkips_projects hspecs.nodupLabels _ record (levelOf ps) .object).congr
      fun spec hspec => ?_
    simp only [decide_eq_true_eq, hiff spec hspec]

/-- **The walk from one element** is, table by table, the table's trace. -/
theorem emitAt_projects (hspecs : ValidSpecs specs) (horder : Iterates specs order) (record : ℕ)
    (fuel : ℕ) (ps : List Step) (hfuel : ∀ spec ∈ specs, spec.steps.length < fuel + ps.length)
    (value : Value) (ancestors : List Value) :
    Projects specs (emitAt specs order fuel record (levelOf ps) value ancestors) fun spec =>
      if ps <+: spec.steps then
        tableTrace spec record ps (spec.steps.drop ps.length) value ancestors
      else .done := by
  have hlevel : ∀ spec ∈ specs, IsLevel spec.segments := fun spec hspec =>
    (hspecs.spec spec hspec).isLevel
  induction fuel generalizing ps value ancestors with
  | zero =>
    refine Projects.done.congr fun spec hspec => (if_neg fun hpre => ?_).symm
    have := hfuel spec hspec
    have := hpre.length_le
    omega
  | succ fuel ih =>
    have hown : Projects specs (.forEach (specs.filter fun spec => spec.segments = levelOf ps)
        fun spec => emitTable spec record (levelOf ps) value ancestors) fun spec =>
          if spec.steps = ps then emitTable spec record (levelOf ps) value ancestors
            else .done := by
      refine (Projects.forEach_filter hspecs.nodupLabels _ fun _ _ => label_of_mem_emitTable).congr
        fun spec hspec => ?_
      simp only [decide_eq_true_eq, segments_eq_levelOf_iff (hlevel spec hspec)]
    -- what the walk does below the element, for the tables below it
    have hbelow (below : Yielded ShredEvent) (h : Projects specs below fun spec =>
        if ps <+: spec.steps ∧ ps ≠ spec.steps then
          tableTrace spec record ps (spec.steps.drop ps.length) value ancestors else .done) :
        Projects specs ((Yielded.forEach (specs.filter fun spec => spec.segments = levelOf ps)
          fun spec => emitTable spec record (levelOf ps) value ancestors).append below) fun spec =>
            if ps <+: spec.steps then
              tableTrace spec record ps (spec.steps.drop ps.length) value ancestors
            else .done := by
      refine (hown.append h).congr fun spec _ => ?_
      by_cases heq : spec.steps = ps
      · simp [heq, tableTrace]
      · simp [heq, Ne.symm heq]
    have hcons : ∀ spec ∈ specs, ∀ step, ps ++ [step] <+: spec.steps →
        spec.steps.drop ps.length = step :: spec.steps.drop (ps ++ [step]).length := by
      rintro spec - step ⟨rest, hrest⟩
      rw [← hrest]
      simp [List.append_assoc]
    unfold emitAt
    refine hbelow _ ?_
    cases hvalue : value.isDict with
    | false =>
      have htrace : ∀ spec ∈ specs, ps <+: spec.steps ∧ ps ≠ spec.steps →
          tableTrace spec record ps (spec.steps.drop ps.length) value ancestors
            = ⟨[.skip spec.label record (levelOf ps) .object], none⟩ := by
        rintro spec - ⟨⟨rest, hrest⟩, hne⟩
        cases rest with
        | nil => exact absurd (by rw [← hrest, List.append_nil]) hne
        | cons step rest =>
          rw [← hrest, List.drop_left]
          cases value <;> first | rfl | simp at hvalue
      have hskip := (tablesBelow_projects hspecs record ps).congr fun spec hspec =>
        show _ = if ps <+: spec.steps ∧ ps ≠ spec.steps then
          tableTrace spec record ps (spec.steps.drop ps.length) value ancestors else .done by
        split_ifs with h
        · exact (htrace spec hspec h).symm
        · rfl
      cases value <;> first | exact hskip | simp at hvalue
    | true =>
      obtain ⟨fields, rfl⟩ := Value.isDict_eq_true_iff.mp hvalue
      -- one descent is a step, and serves the tables below it
      have hdescent : ∀ d ∈ order (levelOf ps), ∃ step : Step,
          d = ⟨step.1, step.2, levelOf (ps ++ [step])⟩ := fun d hd => by
        obtain ⟨_, _, step, _, rfl⟩ := mem_descentsAt.mp (((horder _).2 d).mp hd)
        exact ⟨step, rfl⟩
      change Projects specs (Yielded.forEach (order (levelOf ps)) fun d => _) _
      refine (Projects.forEach (g := fun d spec => if ps ++ [(d.hops, d.key)] <+: spec.steps then
        tableTrace spec record ps (spec.steps.drop ps.length) (.dict fields) ancestors
        else .done) fun d hd => ?_).congr fun spec hspec => ?_
      · obtain ⟨step, rfl⟩ := hdescent d hd
        simp only
        cases hfollow : followObjects fields [] step.1 with
        | inl inner =>
          refine (@walkArray_projects _ hspecs _ _ _ _ _ (fun item spec =>
            tableTrace spec record (ps ++ [step]) (spec.steps.drop (ps ++ [step]).length) item
              (ancestors ++ [.dict fields])) fun item => ih (ps ++ [step])
                (fun spec hspec => by have := hfuel spec hspec; simp; omega) item _).congr
            fun spec hspec => ?_
          split_ifs with hpre
          · rw [hcons spec hspec step hpre, tableTrace, hfollow]
          · rfl
        | inr stop =>
          obtain ⟨taken, container⟩ := stop
          simp only
          split_ifs with hnothing
          · refine Projects.done.congr fun spec hspec => ?_
            split_ifs with hpre
            · rw [hcons spec hspec step hpre, tableTrace, hfollow]
              simp [hnothing]
            · rfl
          · refine (countRowSkips_projects hspecs.nodupLabels _ record _ .object).congr
              fun spec hspec => ?_
            simp only [decide_eq_true_eq, prefix_segments_iff (hlevel spec hspec)]
            split_ifs with hpre
            · rw [hcons spec hspec step hpre, tableTrace, hfollow]
              simp [hnothing]
            · rfl
      · split_ifs with hpre
        · -- a table below takes the one descent that is its next step
          obtain ⟨⟨rest, hrest⟩, hne⟩ := hpre
          cases rest with
          | nil => exact absurd (by rw [← hrest, List.append_nil]) hne
          | cons step rest =>
            have hstep : ps ++ [step] <+: spec.steps :=
              ⟨rest, by rw [← hrest, List.append_assoc]; rfl⟩
            rw [forEach_eq_single (horder _).1 (x := ⟨step.1, step.2, levelOf (ps ++ [step])⟩)
              (((horder _).2 _).mpr (mem_descentsAt.mpr ⟨spec, hspec, step, hstep, rfl⟩))
              fun d hd hne => if_neg fun hpre => hne ?_, if_pos hstep]
            obtain ⟨step', rfl⟩ := hdescent d hd
            have heq : ps ++ [step'] = ps ++ [step] := by
              refine List.IsPrefix.eq_of_length (List.prefix_of_prefix_length_le hpre hstep ?_)
                ?_ <;> simp
            rw [List.append_cancel_left_eq, List.singleton_inj] at heq
            rw [heq]
        · refine forEach_eq_done fun d hd => if_neg fun hd =>
            hpre ⟨(List.prefix_append _ _).trans hd, ?_⟩
          rintro rfl
          have := hd.length_le
          simp at this

theorem length_lt_walkFuel {spec : EmittingTableSpec} (hspec : spec ∈ specs) :
    spec.segments.length < walkFuel specs := by
  rw [walkFuel, Nat.lt_succ_iff]
  induction specs with
  | nil => simp at hspec
  | cons s specs ih =>
    rw [List.map_cons, List.foldr_cons]
    rcases List.mem_cons.mp hspec with rfl | hspec
    · exact le_max_left _ _
    · exact (ih hspec).trans (le_max_right _ _)

/-- The trace of one table over all records. -/
def tableEvents (spec : EmittingTableSpec) (records : List Value) : Yielded ShredEvent :=
  .forEach records.zipIdx fun r => tableTrace spec r.2 [] spec.steps r.1 []

/-- **The walk is its tables' traces.** It raises nothing exactly when no table's trace does,
and then the events of each table are its trace. -/
theorem shredEvents_projects (hspecs : ValidSpecs specs) (horder : Iterates specs order)
    (records : List Value) :
    Projects specs (shredEvents specs order records) fun spec => tableEvents spec records := by
  refine Projects.forEach fun r _ => ?_
  refine (emitAt_projects hspecs horder r.2 (walkFuel specs) [] (fun spec hspec => ?_) r.1 []).congr
    fun spec _ => ?_
  · have hlevel := (hspecs.spec spec hspec).isLevel
    have := length_le_length_levelOf spec.steps
    rw [← EmittingTableSpec.segments_eq hlevel] at this
    have := length_lt_walkFuel hspec
    simp
    omega
  · rw [if_pos List.nil_prefix]
    rfl

end Projection

end Haute
