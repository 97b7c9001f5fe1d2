import Haute.Workbench.Conditions

/-!
# What shows

`visibility`: everything starts shown, and anything whose conditions fail is hidden, round
after round, until a round hides nothing. A round asks the sheets, then the sections, the
components and the fields, each level knowing what the one above it hides; anything on what
a round hides is hidden in that round, unasked.

`Keeps` and `Fails` state the form's own question of an item in a choice of items, and
`roundHides_spec` is a round's one specification: what it hides and whom it asked.
-/

namespace Haute.Workbench

open Haute.Data

/-- What shows: the ids of the sheets, of the sections and of the components, and the fields,
each a component's id, a table's name and a column's. -/
@[ext] structure Shown where
  pages : Finset String
  sections : Finset String
  widgets : Finset String
  fields : Finset (String × String × String)

/-- The columns a choice shows as fields. -/
def columnsOf (S : Finset Item) : Finset (String × String) :=
  S.biUnion fun
    | .field _ table column => {(table, column)}
    | _ => ∅

theorem mem_columnsOf {S : Finset Item} {c : String × String} :
    c ∈ columnsOf S ↔ ∃ widget, Item.field widget c.1 c.2 ∈ S := by
  rw [columnsOf, Finset.mem_biUnion]
  constructor
  · rintro ⟨x, hx, hc⟩
    cases x with
    | field widget table column =>
      rw [Finset.mem_singleton] at hc
      exact ⟨widget, by rw [hc]; exact hx⟩
    | _ => simp at hc
  · rintro ⟨widget, hx⟩
    exact ⟨_, hx, Finset.mem_singleton_self c⟩

/-- More parts show more columns. -/
theorem columnsOf_mono {S T : Finset Item} (h : S ⊆ T) : columnsOf S ⊆ columnsOf T :=
  Finset.biUnion_subset_biUnion_of_subset_left _ h

namespace Shown

/-- Without what is hidden. -/
def without (shown hide : Shown) : Shown where
  pages := shown.pages \ hide.pages
  sections := shown.sections \ hide.sections
  widgets := shown.widgets \ hide.widgets
  fields := shown.fields \ hide.fields

/-- `{(table, column) for _, table, column in fields}`. -/
def columns (shown : Shown) : Finset (String × String) := shown.fields.image Prod.snd

/-- Its sheets, sections, components and fields as one set. -/
def items (shown : Shown) : Finset Item :=
  shown.pages.image .page ∪ shown.sections.image .sect ∪ shown.widgets.image .widget ∪
    shown.fields.image fun f => .field f.1 f.2.1 f.2.2

variable {shown hide : Shown}

@[simp] theorem page_mem_items {id : String} : .page id ∈ shown.items ↔ id ∈ shown.pages := by
  simp [items]

@[simp] theorem sect_mem_items {id : String} : .sect id ∈ shown.items ↔ id ∈ shown.sections := by
  simp [items]

@[simp] theorem widget_mem_items {id : String} : .widget id ∈ shown.items ↔ id ∈ shown.widgets := by
  simp [items]

@[simp] theorem field_mem_items {widget table column : String} :
    .field widget table column ∈ shown.items ↔ (widget, table, column) ∈ shown.fields := by
  simp [items]

/-- Hiding takes parts away. -/
theorem items_without : (shown.without hide).items = shown.items \ hide.items := by
  ext x
  cases x <;> simp [without]

/-- What is shown is determined by its parts. -/
theorem items_injective {S T : Shown} (h : S.items = T.items) : S = T := by
  ext x
  · rw [← page_mem_items, h, page_mem_items]
  · rw [← sect_mem_items, h, sect_mem_items]
  · rw [← widget_mem_items, h, widget_mem_items]
  · obtain ⟨widget, table, column⟩ := x
    rw [← field_mem_items, h, field_mem_items]

@[simp] theorem columnsOf_items : columnsOf shown.items = shown.columns := by
  ext ⟨table, column⟩
  simp [mem_columnsOf, columns]

/-- Nothing is shown when no page, section, widget or field is. -/
theorem items_eq_empty_iff :
    shown.items = ∅ ↔
      shown.pages = ∅ ∧ shown.sections = ∅ ∧ shown.widgets = ∅ ∧ shown.fields = ∅ := by
  simp [items, Finset.union_eq_empty]

end Shown

/-! ### A round -/

/-- Whether a round hides one thing of a level: `gone` is what goes with its container, and
the others of `live` are asked. -/
def hides {α ι : Type} [DecidableEq ι] (asks : ShowWhen → Except TestError Bool) (live : Finset ι)
    (id : α → ι) (gone : α → Bool) (showWhen : α → ShowWhen) (x : α) : Except TestError Bool :=
  if id x ∈ live then
    if gone x then return true else return !(← asks (showWhen x))
  else return false

/-- One level of a round: what of `live` is hidden. -/
def hidingOf {α ι : Type} [DecidableEq ι] (asks : ShowWhen → Except TestError Bool)
    (live : Finset ι)
    (id : α → ι) (gone : α → Bool) (showWhen : α → ShowWhen) (xs : List α) :
    Except TestError (Finset ι) := do
  let hidden ← selectM (hides asks live id gone showWhen) xs
  return (hidden.map id).toFinset

section HidingOf

variable {α ι : Type} [DecidableEq ι] {asks : ShowWhen → Except TestError Bool} {live H : Finset ι}
  {id : α → ι} {gone : α → Bool} {showWhen : α → ShowWhen} {xs : List α} {x : α}

/-- A part is decided on unless its condition is asked and raises. -/
theorem exists_hides_iff :
    (∃ b, hides asks live id gone showWhen x = .ok b) ↔
      (id x ∈ live → gone x = false → ∃ b, asks (showWhen x) = .ok b) := by
  by_cases hlive : id x ∈ live <;> cases hgone : gone x <;> cases hasks : asks (showWhen x) <;>
    simp [hides, hlive, hgone, hasks, pure, Except.pure, bind, Except.bind]

/-- A part is hidden when its holder is or its condition does not hold. -/
theorem passed_hides :
    passed (hides asks live id gone showWhen x) = true ↔
      id x ∈ live ∧ (gone x = true ∨ asks (showWhen x) = .ok false) := by
  by_cases hlive : id x ∈ live <;> cases hgone : gone x <;> cases hasks : asks (showWhen x) <;>
    simp [hides, hlive, hgone, hasks, pure, Except.pure, bind, Except.bind, passed]

/-- A level asks whatever does not go with its container, and hides that and what answers no. -/
theorem hidingOf_eq_ok_iff :
    hidingOf asks live id gone showWhen xs = .ok H ↔
      (∀ x ∈ xs, id x ∈ live → gone x = false → ∃ b, asks (showWhen x) = .ok b) ∧
        ∀ i, i ∈ H ↔ i ∈ live ∧ ∃ x ∈ xs, id x = i ∧
          (gone x = true ∨ asks (showWhen x) = .ok false) := by
  have hmem : ∀ i,
      i ∈ ((xs.filter fun x => passed (hides asks live id gone showWhen x)).map id).toFinset ↔
      i ∈ live ∧ ∃ x ∈ xs, id x = i ∧ (gone x = true ∨ asks (showWhen x) = .ok false) := by
    intro i
    simp only [List.mem_toFinset, List.mem_map, List.mem_filter, passed_hides]
    constructor
    · rintro ⟨x, ⟨hx, hlive, hwhy⟩, rfl⟩
      exact ⟨hlive, x, hx, rfl, hwhy⟩
    · rintro ⟨hlive, x, hx, rfl, hwhy⟩
      exact ⟨x, ⟨hx, hlive, hwhy⟩, rfl⟩
  unfold hidingOf
  constructor
  · intro h
    cases hselect : selectM (hides asks live id gone showWhen) xs with
    | error e => simp [hselect, bind, Except.bind] at h
    | ok hidden =>
      obtain ⟨hasked, rfl⟩ := selectM_eq_ok_iff.mp hselect
      simp only [hselect, bind, Except.bind, pure, Except.pure, Except.ok.injEq] at h
      subst h
      exact ⟨fun x hx => exists_hides_iff.mp (hasked x hx), hmem⟩
  · rintro ⟨hasked, hH⟩
    rw [selectM_eq_ok_iff.mpr ⟨fun x hx => exists_hides_iff.mpr (hasked x hx), rfl⟩]
    simp only [bind, Except.bind, pure, Except.pure, Except.ok.injEq]
    ext i
    rw [hH i, hmem i]

/-- A round passes a list of parts where every condition asked is decided. -/
theorem exists_hidingOf
    (h : ∀ x ∈ xs, id x ∈ live → gone x = false → ∃ b, asks (showWhen x) = .ok b) :
    ∃ H, hidingOf asks live id gone showWhen xs = .ok H := by
  classical
  refine ⟨live.filter fun i => ∃ x ∈ xs, id x = i ∧
    (gone x = true ∨ asks (showWhen x) = .ok false), ?_⟩
  exact hidingOf_eq_ok_iff.mpr ⟨h, fun i => by rw [Finset.mem_filter]⟩

end HidingOf

/-- What one round of `visibility` hides. -/
def roundHides (spec : FormSpec) (rows : Rows) (shown : Shown) : Except TestError Shown := do
  let asks := shows spec.tables rows shown.columns
  let pages ← hidingOf asks shown.pages Page.id (fun _ => false) Page.showWhen spec.pages
  let sections ← hidingOf asks shown.sections (fun x => x.2.id) (fun x => x.1.id ∈ pages)
    (fun x => x.2.showWhen) spec.placedSections
  let widgets ← hidingOf asks shown.widgets (fun x => x.2.id) (fun x => x.1.id ∈ sections)
    (fun x => x.2.showWhen) spec.placed
  let fields ← hidingOf asks shown.fields (fun x => (x.1, x.2.1.table, x.2.1.column))
    (fun x => x.1 ∈ widgets) (fun x => x.2.2) spec.entered
  return { pages, sections, widgets, fields }

section Round

variable {spec : FormSpec} {rows : Rows} {shown H : Shown}

/-- A round, level by level. -/
theorem roundHides_eq_ok_iff :
    roundHides spec rows shown = .ok H ↔
      hidingOf (shows spec.tables rows shown.columns) shown.pages Page.id
        (fun _ => false) Page.showWhen
        spec.pages = .ok H.pages ∧
      hidingOf (shows spec.tables rows shown.columns) shown.sections (fun x => x.2.id)
        (fun x => x.1.id ∈ H.pages) (fun x => x.2.showWhen) spec.placedSections = .ok H.sections ∧
      hidingOf (shows spec.tables rows shown.columns) shown.widgets (fun x => x.2.id)
        (fun x => x.1.id ∈ H.sections) (fun x => x.2.showWhen) spec.placed = .ok H.widgets ∧
      hidingOf (shows spec.tables rows shown.columns) shown.fields
        (fun x => (x.1, x.2.1.table, x.2.1.column)) (fun x => x.1 ∈ H.widgets) (fun x => x.2.2)
        spec.entered = .ok H.fields := by
  unfold roundHides
  constructor
  · intro h
    simp only [bind, Except.bind] at h
    split at h
    · cases h
    rename_i pages hpages
    split at h
    · cases h
    rename_i sections hsections
    split at h
    · cases h
    rename_i widgets hwidgets
    split at h
    · cases h
    rename_i fields hfields
    cases h
    exact ⟨hpages, hsections, hwidgets, hfields⟩
  · rintro ⟨hpages, hsections, hwidgets, hfields⟩
    simp only [hpages, hsections, hwidgets, hfields, bind, Except.bind, pure, Except.pure]

/-- A round's specification: it hides what is on something it hides and what answers no, and
it has asked everything else. -/
theorem roundHides_spec (h : roundHides spec rows shown = .ok H) :
    (∀ x, x ∈ H.items ↔ x ∈ shown.items ∧ ∃ part ∈ spec.parts, part.item = x ∧
      ((∃ c, part.container = some c ∧ c ∈ H.items) ∨
        shows spec.tables rows shown.columns part.showWhen = .ok false)) ∧
      ∀ part ∈ spec.parts, part.item ∈ shown.items →
        (∀ c, part.container = some c → c ∉ H.items) →
          ∃ b, shows spec.tables rows shown.columns part.showWhen = .ok b := by
  obtain ⟨hpages, hsections, hwidgets, hfields⟩ := roundHides_eq_ok_iff.mp h
  rw [hidingOf_eq_ok_iff] at hpages hsections hwidgets hfields
  constructor
  · intro x
    simp only [FormSpec.parts, List.mem_append, List.mem_map, or_and_right, exists_or]
    cases x with
    | page id => simp [hpages.2]
    | sect id => simp [hsections.2]
    | widget id => simp [hwidgets.2]
    | field widget table column =>
      simp only [Shown.field_mem_items, hfields.2, Prod.mk.injEq, decide_eq_true_eq]
      simp [and_assoc]
  · intro part hpart hshown hcontainer
    simp only [FormSpec.parts, List.mem_append, List.mem_map] at hpart
    obtain ((⟨page, hp, rfl⟩ | ⟨⟨page, sect⟩, hs, rfl⟩) | ⟨⟨sect, widget⟩, hw, rfl⟩) | ⟨⟨widget,
        field, showWhen⟩, hf, rfl⟩ := hpart
    · exact hpages.1 page hp (Shown.page_mem_items.mp hshown) rfl
    · exact hsections.1 (page, sect) hs (Shown.sect_mem_items.mp hshown)
        (decide_eq_false fun hgone => hcontainer _ rfl (Shown.page_mem_items.mpr hgone))
    · exact hwidgets.1 (sect, widget) hw (Shown.widget_mem_items.mp hshown)
        (decide_eq_false fun hgone => hcontainer _ rfl (Shown.sect_mem_items.mpr hgone))
    · exact hfields.1 (widget, field, showWhen) hf (Shown.field_mem_items.mp hshown)
        (decide_eq_false fun hgone => hcontainer _ rfl (Shown.widget_mem_items.mpr hgone))

/-- A round hides only what is shown. -/
theorem roundHides_subset (h : roundHides spec rows shown = .ok H) : H.items ⊆ shown.items :=
  fun x hx => (((roundHides_spec h).1 x).mp hx).1

end Round

/-! ### The rounds -/

/-- The loop of `visibility`: until a round hides nothing. -/
def rounds (spec : FormSpec) (rows : Rows) (shown : Shown) : Except TestError Shown :=
  match _ : roundHides spec rows shown with
  | .error e => .error e
  | .ok hide =>
    if _ : hide.pages = ∅ ∧ hide.sections = ∅ ∧ hide.widgets = ∅ ∧ hide.fields = ∅ then .ok shown
    else rounds spec rows (shown.without hide)
termination_by shown.items.card
decreasing_by
  rename_i h hempty
  rw [← Shown.items_eq_empty_iff] at hempty
  rw [Shown.items_without]
  exact Finset.card_lt_card
    (Finset.sdiff_ssubset (roundHides_subset h) (Finset.nonempty_iff_ne_empty.mpr hempty))

/-- What shows for some values typed into the sheets, and the input columns left out of the
quote. -/
structure Visibility extends Shown where
  hidden : Finset (String × String)

/-- Everything, to start with. -/
def FormSpec.initial (spec : FormSpec) : Shown where
  pages := (spec.pages.map Page.id).toFinset
  sections := (spec.placedSections.map fun x => x.2.id).toFinset
  widgets := (spec.placed.map fun x => x.2.id).toFinset
  fields := (spec.entered.map fun x => (x.1, x.2.1.table, x.2.1.column)).toFinset

/-- The columns on a component. -/
def FormSpec.onWidgets (spec : FormSpec) : Finset (String × String) :=
  (spec.entered.map fun x => (x.2.1.table, x.2.1.column)).toFinset

/-- The input columns other than the index. -/
def inputColumns (tables : List SchemaTable) : Finset (String × String) :=
  ((tables.filter SchemaTable.hasInputs).flatMap fun table =>
    (table.inputs.filter fun column => column.index.isNone).map fun column =>
      (table.name, column.name)).toFinset

/-- `visibility`. -/
def visibility (spec : FormSpec) (rows : Rows) : Except TestError Visibility := do
  let shown ← rounds spec rows spec.initial
  return { shown with hidden := (spec.onWidgets \ shown.columns) ∩ inputColumns spec.tables }

/-- At first every part is shown. -/
theorem FormSpec.items_initial (spec : FormSpec) : spec.initial.items = spec.everything := by
  ext x
  rw [mem_everything]
  simp only [parts, List.mem_append, List.mem_map, or_and_right, exists_or]
  cases x <;> simp [initial]

/-! ### The question a choice answers -/

/-- An item may stay in a choice: what holds it is in the choice, and its `show_when` holds
with only the choice's fields taken as shown. -/
def Keeps (spec : FormSpec) (rows : Rows) (S : Finset Item) (x : Item) : Prop :=
  ∀ part ∈ spec.parts, part.item = x →
    (∀ c, part.container = some c → c ∈ S) ∧
      shows spec.tables rows (columnsOf S) part.showWhen = .ok true

/-- An item may not stay. -/
def Fails (spec : FormSpec) (rows : Rows) (S : Finset Item) (x : Item) : Prop :=
  ∃ part ∈ spec.parts, part.item = x ∧
    ((∃ c, part.container = some c ∧ c ∉ S) ∨
      shows spec.tables rows (columnsOf S) part.showWhen = .ok false)

/-- What may stay in a choice does not fail in a larger one. -/
theorem not_fails_of_keeps {spec : FormSpec} {rows : Rows} (T S : Finset Item)
    (x : Item) (h : T ⊆ S)
    (hkeeps : Keeps spec rows T x) : ¬ Fails spec rows S x := by
  rintro ⟨part, hpart, hitem, ⟨c, hc, hout⟩ | hfalse⟩
  · exact hout (h ((hkeeps part hpart hitem).1 c hc))
  · exact shows_anti (columnsOf_mono h) (.refl _) hfalse (hkeeps part hpart hitem).2

section Rounds

variable {spec : FormSpec} {rows : Rows} {shown H V : Shown}

/-- Whatever shows is on something that shows. -/
def Shown.Closed (spec : FormSpec) (shown : Shown) : Prop :=
  ∀ part ∈ spec.parts, part.item ∈ shown.items → ∀ c, part.container = some c → c ∈ shown.items

/-- At first no part is shown without its holder. -/
theorem FormSpec.closed_initial (spec : FormSpec) : spec.initial.Closed spec := by
  intro part hpart _ c hc
  rw [spec.items_initial]
  exact spec.container_mem_everything hpart hc

/-- A round hides what is on what it hides. -/
theorem Shown.Closed.without (hclosed : shown.Closed spec)
    (h : roundHides spec rows shown = .ok H) :
    (shown.without H).Closed spec := by
  intro part hpart hitem c hc
  rw [Shown.items_without, Finset.mem_sdiff] at hitem ⊢
  refine ⟨hclosed part hpart hitem.1 c hc, fun hgone => hitem.2 ?_⟩
  exact ((roundHides_spec h).1 part.item).mpr ⟨hitem.1, part, hpart, rfl, .inl ⟨c, hc, hgone⟩⟩

/-- The rounds' rule: what a round keeps, the rounds keep, and they end with a round that
hides nothing. -/
theorem rounds_induction {P : Shown → Prop} (h : rounds spec rows shown = .ok V) (hstart : P shown)
    (hround : ∀ S H, P S → roundHides spec rows S = .ok H → P (S.without H)) :
    P V ∧ V.items ⊆ shown.items ∧ ∃ H, roundHides spec rows V = .ok H ∧ H.items = ∅ := by
  induction hn : shown.items.card using Nat.strong_induction_on generalizing shown with
  | _ n ih =>
    subst hn
    rw [rounds] at h
    split at h
    · cases h
    · rename_i hide hhide
      split at h
      · rename_i hempty
        cases h
        exact ⟨hstart, subset_rfl, hide, hhide, Shown.items_eq_empty_iff.mpr hempty⟩
      · rename_i hne
        rw [← Shown.items_eq_empty_iff] at hne
        have hlt : (shown.without hide).items.card < shown.items.card := by
          rw [Shown.items_without]
          exact Finset.card_lt_card
            (Finset.sdiff_ssubset (roundHides_subset hhide) (Finset.nonempty_iff_ne_empty.mpr hne))
        obtain ⟨hV, hsub, hlast⟩ := ih _ hlt h (hround shown hide hstart hhide) rfl
        refine ⟨hV, hsub.trans ?_, hlast⟩
        rw [Shown.items_without]
        exact Finset.sdiff_subset

/-- Where the rounds end, everything shown may stay. -/
theorem consistent_of_rounds (hclosed : shown.Closed spec) (h : rounds spec rows shown = .ok V) :
    Consistent (Keeps spec rows) V.items := by
  obtain ⟨hV, -, H, hH, hempty⟩ := rounds_induction h hclosed fun S H hS hhide => hS.without hhide
  obtain ⟨hhidden, hasked⟩ := roundHides_spec hH
  rintro x hx part hpart rfl
  refine ⟨fun c hc => hV part hpart hx c hc, ?_⟩
  obtain ⟨b, hb⟩ := hasked part hpart hx fun c _ => by simp [hempty]
  rw [Shown.columnsOf_items]
  cases b with
  | true => exact hb
  | false =>
    have hgone := (hhidden part.item).mpr ⟨hx, part, hpart, rfl, .inr hb⟩
    simp [hempty] at hgone

/-- The rounds end well if each round asks without an error. -/
theorem exists_rounds {P : Shown → Prop} (hstart : P shown)
    (hround : ∀ S, P S → ∃ H, roundHides spec rows S = .ok H ∧ P (S.without H)) :
    ∃ V, rounds spec rows shown = .ok V := by
  induction hn : shown.items.card using Nat.strong_induction_on generalizing shown with
  | _ n ih =>
    subst hn
    obtain ⟨hide, hhide, hP⟩ := hround shown hstart
    rw [rounds]
    split
    · rename_i e he
      rw [hhide] at he
      cases he
    · rename_i hide' hhide'
      obtain rfl : hide = hide' := by
        rw [hhide] at hhide'
        exact Except.ok.inj hhide'
      split
      · exact ⟨shown, rfl⟩
      · rename_i hne
        rw [← Shown.items_eq_empty_iff] at hne
        refine ih _ ?_ hP rfl
        rw [Shown.items_without]
        exact Finset.card_lt_card
          (Finset.sdiff_ssubset (roundHides_subset hhide) (Finset.nonempty_iff_ne_empty.mpr hne))

end Rounds

end Haute.Workbench
