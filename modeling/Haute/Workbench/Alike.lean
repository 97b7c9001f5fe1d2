import Haute.Workbench.AlikeRows
import Haute.Workbench.Greatest

/-!
# The server and the view show alike

`viewed` spells what the server shows with the view's keys. Round by round the two stay equal,
wherever both answer: what the view keeps is what the server does not hide, since a form's ids
are its own and whatever shows is on something that shows.

Either can fail to answer: the server on a whole number of too many digits, the view on a list
not typed in whose name it finds in every object. In every order of a form both answer exactly
when each can test, with everything shown, whatever could be the first condition tested.
-/

namespace Haute.Workbench

open Haute.Data

/-- A form as its folder and its own checks hold it: a schema told apart by its names, each
sheet's, section's and component's id its own, one look for a column, and fields named as the
schema's columns are. -/
structure HeldForm where
  spec : FormSpec
  schema : HeldSchema spec.tables
  pageIds : (spec.pages.map Page.id).Nodup
  sectionIds : (spec.placedSections.map fun x => x.2.id).Nodup
  widgetIds : (spec.placed.map fun x => x.2.id).Nodup
  looks : ∀ x ∈ spec.placed, (x.2.columnLooks.map fun look => (look.table, look.column)).Nodup
  refs : ∀ x ∈ spec.entered, ':' ∉ x.2.1.table.toList ∧ ':' ∉ x.2.1.column.toList

/-- The view's key of a field determines it where no name has a colon. -/
theorem fieldKey_inj {w t c w' t' c' : String} (ht : ':' ∉ t.toList) (hc : ':' ∉ c.toList)
    (ht' : ':' ∉ t'.toList) (hc' : ':' ∉ c'.toList)
    (h : View.fieldKey w t c = View.fieldKey w' t' c') :
    (w, t, c) = (w', t', c') := by
  have hassoc : View.columnKey (w ++ ":" ++ t) c = View.columnKey (w' ++ ":" ++ t') c' := by
    simpa [View.fieldKey, View.columnKey, String.append_assoc] using h
  obtain ⟨hwt, rfl⟩ := columnKey_inj hc hc' hassoc
  obtain ⟨rfl, rfl⟩ := columnKey_inj ht ht' hwt
  rfl

/-- What the server shows, the fields by the view's keys. -/
def Shown.viewed (shown : Shown) : View.Showing where
  pages := shown.pages
  sections := shown.sections
  widgets := shown.widgets
  fields := shown.fields.image fun f => View.fieldKey f.1 f.2.1 f.2.2

/-- What the server answers, by the view's keys. -/
def Visibility.viewed (visible : Visibility) : View.SheetVisibility :=
  { visible.toShown.viewed with
    hidden := visible.hidden.image fun c => View.columnKey c.1 c.2 }

/-- What of the form shows, on something of it that shows. -/
structure Shown.Within (form : HeldForm) (shown : Shown) : Prop where
  closed : shown.Closed form.spec
  sub : shown.items ⊆ form.spec.everything

namespace FormSpec

/-- Every page is a part of its form. -/
theorem mem_parts_page (spec : FormSpec) {x : Page} (h : x ∈ spec.pages) :
    ⟨.page x.id, none, x.showWhen⟩ ∈ spec.parts := by
  simp only [parts, List.mem_append, List.mem_map]
  exact .inl (.inl (.inl ⟨x, h, rfl⟩))

/-- Every section is a part of its form, held by its page. -/
theorem mem_parts_sect (spec : FormSpec) {x : Page × Section} (h : x ∈ spec.placedSections) :
    ⟨.sect x.2.id, some (.page x.1.id), x.2.showWhen⟩ ∈ spec.parts := by
  simp only [parts, List.mem_append, List.mem_map]
  exact .inl (.inl (.inr ⟨x, h, rfl⟩))

/-- Every widget is a part of its form, held by its section. -/
theorem mem_parts_widget (spec : FormSpec) {x : Section × Widget} (h : x ∈ spec.placed) :
    ⟨.widget x.2.id, some (.sect x.1.id), x.2.showWhen⟩ ∈ spec.parts := by
  simp only [parts, List.mem_append, List.mem_map]
  exact .inl (.inr ⟨x, h, rfl⟩)

/-- Every entered field is a part of its form, held by its widget. -/
theorem mem_parts_field (spec : FormSpec) {x : String × FieldRef × ShowWhen}
    (h : x ∈ spec.entered) :
    ⟨.field x.1 x.2.1.table x.2.1.column, some (.widget x.1), x.2.2⟩ ∈ spec.parts := by
  simp only [parts, List.mem_append, List.mem_map]
  exact .inr ⟨x, h, rfl⟩

end FormSpec

section Rounds

variable {form : HeldForm} {rows : Rows} {shown H V : Shown}

/-- All of a form lies within it. -/
theorem Shown.Within.initial (form : HeldForm) : form.spec.initial.Within form :=
  ⟨form.spec.closed_initial, by rw [form.spec.items_initial]⟩

/-- What a round leaves lies within the form. -/
theorem Shown.Within.without (h : shown.Within form)
    (hH : roundHides form.spec rows shown = .ok H) :
    (shown.without H).Within form :=
  ⟨h.closed.without hH, by rw [Shown.items_without]; exact Finset.sdiff_subset.trans h.sub⟩

/-- A look's place is its own, so the first is the last. -/
theorem HeldForm.entered_eq (form : HeldForm) : View.entered form.spec = form.spec.entered := by
  unfold View.entered FormSpec.entered
  refine List.flatMap_congr fun x hx => ?_
  have hlooks : ∀ field : FieldRef, (x.2.columnLooks.reverse.find? fun look =>
      look.table = field.table ∧ look.column = field.column) =
      x.2.columnLooks.find? fun look => look.table = field.table ∧ look.column = field.column := by
    intro field
    have hsame := find?_reverse_key (k := (field.table, field.column)) (form.looks x hx)
    simpa only [Prod.mk.injEq] using hsame
  simp only [View.enteredFields, Workbench.entered, hlooks]

/-- Two of a form's fields on one component, of one column, show at once. -/
theorem HeldForm.showWhen_eq (form : HeldForm) {x y : String × FieldRef × ShowWhen}
    (hx : x ∈ form.spec.entered) (hy : y ∈ form.spec.entered)
    (h : (x.1, x.2.1.table, x.2.1.column) = (y.1, y.2.1.table, y.2.1.column)) : x = y := by
  simp only [FormSpec.entered, List.mem_flatMap, List.mem_map] at hx hy
  obtain ⟨a, ha, ⟨field, showWhen⟩, hfield, rfl⟩ := hx
  obtain ⟨b, hb, ⟨field', showWhen'⟩, hfield', rfl⟩ := hy
  simp only [Prod.mk.injEq] at h
  obtain ⟨hid, htable, hcolumn⟩ := h
  obtain rfl := List.inj_on_of_nodup_map form.widgetIds ha hb hid
  obtain rfl : field = field' := by
    cases field
    cases field'
    simp_all
  simp only [Workbench.entered] at hfield hfield'
  split at hfield
  · simp at hfield
  · rename_i hkind
    rw [if_neg hkind] at hfield'
    simp only [List.mem_map, Prod.mk.injEq] at hfield hfield'
    obtain ⟨_, -, rfl, rfl⟩ := hfield
    obtain ⟨_, -, rfl, rfl⟩ := hfield'
    rfl

/-- One level of a round: what stays in the view, where it can be asked, is what is not hidden. -/
theorem staying_eq {α ι : Type} [DecidableEq ι] {asks : ShowWhen → Except TestError Bool}
    {live H : Finset ι}
    {id : α → ι} {gone on : α → Bool} {passes : α → Except View.Thrown Bool}
    {showWhen : α → ShowWhen}
    {xs : List α} {stay : Finset String} (key : ι → String)
    (hkey : ∀ x ∈ xs, ∀ y ∈ xs, key (id x) = key (id y) → id x = id y)
    (hsame : ∀ x ∈ xs, ∀ y ∈ xs, id x = id y → x = y)
    (hlive : ∀ i ∈ live, ∃ x ∈ xs, id x = i)
    (hH : hidingOf asks live id gone showWhen xs = .ok H)
    (hstay : View.staying (live.image key) (fun x => key (id x)) on passes xs = .ok stay)
    (hon : ∀ x ∈ xs, id x ∈ live → on x = !gone x)
    (hpasses : ∀ x ∈ xs, ∀ b c, asks (showWhen x) = .ok b → passes x = .ok c → c = b) :
    stay = (live \ H).image key := by
  rw [hidingOf_eq_ok_iff] at hH
  obtain ⟨hasked, hhidden⟩ := hH
  have hmem : ∀ x ∈ xs, key (id x) ∈ live.image key ↔ id x ∈ live := by
    intro x hx
    rw [Finset.mem_image]
    constructor
    · rintro ⟨i, hi, hsame⟩
      obtain ⟨y, hy, rfl⟩ := hlive i hi
      rwa [← hkey y hy x hx hsame]
    · exact fun hi => ⟨id x, hi, rfl⟩
  -- what is no longer shown is gone with its container or fails its test, on both sides
  ext k
  rw [View.mem_staying_iff hstay]
  constructor
  · rintro ⟨x, hx, rfl, hin, honx, hpass⟩
    have hin : id x ∈ live := (hmem x hx).mp hin
    refine Finset.mem_image.mpr ⟨id x, Finset.mem_sdiff.mpr ⟨hin, fun hgone => ?_⟩, rfl⟩
    obtain ⟨-, y, hy, hid, hwhy⟩ := (hhidden (id x)).mp hgone
    obtain rfl := hsame y hy x hx hid
    obtain hgone | hfalse := hwhy
    · rw [hon y hy hin, hgone] at honx
      cases honx
    · cases hpasses y hy false true hfalse hpass
  · intro hk
    obtain ⟨i, hi, rfl⟩ := Finset.mem_image.mp hk
    obtain ⟨hin, hstays⟩ := Finset.mem_sdiff.mp hi
    obtain ⟨x, hx, rfl⟩ := hlive i hin
    have hgone : gone x = false := by
      cases hgone : gone x with
      | false => rfl
      | true => exact absurd ((hhidden (id x)).mpr ⟨hin, x, hx, rfl, .inl hgone⟩) hstays
    have honx : on x = true := by rw [hon x hx hin, hgone]; rfl
    have hin' : key (id x) ∈ live.image key := (hmem x hx).mpr hin
    obtain ⟨b, hb⟩ := hasked x hx hin hgone
    obtain ⟨c, hc⟩ := (View.staying_eq_ok_iff.mp hstay).1 x hx hin' honx
    obtain rfl := hpasses x hx b c hb hc
    cases c with
    | true => exact ⟨x, hx, rfl, hin', honx, hc⟩
    | false => exact absurd ((hhidden (id x)).mpr ⟨hin, x, hx, rfl, .inr hb⟩) hstays

/-- A level told apart by its own ids. -/
theorem staying_eq_sdiff {α : Type} {asks : ShowWhen → Except TestError Bool}
    {live H stay : Finset String}
    {id : α → String} {gone on : α → Bool} {passes : α → Except View.Thrown Bool}
    {showWhen : α → ShowWhen}
    {xs : List α} (hids : (xs.map id).Nodup) (hlive : live ⊆ (xs.map id).toFinset)
    (hH : hidingOf asks live id gone showWhen xs = .ok H)
    (hstay : View.staying live id on passes xs = .ok stay)
    (hon : ∀ x ∈ xs, id x ∈ live → on x = !gone x)
    (hpasses : ∀ x ∈ xs, ∀ b c, asks (showWhen x) = .ok b → passes x = .ok c → c = b) :
    stay = live \ H := by
  have hstays := staying_eq (fun i => i) (fun _ _ _ _ h => h)
    (fun x hx y hy h => List.inj_on_of_nodup_map hids hx hy h)
    (fun i hi => by simpa using hlive hi) hH (by rwa [Finset.image_id']) hon hpasses
  simpa using hstays

/-- A field that shows is one of the form's. -/
theorem Shown.Within.exists_field (h : shown.Within form) {f : String × String × String}
    (hf : f ∈ shown.fields) : ∃ x ∈ form.spec.entered, (x.1, x.2.1.table, x.2.1.column) = f := by
  have hitem := h.sub (Shown.field_mem_items.mpr hf)
  rw [FormSpec.mem_everything] at hitem
  obtain ⟨part, hpart, hitem⟩ := hitem
  simp only [FormSpec.parts, List.mem_append, List.mem_map] at hpart
  obtain ((⟨page, _, rfl⟩ | ⟨⟨page, sect⟩, _, rfl⟩) | ⟨⟨sect, widget⟩, _, rfl⟩) | ⟨x, hx, rfl⟩ :=
    hpart
  · cases hitem
  · cases hitem
  · cases hitem
  · simp only [Item.field.injEq] at hitem
    exact ⟨x, hx, Prod.ext hitem.1 (Prod.ext hitem.2.1 hitem.2.2)⟩

/-- The view's keys tell the entered fields of a held form apart. -/
theorem HeldForm.keyOf_inj (form : HeldForm) {x y : String × FieldRef × ShowWhen}
    (hx : x ∈ form.spec.entered) (hy : y ∈ form.spec.entered) (h : View.keyOf x = View.keyOf y) :
    (x.1, x.2.1.table, x.2.1.column) = (y.1, y.2.1.table, y.2.1.column) :=
  fieldKey_inj (form.refs x hx).1 (form.refs x hx).2 (form.refs y hy).1 (form.refs y hy).2 h

/-- The view's keys of the columns shown. -/
theorem Shown.Within.keyed (h : shown.Within form) :
    Keyed shown.columns (View.shownColumns form.spec shown.viewed.fields) := by
  intro table column hcolumn
  simp only [View.shownColumns, form.entered_eq, List.mem_toFinset, List.mem_map, List.mem_filter,
    decide_eq_true_eq, Shown.viewed, Finset.mem_image, Shown.columns]
  constructor
  · rintro ⟨x, ⟨hx, f, hf, hkey⟩, hsame⟩
    obtain ⟨y, hy, rfl⟩ := h.exists_field hf
    have hfield := form.keyOf_inj hy hx hkey
    obtain ⟨htable, hcolumn'⟩ := columnKey_inj (form.refs x hx).2 hcolumn hsame
    refine ⟨_, hf, ?_⟩
    simp only [Prod.mk.injEq] at hfield ⊢
    exact ⟨hfield.2.1.trans htable, hfield.2.2.trans hcolumn'⟩
  · rintro ⟨f, hf, hpair⟩
    obtain ⟨x, hx, rfl⟩ := h.exists_field hf
    obtain ⟨rfl, rfl⟩ := Prod.mk.injEq .. ▸ hpair
    exact ⟨x, ⟨hx, _, hf, rfl⟩, rfl⟩

/-- What shows of a level is of the form. -/
theorem Shown.Within.subset_initial (h : shown.Within form) :
    shown.pages ⊆ form.spec.initial.pages ∧ shown.sections ⊆ form.spec.initial.sections ∧
      shown.widgets ⊆ form.spec.initial.widgets ∧ shown.fields ⊆ form.spec.initial.fields := by
  have hsub := h.sub
  rw [← form.spec.items_initial] at hsub
  refine ⟨fun i hi => ?_, fun i hi => ?_, fun i hi => ?_, fun f hf => ?_⟩
  · exact Shown.page_mem_items.mp (hsub (Shown.page_mem_items.mpr hi))
  · exact Shown.sect_mem_items.mp (hsub (Shown.sect_mem_items.mpr hi))
  · exact Shown.widget_mem_items.mp (hsub (Shown.widget_mem_items.mpr hi))
  · exact Shown.field_mem_items.mp (hsub (Shown.field_mem_items.mpr hf))

/-- What holds a part that shows, shows. -/
theorem Shown.Within.container_mem (h : shown.Within form) {item container : Item}
    {showWhen : ShowWhen}
    (hpart : ⟨item, some container, showWhen⟩ ∈ form.spec.parts) (hitem : item ∈ shown.items) :
    container ∈ shown.items :=
  h.closed _ hpart hitem container rfl

theorem on_eq_not_gone {i : String} {live hidden : Finset String} (h : i ∈ live) :
    decide (i ∈ live \ hidden) = !decide (i ∈ hidden) := by
  by_cases hi : i ∈ hidden <;> simp [h, hi]

/-- What hides something leaves fewer of a level. -/
theorem viewed_card_lt (h : shown.Within form) (hsub : H.items ⊆ shown.items)
    (hne : ¬ (H.pages = ∅ ∧ H.sections = ∅ ∧ H.widgets = ∅ ∧ H.fields = ∅)) :
    (shown.without H).viewed.pages.card < shown.viewed.pages.card ∨
      (shown.without H).viewed.sections.card < shown.viewed.sections.card ∨
      (shown.without H).viewed.widgets.card < shown.viewed.widgets.card ∨
      (shown.without H).viewed.fields.card < shown.viewed.fields.card := by
  have hless : ∀ {ι : Type} [DecidableEq ι] {live hidden : Finset ι}, hidden ⊆ live → hidden ≠ ∅ →
      (live \ hidden).card < live.card := fun hhidden hempty =>
    Finset.card_lt_card (Finset.sdiff_ssubset hhidden (Finset.nonempty_iff_ne_empty.mpr hempty))
  have hinjOn : Set.InjOn (fun f : String × String × String => View.fieldKey f.1 f.2.1 f.2.2)
      shown.fields := by
    intro f hf g hg hkey
    obtain ⟨x, hx, rfl⟩ := h.exists_field hf
    obtain ⟨y, hy, rfl⟩ := h.exists_field hg
    exact form.keyOf_inj hx hy hkey
  by_cases hpages : H.pages = ∅
  · by_cases hsections : H.sections = ∅
    · by_cases hwidgets : H.widgets = ∅
      · have hfields : H.fields ≠ ∅ := fun hfields => hne ⟨hpages, hsections, hwidgets, hfields⟩
        refine .inr (.inr (.inr ?_))
        simp only [Shown.viewed, Shown.without]
        rw [Finset.card_image_of_injOn hinjOn,
          Finset.card_image_of_injOn (hinjOn.mono (by simp))]
        exact hless
          (fun f hf => Shown.field_mem_items.mp (hsub (Shown.field_mem_items.mpr hf))) hfields
      · exact .inr (.inr (.inl (hless
          (fun i hi => Shown.widget_mem_items.mp (hsub (Shown.widget_mem_items.mpr hi))) hwidgets)))
    · exact .inr (.inl (hless
        (fun i hi => Shown.sect_mem_items.mp (hsub (Shown.sect_mem_items.mpr hi))) hsections))
  · exact .inl
      (hless (fun i hi => Shown.page_mem_items.mp (hsub (Shown.page_mem_items.mpr hi))) hpages)

section Levels

variable {pages sections widgets stay : Finset String} {fields : Finset (String × String × String)}

/-- The view's questions in a round, answered as the server's. -/
theorem Shown.Within.passes (h : shown.Within form) {showWhen : ShowWhen} {b c : Bool}
    (hb : shows form.spec.tables rows shown.columns showWhen = .ok b)
    (hc : shown.viewed.asks form.spec rows showWhen = .ok c) : c = b :=
  showWhenPasses_of_ok form.schema h.keyed hb hc

/-- The pages that stay in the view's round are those that the server's round does not hide. -/
theorem staying_pages (h : shown.Within form)
    (hpages : hidingOf (shows form.spec.tables rows shown.columns) shown.pages Page.id
      (fun _ => false)
      Page.showWhen form.spec.pages = .ok pages)
    (hstay : View.staying shown.viewed.pages Page.id (fun _ => true)
      (fun page => shown.viewed.asks form.spec rows page.showWhen) form.spec.pages = .ok stay) :
    stay = shown.pages \ pages :=
  staying_eq_sdiff form.pageIds h.subset_initial.1 hpages hstay (fun _ _ _ => rfl)
    fun _ _ _ _ => h.passes

/-- The sections that stay in the view's round are those that the server's round does not hide. -/
theorem staying_sections (h : shown.Within form)
    (hsections : hidingOf (shows form.spec.tables rows shown.columns) shown.sections
      (fun x => x.2.id)
      (fun x => x.1.id ∈ pages) (fun x => x.2.showWhen) form.spec.placedSections = .ok sections)
    (hstay : View.staying shown.viewed.sections (fun x => x.2.id)
      (fun x => x.1.id ∈ shown.pages \ pages)
      (fun x => shown.viewed.asks form.spec rows x.2.showWhen) form.spec.placedSections =
        .ok stay) :
    stay = shown.sections \ sections := by
  refine staying_eq_sdiff form.sectionIds h.subset_initial.2.1 hsections hstay
    (fun x hx hlive => ?_)
    fun _ _ _ _ => h.passes
  exact on_eq_not_gone (Shown.page_mem_items.mp (h.container_mem (form.spec.mem_parts_sect hx)
    (Shown.sect_mem_items.mpr hlive)))

/-- The widgets that stay in the view's round are those that the server's round does not hide. -/
theorem staying_widgets (h : shown.Within form)
    (hwidgets : hidingOf (shows form.spec.tables rows shown.columns) shown.widgets (fun x => x.2.id)
      (fun x => x.1.id ∈ sections) (fun x => x.2.showWhen) form.spec.placed = .ok widgets)
    (hstay : View.staying shown.viewed.widgets (fun x => x.2.id)
      (fun x => x.1.id ∈ shown.sections \ sections)
      (fun x => shown.viewed.asks form.spec rows x.2.showWhen) form.spec.placed = .ok stay) :
    stay = shown.widgets \ widgets := by
  refine staying_eq_sdiff form.widgetIds h.subset_initial.2.2.1 hwidgets hstay
    (fun x hx hlive => ?_)
    fun _ _ _ _ => h.passes
  exact on_eq_not_gone (Shown.sect_mem_items.mp (h.container_mem (form.spec.mem_parts_widget hx)
    (Shown.widget_mem_items.mpr hlive)))

/-- The fields that stay in the view's round are those that the server's round does not hide. -/
theorem staying_fields (h : shown.Within form)
    (hfields : hidingOf (shows form.spec.tables rows shown.columns) shown.fields
      (fun x => (x.1, x.2.1.table, x.2.1.column)) (fun x => x.1 ∈ widgets) (fun x => x.2.2)
      form.spec.entered = .ok fields)
    (hstay : View.staying shown.viewed.fields View.keyOf (fun x => x.1 ∈ shown.widgets \ widgets)
      (fun x => shown.viewed.asks form.spec rows x.2.2) (View.entered form.spec) = .ok stay) :
    stay = (shown.fields \ fields).image fun f => View.fieldKey f.1 f.2.1 f.2.2 := by
  rw [form.entered_eq] at hstay
  refine staying_eq (fun f : String × String × String => View.fieldKey f.1 f.2.1 f.2.2)
    (fun x hx y hy hkey => form.keyOf_inj hx hy hkey)
      (fun x hx y hy hid => form.showWhen_eq hx hy hid)
    (fun f hf => h.exists_field hf) hfields hstay (fun x hx hlive => ?_) fun _ _ _ _ => h.passes
  exact on_eq_not_gone (Shown.widget_mem_items.mp (h.container_mem (form.spec.mem_parts_field hx)
    (Shown.field_mem_items.mpr hlive)))

end Levels

/-- A round of the view keeps what the server's does not hide. -/
theorem nextRound_viewed {next : View.Showing} (h : shown.Within form)
    (hH : roundHides form.spec rows shown = .ok H)
    (hnext : View.nextRound form.spec rows shown.viewed = .ok next) :
    next = (shown.without H).viewed := by
  obtain ⟨hpages, hsections, hwidgets, hfields⟩ := roundHides_eq_ok_iff.mp hH
  obtain ⟨vpages, vsections, vwidgets, vfields⟩ := View.nextRound_eq_ok_iff.mp hnext
  have epages := staying_pages h hpages vpages
  rw [epages] at vsections
  have esections := staying_sections h hsections vsections
  rw [esections] at vwidgets
  have ewidgets := staying_widgets h hwidgets vwidgets
  rw [ewidgets] at vfields
  exact View.Showing.ext epages esections ewidgets (staying_fields h hfields vfields)

/-- The view makes a round the server makes, where it can ask what shows, on what the round
leaves. -/
theorem exists_nextRound (h : shown.Within form) (hH : roundHides form.spec rows shown = .ok H)
    (hasked : ∀ part ∈ form.spec.parts, part.item ∈ shown.items →
      (∀ c, part.container = some c → c ∈ shown.items ∧ c ∉ H.items) →
        ∃ b, shown.viewed.asks form.spec rows part.showWhen = .ok b) :
    ∃ next, View.nextRound form.spec rows shown.viewed = .ok next := by
  obtain ⟨hpages, hsections, hwidgets, hfields⟩ := roundHides_eq_ok_iff.mp hH
  have hon : ∀ {item container : Item} {showWhen : ShowWhen},
      ⟨item, some container, showWhen⟩ ∈ form.spec.parts → item ∈ shown.items →
        container ∉ H.items →
        ∃ b, shown.viewed.asks form.spec rows showWhen = .ok b := by
    intro item container showWhen hpart hitem hleft
    refine hasked _ hpart hitem fun c hc => ?_
    rw [← Option.some.inj hc]
    exact ⟨h.container_mem hpart hitem, hleft⟩
  -- pages first: what is shown of each level is asked on what the level above leaves
  obtain ⟨pages, vpages⟩ : ∃ pages, View.staying shown.viewed.pages Page.id (fun _ => true)
      (fun page => shown.viewed.asks form.spec rows page.showWhen) form.spec.pages = .ok pages :=
    View.exists_staying fun page hpage hlive _ =>
      hasked _ (form.spec.mem_parts_page hpage) (Shown.page_mem_items.mpr hlive) fun c hc =>
        (by cases hc)
  have epages := staying_pages h hpages vpages
  obtain ⟨sections, vsections⟩ : ∃ sections, View.staying shown.viewed.sections (fun x => x.2.id)
      (fun x => x.1.id ∈ pages) (fun x => shown.viewed.asks form.spec rows x.2.showWhen)
      form.spec.placedSections = .ok sections := by
    refine View.exists_staying fun x hx hlive honx =>
      hon (form.spec.mem_parts_sect hx) (Shown.sect_mem_items.mpr hlive) fun hgone => ?_
    have hkept := of_decide_eq_true honx
    rw [epages, Finset.mem_sdiff] at hkept
    exact hkept.2 (Shown.page_mem_items.mp hgone)
  have esections := staying_sections h hsections (epages ▸ vsections)
  obtain ⟨widgets, vwidgets⟩ : ∃ widgets, View.staying shown.viewed.widgets (fun x => x.2.id)
      (fun x => x.1.id ∈ sections) (fun x => shown.viewed.asks form.spec rows x.2.showWhen)
      form.spec.placed = .ok widgets := by
    refine View.exists_staying fun x hx hlive honx =>
      hon (form.spec.mem_parts_widget hx) (Shown.widget_mem_items.mpr hlive) fun hgone => ?_
    have hkept := of_decide_eq_true honx
    rw [esections, Finset.mem_sdiff] at hkept
    exact hkept.2 (Shown.sect_mem_items.mp hgone)
  have ewidgets := staying_widgets h hwidgets (esections ▸ vwidgets)
  obtain ⟨fields, vfields⟩ : ∃ fields, View.staying shown.viewed.fields View.keyOf
      (fun x => x.1 ∈ widgets)
      (fun x => shown.viewed.asks form.spec rows x.2.2) (View.entered form.spec) = .ok fields := by
    refine View.exists_staying fun x hx hlive honx => ?_
    rw [form.entered_eq] at hx
    have hfield : (x.1, x.2.1.table, x.2.1.column) ∈ shown.fields := by
      obtain ⟨f, hf, hkey⟩ := Finset.mem_image.mp hlive
      obtain ⟨y, hy, rfl⟩ := h.exists_field hf
      rwa [← form.keyOf_inj hy hx hkey]
    refine hon (form.spec.mem_parts_field hx) (Shown.field_mem_items.mpr hfield) fun hgone => ?_
    have hkept := of_decide_eq_true honx
    rw [ewidgets, Finset.mem_sdiff] at hkept
    exact hkept.2 (Shown.widget_mem_items.mp hgone)
  exact ⟨⟨pages, sections, widgets, fields⟩,
    View.nextRound_eq_ok_iff.mpr ⟨vpages, vsections, vwidgets, vfields⟩⟩

/-- The rounds keep to the form. -/
theorem within_of_rounds (h : shown.Within form) (hV : rounds form.spec rows shown = .ok V) :
    V.Within form :=
  (rounds_induction (P := Shown.Within form) hV h fun _ _ hS hH => hS.without hH).1

/-- View and server start from the same. -/
theorem viewed_initial (form : HeldForm) : form.spec.initial.viewed = View.initial form.spec := by
  ext k
  · rfl
  · rfl
  · rfl
  · simp [Shown.viewed, FormSpec.initial, View.initial, form.entered_eq, View.keyOf]

end Rounds

/-! ### When the view can ask -/

/-- While everything shows, the view can test each condition of a part whose containers stand. -/
def View.Readable (spec : FormSpec) (rows : Rows) : Prop :=
  ∀ part ∈ spec.parts, (∀ c, part.container = some c → Standing spec rows c) →
    ∀ condition ∈ part.showWhen.singles,
      ∃ b, View.holds spec.tables rows (View.shownColumns spec (View.initial spec).fields)
        condition = .ok b

section Readable

variable {form : HeldForm} {rows : Rows} {shown H V : Shown}

/-- The columns shown are columns of the form. -/
theorem Shown.Within.columns_subset (h : shown.Within form) :
    shown.columns ⊆ form.spec.columns := by
  rw [← Shown.columnsOf_items]
  exact columnsOf_mono h.sub

/-- The columns the view shows are among those it starts with. -/
theorem Shown.Within.shownColumns_subset (h : shown.Within form) :
    View.shownColumns form.spec shown.viewed.fields ⊆
      View.shownColumns form.spec (View.initial form.spec).fields := by
  have hfields : shown.viewed.fields ⊆ (View.initial form.spec).fields := by
    rw [← viewed_initial]
    exact Finset.image_subset_image h.subset_initial.2.2.2
  intro k hk
  simp only [View.shownColumns, List.mem_toFinset, List.mem_map, List.mem_filter,
    decide_eq_true_eq] at hk ⊢
  obtain ⟨x, ⟨hx, hin⟩, rfl⟩ := hk
  exact ⟨x, ⟨hx, hfields hin⟩, rfl⟩

/-- The rounds of the view end where the server's do. -/
theorem rounds_viewed (hread : Readable form.spec rows) (hview : View.Readable form.spec rows)
    (h : shown.Within form) (hV : rounds form.spec rows shown = .ok V) :
    View.rounds form.spec rows shown.viewed = .ok V.viewed := by
  induction hn : shown.items.card using Nat.strong_induction_on generalizing shown with
  | _ n ih =>
    subst hn
    rw [rounds] at hV
    split at hV
    · cases hV
    · rename_i hide hhide
      -- what the round asks is on what stands, so the view can ask it
      obtain ⟨next, hnext⟩ : ∃ next, View.nextRound form.spec rows shown.viewed = .ok next := by
        refine exists_nextRound h hhide fun part hpart hitem hcontainer =>
          ShowWhen.exists_asked fun condition hc => ?_
        refine exists_view_holds_of_subset h.shownColumns_subset
          (hview part hpart (fun c hcon => ?_) condition hc)
        obtain ⟨hin, hleft⟩ := hcontainer c hcon
        exact hread.standing_of_left h.closed h.columns_subset hhide c hin hleft
      obtain rfl := nextRound_viewed h hhide hnext
      rw [View.rounds]
      split
      · rename_i thrown hthrown
        rw [hnext] at hthrown
        cases hthrown
      rename_i next hnext'
      obtain rfl := Except.ok.inj (hnext.symm.trans hnext')
      split at hV
      · rename_i hempty
        have hsame : shown.without hide = shown := by
          ext x <;> simp [Shown.without, hempty]
        rw [hsame, if_neg (by simp), Except.ok.inj hV]
      · rename_i hne
        have hsub := roundHides_subset hhide
        have hlt : (shown.without hide).items.card < shown.items.card := by
          rw [← Shown.items_eq_empty_iff] at hne
          rw [Shown.items_without]
          exact Finset.card_lt_card
            (Finset.sdiff_ssubset hsub (Finset.nonempty_iff_ne_empty.mpr hne))
        rw [if_pos (viewed_card_lt h hsub hne)]
        exact ih _ hlt (h.without hhide) hV rfl

/-- Where both can ask, the view gives what the server answers. -/
theorem decided_of_visibility (hread : Readable form.spec rows)
    (hview : View.Readable form.spec rows)
    {v : Visibility} (h : visibility form.spec rows = .ok v) :
    View.decided form.spec rows = .ok v.viewed := by
  unfold visibility at h
  simp only [bind, Except.bind] at h
  split at h
  · cases h
  rename_i V hV
  simp only [pure, Except.pure, Except.ok.injEq] at h
  have hrounds := rounds_viewed hread hview (Shown.Within.initial form) hV
  have hwithin := within_of_rounds (Shown.Within.initial form) hV
  rw [viewed_initial] at hrounds
  subst h
  unfold View.decided
  simp only [hrounds, bind, Except.bind, pure, Except.pure, Except.ok.injEq]
  refine View.SheetVisibility.ext rfl rfl rfl rfl ?_
  -- a column is named by its key alone, where its name has no colon
  have honWidgets : ∀ t c, ':' ∉ c.toList →
      ((∃ x ∈ form.spec.entered, View.columnKey x.2.1.table x.2.1.column = View.columnKey t c) ↔
        (t, c) ∈ form.spec.onWidgets) := by
    intro t c hc
    simp only [FormSpec.onWidgets, List.mem_toFinset, List.mem_map, Prod.mk.injEq]
    refine exists_congr fun x => and_congr_right fun hx => ⟨columnKey_inj (form.refs x hx).2 hc, ?_⟩
    rintro ⟨rfl, rfl⟩
    rfl
  ext k
  simp only [Visibility.viewed, form.entered_eq, inputColumns, Finset.mem_image, Finset.mem_inter,
    Finset.mem_sdiff, List.mem_toFinset, List.mem_filter, List.mem_flatMap, List.mem_map,
      Bool.decide_and,
    Bool.and_eq_true, decide_eq_true_eq]
  constructor
  · rintro ⟨⟨table, htable, column, hcolumn, rfl⟩, hon, hnot⟩
    have hplain := form.schema.plainColumns table htable.1 column (List.mem_append_left _ hcolumn.1)
    refine ⟨(table.name, column.name), ⟨⟨(honWidgets _ _ hplain).mp hon, ?_⟩, table, htable, column,
      hcolumn, rfl⟩, rfl⟩
    exact fun hin => hnot ((hwithin.keyed _ _ hplain).mpr hin)
  · rintro ⟨⟨t, c⟩, ⟨⟨hon, hnot⟩, table, htable, column, hcolumn, hpair⟩, rfl⟩
    simp only [Prod.mk.injEq] at hpair
    obtain ⟨rfl, rfl⟩ := hpair
    have hplain := form.schema.plainColumns table htable.1 column (List.mem_append_left _ hcolumn.1)
    refine ⟨⟨table, htable, column, hcolumn, rfl⟩, (honWidgets _ _ hplain).mpr hon, ?_⟩
    exact fun hin => hnot ((hwithin.keyed _ _ hplain).mp hin)

/-- A round the view makes asks all that shows, on what the round leaves. -/
theorem exists_asks_of_nextRound (h : shown.Within form)
    (hH : roundHides form.spec rows shown = .ok H)
    {next : View.Showing} (hnext : View.nextRound form.spec rows shown.viewed = .ok next)
    {part : Part}
    (hpart : part ∈ form.spec.parts) (hitem : part.item ∈ shown.items)
    (hcontainer : ∀ c, part.container = some c → c ∉ H.items) :
    ∃ b, shown.viewed.asks form.spec rows part.showWhen = .ok b := by
  obtain rfl := nextRound_viewed h hH hnext
  obtain ⟨vpages, vsections, vwidgets, vfields⟩ := View.nextRound_eq_ok_iff.mp hnext
  rw [View.staying_eq_ok_iff] at vpages vsections vwidgets vfields
  have hkept : ∀ c, part.container = some c → c ∈ (shown.without H).items := by
    intro c hc
    rw [Shown.items_without, Finset.mem_sdiff]
    exact ⟨h.closed part hpart hitem c hc, hcontainer c hc⟩
  simp only [FormSpec.parts, List.mem_append, List.mem_map] at hpart
  obtain ((⟨page, hp, rfl⟩ | ⟨x, hx, rfl⟩) | ⟨x, hx, rfl⟩) | ⟨x, hx, rfl⟩ := hpart
  · exact vpages.1 page hp (Shown.page_mem_items.mp hitem) rfl
  · exact vsections.1 x hx (Shown.sect_mem_items.mp hitem)
      (decide_eq_true (Shown.page_mem_items.mp (hkept _ rfl)))
  · exact vwidgets.1 x hx (Shown.widget_mem_items.mp hitem)
      (decide_eq_true (Shown.sect_mem_items.mp (hkept _ rfl)))
  · rw [form.entered_eq] at vfields
    exact vfields.1 x hx (Finset.mem_image.mpr ⟨_, Shown.field_mem_items.mp hitem, rfl⟩)
      (decide_eq_true (Shown.widget_mem_items.mp (hkept _ rfl)))

/-- The view decides only where its first round ends. -/
theorem exists_nextRound_of_decided {spec : FormSpec} {decided : View.SheetVisibility}
    (h : View.decided spec rows = .ok decided) :
    ∃ next, View.nextRound spec rows (View.initial spec) = .ok next := by
  cases hnext : View.nextRound spec rows (View.initial spec) with
  | ok next => exact ⟨next, rfl⟩
  | error thrown =>
    have hrounds : View.rounds spec rows (View.initial spec) = .error thrown := by
      rw [View.rounds]
      split
      · rename_i thrown' hthrown
        exact hthrown.symm.trans hnext
      · rename_i next hok
        rw [hnext] at hok
        cases hok
    rw [View.decided, hrounds] at h
    cases h

end Readable

/-! ### The same form in another order -/

section Orders

variable {form : HeldForm} {spec spec' : FormSpec} {rows : Rows}

/-- Reordering a form rearranges its page ids. -/
theorem FormSpec.Reordered.pageIds_perm (hre : spec.Reordered spec') :
    (spec.pages.map Page.id).Perm (spec'.pages.map Page.id) :=
  hre.2.map_perm fun hP => hP.1

/-- Reordering a form rearranges its section ids. -/
theorem FormSpec.Reordered.sectionIds_perm (hre : spec.Reordered spec') :
    (spec.placedSections.map fun x => x.2.id).Perm (spec'.placedSections.map fun x => x.2.id) := by
  simp only [FormSpec.placedSections, List.map_flatMap, List.map_map, Function.comp_def]
  exact hre.2.flatMap_perm fun hP => hP.2.2.map_perm fun hS => hS.1

/-- Reordering a form rearranges its widget ids. -/
theorem FormSpec.Reordered.widgetIds_perm (hre : spec.Reordered spec') :
    (spec.placed.map fun x => x.2.id).Perm (spec'.placed.map fun x => x.2.id) := by
  simp only [FormSpec.placed, FormSpec.placedSections, List.map_flatMap, List.flatMap_assoc,
    List.flatMap_map,
    List.map_map, Function.comp_def]
  exact hre.2.flatMap_perm fun hP => hP.2.2.flatMap_perm fun hS => hS.2.2.map_perm fun hW => hW.1

/-- A held form is held in any order. -/
def HeldForm.reordered (form : HeldForm) (hre : form.spec.Reordered spec') : HeldForm where
  spec := spec'
  schema := hre.1 ▸ form.schema
  pageIds := hre.pageIds_perm.nodup form.pageIds
  sectionIds := hre.sectionIds_perm.nodup form.sectionIds
  widgetIds := hre.widgetIds_perm.nodup form.widgetIds
  looks := by
    rintro ⟨sect, widget⟩ hx
    obtain ⟨sect', widget', hmem, -, hW⟩ := hre.symm.exists_widget hx
    have hlooks : ∀ {xs ys : List ColumnLook}, List.Forall₂ ColumnLook.Reordered xs ys →
        (xs.map fun look => (look.table, look.column)) = ys.map fun look =>
          (look.table, look.column) := by
      intro xs ys hxy
      induction hxy with
      | nil => rfl
      | cons hlook _ ih => rw [List.map_cons, List.map_cons, ih, hlook.1, hlook.2.1]
    rw [hlooks hW.2.2.2.2]
    exact form.looks _ hmem
  refs := by
    rintro ⟨id, field, showWhen⟩ hx
    obtain ⟨showWhen', hmem, -⟩ := hre.symm.exists_entered hx
    exact form.refs (id, field, showWhen') hmem

/-- Every column of a form is one of its columns in another order, by the view's keys. -/
theorem FormSpec.Reordered.shownColumns_subset (hre : spec.Reordered spec')
    (hentered : View.entered spec = spec.entered) (hentered' : View.entered spec' = spec'.entered) :
    View.shownColumns spec (View.initial spec).fields ⊆ View.shownColumns spec'
      (View.initial spec').fields := by
  intro k hk
  simp only [View.shownColumns, View.initial, hentered, hentered', List.mem_toFinset, List.mem_map,
    List.mem_filter, decide_eq_true_eq] at hk ⊢
  obtain ⟨⟨id, field, showWhen⟩, ⟨hx, -⟩, rfl⟩ := hk
  obtain ⟨showWhen', hx', -⟩ := hre.exists_entered hx
  exact ⟨_, ⟨hx', _, hx', rfl⟩, rfl⟩

/-- The view's columns do not depend on the order of a form. -/
theorem HeldForm.shownColumns_eq (form : HeldForm) (hre : form.spec.Reordered spec') :
    View.shownColumns form.spec (View.initial form.spec).fields =
      View.shownColumns spec' (View.initial spec').fields :=
  (hre.shownColumns_subset form.entered_eq (form.reordered hre).entered_eq).antisymm
    (hre.symm.shownColumns_subset (form.reordered hre).entered_eq form.entered_eq)

/-- What the view can ask in one order it can ask in every order. -/
theorem view_readable_reordered (hview : View.Readable form.spec rows)
    (hread : Readable form.spec rows)
    (hre : form.spec.Reordered spec') : View.Readable spec' rows := by
  intro part' hpart' hcontainer condition hc
  obtain ⟨part, hpart, hR⟩ := hre.symm.exists_part hpart'
  rw [← hre.1, ← form.shownColumns_eq hre]
  exact hview part hpart
    (fun c hcon => hread.standing_of_reordered hre (hcontainer c (hR.container.trans hcon)))
    condition (hR.showWhen.symm.mem_singles hc)

/-- Where both decide in every order, the view can ask each condition that could be the first one
asked. -/
theorem readable_of_decided (h : ∀ spec', form.spec.Reordered spec' →
    (∃ v, visibility spec' rows = .ok v) ∧ ∃ decided, View.decided spec' rows = .ok decided) :
    View.Readable form.spec rows := by
  intro part hpart hcontainer condition hc
  cases hholds : View.holds form.spec.tables rows
      (View.shownColumns form.spec (View.initial form.spec).fields) condition with
  | ok b => exact ⟨b, rfl⟩
  | error thrown =>
    exfalso
    obtain ⟨spec', hre, part', hpart', hitem, hcon, hasks⟩ := form.spec.exists_first hpart hc
    obtain ⟨⟨v, hv⟩, decided, hdecided⟩ := h spec' hre
    obtain ⟨H, hH⟩ := exists_roundHides_of_visibility hv
    obtain ⟨next, hnext⟩ := exists_nextRound_of_decided hdecided
    -- in the first round of that order the part is asked, its containers being left
    have hinitial := viewed_initial (form.reordered hre)
    obtain ⟨b, hb⟩ :=
      exists_asks_of_nextRound (.initial (form.reordered hre)) hH (hinitial ▸ hnext) hpart'
      (by rw [FormSpec.items_initial, FormSpec.mem_everything]; exact ⟨part', hpart', rfl⟩)
      fun c hc => not_mem_roundHides_of_standing hre hH (hcontainer c (hcon.symm.trans hc))
    rw [hinitial] at hb
    have herror : (View.initial spec').asks spec' rows part'.showWhen = .error thrown := by
      refine hasks.asked_error ?_
      rw [← hre.1, ← form.shownColumns_eq hre]
      exact hholds
    cases herror.symm.trans hb

end Orders

/-! ### When a condition's fit can be told -/

/-- A whole number of more digits than `int` reads. -/
def TooLong (text : String) : Prop :=
  ∃ negative ds, wholeDigits? (cleaned text) = some (negative, ds) ∧ 4300 < ds.length

/-- The values typed for a test of a column, before the first that does not fit it and that one
itself, are none too long for an Integer. -/
def LegibleValues (type : ColumnType) (values : List String) : Prop :=
  ∀ before value after, values = before ++ value :: after →
    (∀ earlier ∈ before, View.holdsValue type (some (.text earlier)) = true) →
      ¬ (type = .int ∧ TooLong value)

/-- As many values as the test takes. -/
def ValueTest.Counted (test : ValueTest) : Prop :=
  match View.takesValues test.op with
  | .none => test.values.length = 0
  | .one => test.values.length = 1
  | .some => 1 ≤ test.values.length

/-- The values of a test that are read are legible: those of a test the type takes, of as many
as it takes, without days. -/
def ValueTest.Legible (test : ValueTest) (type : ColumnType) : Prop :=
  test.op ∈ View.testsFor type → test.days = 0 → test.Counted → LegibleValues type test.values

/-- The values of a condition that are read are legible: a test against a field has none, and
the tests of a row are read until one does not fit. -/
def SingleCondition.Legible (tables : List SchemaTable) : SingleCondition → Prop
  | .one condition => ∀ table column, oneRowColumn tables condition.table condition.column =
    some (table, column) →
      condition.field = none → condition.toValueTest.Legible column.type
  | .list condition => ∀ table, listTable tables condition = some table →
      ((listColumns condition).map table.isOutput).dedup.length ≤ 1 →
      ∀ before test after, condition.tests = before ++ test :: after →
        (∀ earlier ∈ before, (View.rowTestFault table earlier).isNone = true) →
          test.field = none → ∀ column, rowColumn table test.column = some column →
            test.toValueTest.Legible column.type

section Legible

variable {tables : List SchemaTable} {table : SchemaTable} {type : ColumnType} {test : ValueTest}
  {other : Option SchemaColumn}

/-- A text is tested for a type unless it is too long for an integer. -/
theorem exists_ofType_iff {value : String} :
    (∃ b, ofType type value = .ok b) ↔ ¬ (type = .int ∧ TooLong value) := by
  have hread : ∀ type, (∃ x, typedAs type (pyStrip value) = .ok x) ↔
      ¬ (type = .int ∧ TooLong value) := by
    intro type
    cases hvalue : typedAs type (pyStrip value) with
    | ok x =>
      refine iff_of_true ⟨x, rfl⟩ fun ⟨htype, negative, ds, hds, hlong⟩ => ?_
      obtain ⟨q, hq⟩ := exists_number?_of_wholeDigits? hds
      have herror :=
        typedAs_eq_error_iff.mpr ⟨rfl, htype, ⟨q, by rw [cleaned_pyStrip]; exact hq⟩, negative,
        ds, by rw [cleaned_pyStrip]; exact hds, hlong⟩
      rw [hvalue] at herror
      cases herror
    | error e =>
      obtain ⟨-, htype, -, negative, ds, hds, hlong⟩ := typedAs_eq_error_iff.mp hvalue
      rw [cleaned_pyStrip] at hds
      exact iff_of_false (by simp) fun hnot => hnot ⟨htype, negative, ds, hds, hlong⟩
  unfold ofType
  cases type with
  | int =>
    rw [← hread]
    cases hvalue : typedAs .int (pyStrip value) <;>
      simp [bind, Except.bind, pure, Except.pure, hvalue]
  | float =>
    have hfloat := (hread .float).mpr (by simp)
    obtain ⟨x, hx⟩ := hfloat
    simp [hx, bind, Except.bind, pure, Except.pure]
  | _ => exact iff_of_true ⟨_, rfl⟩ (by simp)

/-- A test on a value is decided exactly when it is legible for the value's type. -/
theorem exists_fits_iff : (∃ b, fits type test false other = .ok b) ↔ test.Legible type := by
  unfold fits ValueTest.Legible
  rw [mem_testsFor]
  by_cases hop : test.op ∈ testsOf type
  · rw [if_neg (not_not.mpr hop)]
    simp only [Bool.false_eq_true, if_false, hop, forall_const]
    by_cases hdays : test.days = 0
    · simp only [hdays, ne_eq, not_true_eq_false, if_false, forall_const]
      have hcounted : (if test.op ∈ noValues then test.values.length = 0
          else if test.op ∈ choices then 1 ≤ test.values.length else test.values.length = 1) ↔
            test.Counted := by
        unfold ValueTest.Counted
        cases test.op <;> simp [noValues, choices, View.takesValues]
      by_cases hcount : test.Counted
      · rw [if_pos (hcounted.mpr hcount)]
        simp only [hcount, forall_const]
        exact exists_allM_iff (fun value _ => exists_ofType_iff) fun value _ b hb =>
          holdsValue_of_ofType hb
      · rw [if_neg fun h => hcount (hcounted.mp h)]
        simp [hcount]
    · simp [hdays]
  · simp [hop]

/-- A test against another column is always decided. -/
theorem exists_fits_against : ∃ b, fits type test true other = .ok b := by
  unfold fits
  split <;> simp

/-- A test on a row is decided exactly when it is legible for its column's type. -/
theorem exists_rowTestFits_iff {test : RowTest} :
    (∃ b, rowTestFits table test = .ok b) ↔ (test.field = none →
      ∀ column, rowColumn table test.column = some column →
        test.toValueTest.Legible column.type) := by
  unfold rowTestFits
  cases hfield : test.field with
  | some field =>
    refine iff_of_true ?_ fun h => (by cases h)
    split
    · exact ⟨false, rfl⟩
    · cases rowColumn table test.column with
      | none => exact ⟨false, rfl⟩
      | some column => exact exists_fits_against
  | none =>
    simp only [Option.any_none, Bool.false_eq_true, if_false, forall_const, Option.isSome_none,
      Option.bind_none]
    cases hcolumn : rowColumn table test.column with
    | none => simp
    | some column =>
      simp only [Option.some.injEq, forall_eq']
      exact exists_fits_iff

/-- A condition on a list is decided exactly when the tests reached before a fault are legible. -/
theorem exists_listFits_iff (held : HeldSchema tables) (hmem : table ∈ tables)
    {condition : ListCondition} :
    (∃ b, listFits table condition = .ok b) ↔
      (((listColumns condition).map table.isOutput).dedup.length ≤ 1 →
        ∀ before test after, condition.tests = before ++ test :: after →
          (∀ earlier ∈ before, (View.rowTestFault table earlier).isNone = true) →
            test.field = none → ∀ column, rowColumn table test.column = some column →
              test.toValueTest.Legible column.type) := by
  unfold listFits
  by_cases hmixed : 1 < ((listColumns condition).map table.isOutput).dedup.length
  · rw [if_pos hmixed]
    exact iff_of_true ⟨false, rfl⟩ fun h => absurd hmixed (Nat.not_lt.mpr h)
  · rw [if_neg hmixed]
    simp only [Nat.not_lt.mp hmixed, forall_const]
    rw [← exists_allM_iff (g := fun test => (View.rowTestFault table test).isNone)
      (fun test _ => exists_rowTestFits_iff) fun test _ b hb =>
        rowTestFault_of_rowTestFits held hmem hb]
    cases hall : condition.tests.allM (rowTestFits table) with
    | error e => simp [bind, Except.bind]
    | ok fit =>
      refine iff_of_true ?_ ⟨fit, rfl⟩
      cases fit with
      | false => exact ⟨false, rfl⟩
      | true =>
        simp only [bind, Except.bind, Bool.not_true, Bool.false_eq_true, if_false]
        split
        · split
          · exact ⟨false, rfl⟩
          · split
            · exact exists_ofType_iff.mpr (by simp)
            · exact ⟨false, rfl⟩
        · exact ⟨true, rfl⟩

/-- `condition_fits` answers exactly when the values it reads are legible. -/
theorem exists_conditionFits_iff (held : HeldSchema tables) {condition : SingleCondition} :
    (∃ b, conditionFits tables condition = .ok b) ↔ condition.Legible tables := by
  cases condition with
  | one condition =>
    simp only [conditionFits, SingleCondition.Legible]
    cases hfound : oneRowColumn tables condition.table condition.column with
    | none => simp
    | some found =>
      obtain ⟨table, column⟩ := found
      have hone : (∀ table' column', some (table, column) = some (table', column') →
          condition.field = none →
          condition.toValueTest.Legible column'.type) ↔
          (condition.field = none → condition.toValueTest.Legible column.type) := by
        refine ⟨fun h => h table column rfl, fun h table' column' hsame => ?_⟩
        obtain ⟨-, rfl⟩ := Prod.mk.inj (Option.some.inj hsame)
        exact h
      rw [hone]
      cases hfield : condition.field with
      | some field =>
        refine iff_of_true ?_ fun h => (by cases h)
        dsimp only
        split
        · exact ⟨false, rfl⟩
        · exact exists_fits_against
      | none =>
        simp only [Option.isSome_none, Bool.false_eq_true, and_false, if_false, forall_const]
        exact exists_fits_iff
  | list condition =>
    simp only [conditionFits, SingleCondition.Legible]
    cases htable : listTable tables condition with
    | none => simp
    | some table =>
      simp only [Option.some.injEq, forall_eq']
      have hmem : table ∈ tables := List.mem_of_find?_eq_some htable
      exact exists_listFits_iff held hmem

end Legible

/-! ### The two decide alike -/

/-- The server and the view decide alike: what `visibility` returns is what `decided` gives, and
a condition fits on the server exactly when the view finds no fault with it. -/
def DecideAlike (spec : FormSpec) (rows : Rows) (condition : SingleCondition) : Prop :=
  (∃ v, visibility spec rows = .ok v ∧ View.decided spec rows = .ok v.viewed) ∧
    conditionFits spec.tables condition = .ok (View.conditionFault spec.tables condition).isNone

/-- The form of the long number, as a folder holds it. -/
def heldLongNumber : HeldForm where
  spec := longNumberForm
  schema := {
    tableNames := by decide
    columnNames := by decide
    plainColumns := by decide
    indexes := by decide
    stripped := by
      intro table htable column hcolumn value hvalue
      have hnone : ∀ table ∈ longNumberForm.tables, ∀ column ∈ table.columns, column.options = [] :=
        by decide
      rw [hnone table htable column hcolumn] at hvalue
      cases hvalue }
  pageIds := by decide
  sectionIds := by decide
  widgetIds := by decide
  looks := by decide
  refs := by decide

/-- That some row of a list has a value. -/
def anyFilled : SingleCondition :=
  .list {
    table := "constructor"
    tests := [{ op := .filled, column := "name" }]
    asked := .rows .any }

/-- A list named as a member every object has, with a component that takes its column, and a section
that shows while some row has a value. -/
def namedForm : FormSpec where
  tables := [
    { name := quoteDetailsName, inputs := identitySchemaColumns },
    { name := "constructor"
      rows := .many
      inputs := identitySchemaColumns ++
        [{ name := "number", type := .int, index := some .numbered },
          { name := "name", type := .str }] }]
  pages := [{ id := "Sheet", sections := [
    { id := "Sheet/Main"
      widgets :=
        [{ id := "Sheet/Main/list", kind := .tableInput, fields := [⟨"constructor", "name"⟩] }] },
    { id := "Sheet/Extra", showWhen := { conditions := [.one anyFilled] } }] }]

/-- The form of the list, as a folder holds it. -/
def heldNamed : HeldForm where
  spec := namedForm
  schema := {
    tableNames := by decide
    columnNames := by decide
    plainColumns := by decide
    indexes := by decide
    stripped := by
      intro table htable column hcolumn value hvalue
      have hnone : ∀ table ∈ namedForm.tables, ∀ column ∈ table.columns, column.options = [] :=
        by decide
      rw [hnone table htable column hcolumn] at hvalue
      cases hvalue }
  pageIds := by decide
  sectionIds := by decide
  widgetIds := by decide
  looks := by decide
  refs := by decide

/-- The view finds no rows under the name, where nothing is typed. -/
theorem decided_named : View.decided namedForm [] = .error .notRows := by
  have hnext : View.nextRound namedForm [] (View.initial namedForm) = .error .notRows := by rfl
  rw [View.decided, View.rounds]
  split
  · rename_i thrown hthrown
    rw [hnext] at hthrown
    rw [← Except.error.inj hthrown]
    rfl
  · rename_i next hok
    rw [hnext] at hok
    cases hok

end Haute.Workbench
