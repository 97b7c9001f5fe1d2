import Haute.Workbench.Visibility

/-!
# What shows is the greatest consistent choice

A form in another order has the same parts, each with its conditions in another order
(`exists_part`). Since `shows_anti` holds across orders, whatever may stay for one order is
hidden by no round of another; so where two orders both answer, they answer the same, the
greatest consistent choice.

They answer exactly when every test that could be the first one asked has an answer
(`Readable`): with everything shown, each condition of a part whose containers all stand. A
condition that has none is asked in the first round of some order, and ends it there.
-/

namespace Haute.Workbench

open Haute.Data

/-! ### The parts in another order -/

/-- The same part with its conditions in another order. -/
structure Part.Reordered (x y : Part) : Prop where
  item : x.item = y.item
  container : x.container = y.container
  showWhen : x.showWhen.Reordered y.showWhen

theorem ColumnLook.Reordered.refl (x : ColumnLook) : x.Reordered x := ⟨rfl, rfl, .refl _⟩

theorem Widget.Reordered.refl (x : Widget) : x.Reordered x :=
  ⟨rfl, rfl, .refl _, .refl _, List.forall₂_same.mpr fun look _ => .refl look⟩

theorem Section.Reordered.refl (x : Section) : x.Reordered x :=
  ⟨rfl, .refl _, Rearranged.refl Widget.Reordered.refl⟩

theorem Page.Reordered.refl (x : Page) : x.Reordered x :=
  ⟨rfl, .refl _, Rearranged.refl Section.Reordered.refl⟩

/-- Every form is a reordering of itself. -/
theorem FormSpec.Reordered.refl (x : FormSpec) : x.Reordered x :=
  ⟨rfl, Rearranged.refl Page.Reordered.refl⟩

theorem Widget.Reordered.symm {x y : Widget} (h : x.Reordered y) : y.Reordered x := by
  obtain ⟨hid, hkind, hfields, hshow, hlooks⟩ := h
  exact ⟨hid.symm, hkind.symm, hfields.symm, hshow.symm,
    hlooks.flip.imp fun _ _ hl => ⟨hl.1.symm, hl.2.1.symm, hl.2.2.symm⟩⟩

theorem Section.Reordered.symm {x y : Section} (h : x.Reordered y) : y.Reordered x :=
  ⟨h.1.symm, h.2.1.symm, h.2.2.symm Widget.Reordered.symm⟩

theorem Page.Reordered.symm {x y : Page} (h : x.Reordered y) : y.Reordered x :=
  ⟨h.1.symm, h.2.1.symm, h.2.2.symm Section.Reordered.symm⟩

/-- A reordering can be undone. -/
theorem FormSpec.Reordered.symm {x y : FormSpec} (h : x.Reordered y) : y.Reordered x :=
  ⟨h.1.symm, h.2.symm Page.Reordered.symm⟩

/-- The first look of a field, in looks whose conditions are in another order. -/
theorem exists_look {xs ys : List ColumnLook} (h : List.Forall₂ ColumnLook.Reordered xs ys)
    (field : FieldRef) :
    (((xs.find? fun look => look.table = field.table ∧ look.column = field.column).map
        ColumnLook.showWhen).getD {}).Reordered
      (((ys.find? fun look => look.table = field.table ∧ look.column = field.column).map
        ColumnLook.showWhen).getD {}) := by
  induction h with
  | nil => exact .refl _
  | @cons x y xs ys hxy _ ih =>
    rw [List.find?_cons, List.find?_cons, ← hxy.1, ← hxy.2.1]
    split
    · exact hxy.2.2
    · exact ih

/-- Reordering a widget keeps its fields, each with its condition reordered. -/
theorem mem_entered_of_reordered {x y : Widget} (h : x.Reordered y) {field : FieldRef}
    {showWhen : ShowWhen}
    (hmem : (field, showWhen) ∈ entered x) :
    ∃ showWhen', showWhen.Reordered showWhen' ∧ (field, showWhen') ∈ entered y := by
  obtain ⟨-, hkind, hfields, -, hlooks⟩ := h
  unfold entered at hmem ⊢
  rw [← hkind]
  split at hmem
  · cases hmem
  · rename_i hentered
    rw [if_neg hentered]
    obtain ⟨field', hfield, hpair⟩ := List.mem_map.mp hmem
    cases hpair
    have hreverse := List.rel_reverse hlooks
    exact ⟨_, exists_look hreverse field, List.mem_map.mpr ⟨field, hfields.subset hfield, rfl⟩⟩

section Parts

variable {spec spec' : FormSpec}

/-- Reordering a form keeps its sections. -/
theorem FormSpec.Reordered.exists_section (h : spec.Reordered spec') {page : Page} {sect : Section}
    (hmem : (page, sect) ∈ spec.placedSections) :
    ∃ page' sect', (page', sect') ∈ spec'.placedSections ∧ page.Reordered page' ∧
      sect.Reordered sect' := by
  obtain ⟨page₁, hpage, hmem⟩ := List.mem_flatMap.mp hmem
  obtain ⟨sect₁, hsect, hpair⟩ := List.mem_map.mp hmem
  cases hpair
  obtain ⟨page', hpage', hP⟩ := h.2.exists_right hpage
  obtain ⟨sect', hsect', hS⟩ := hP.2.2.exists_right hsect
  exact ⟨page', sect', List.mem_flatMap.mpr
    ⟨page', hpage', List.mem_map.mpr ⟨sect', hsect', rfl⟩⟩, hP, hS⟩

/-- Reordering a form keeps its widgets. -/
theorem FormSpec.Reordered.exists_widget (h : spec.Reordered spec') {sect : Section}
    {widget : Widget}
    (hmem : (sect, widget) ∈ spec.placed) :
    ∃ sect' widget', (sect', widget') ∈ spec'.placed ∧ sect.Reordered sect' ∧
      widget.Reordered widget' := by
  obtain ⟨⟨page, sect₁⟩, hsect, hmem⟩ := List.mem_flatMap.mp hmem
  obtain ⟨widget₁, hwidget, hpair⟩ := List.mem_map.mp hmem
  cases hpair
  obtain ⟨page', sect', hsect', -, hS⟩ := h.exists_section hsect
  obtain ⟨widget', hwidget', hW⟩ := hS.2.2.exists_right hwidget
  exact ⟨sect', widget',
    List.mem_flatMap.mpr
      ⟨(page', sect'), hsect', List.mem_map.mpr ⟨widget', hwidget', rfl⟩⟩, hS, hW⟩

/-- Reordering a form keeps its entered fields. -/
theorem FormSpec.Reordered.exists_entered (h : spec.Reordered spec') {id : String}
    {field : FieldRef}
    {showWhen : ShowWhen} (hmem : (id, field, showWhen) ∈ spec.entered) :
    ∃ showWhen', (id, field, showWhen') ∈ spec'.entered ∧ showWhen.Reordered showWhen' := by
  obtain ⟨⟨sect, widget⟩, hwidget, hmem⟩ := List.mem_flatMap.mp hmem
  obtain ⟨⟨field₁, showWhen₁⟩, hfield, hpair⟩ := List.mem_map.mp hmem
  cases hpair
  obtain ⟨sect', widget', hwidget', -, hW⟩ := h.exists_widget hwidget
  obtain ⟨showWhen', hR, hfield'⟩ := mem_entered_of_reordered hW hfield
  refine ⟨showWhen', List.mem_flatMap.mpr ⟨(sect', widget'), hwidget', ?_⟩, hR⟩
  exact List.mem_map.mpr ⟨(field, showWhen'), hfield', by rw [hW.1]⟩

/-- A form in another order has each part, its conditions in another order. -/
theorem FormSpec.Reordered.exists_part (h : spec.Reordered spec') {part : Part}
    (hpart : part ∈ spec.parts) :
    ∃ part' ∈ spec'.parts, part.Reordered part' := by
  simp only [parts, List.mem_append, List.mem_map] at hpart ⊢
  obtain ((⟨page, hp, rfl⟩ | ⟨⟨page, sect⟩, hs, rfl⟩) | ⟨⟨sect, widget⟩, hw, rfl⟩) | ⟨⟨id, field,
      showWhen⟩, hf, rfl⟩ := hpart
  · obtain ⟨page', hpage', hP⟩ := h.2.exists_right hp
    exact ⟨_, .inl (.inl (.inl ⟨page', hpage', rfl⟩)), by rw [hP.1], rfl, hP.2.1⟩
  · obtain ⟨page', sect', hsect', hP, hS⟩ := h.exists_section hs
    exact ⟨_, .inl (.inl (.inr ⟨(page', sect'), hsect', rfl⟩)), by rw [hS.1], by rw [hP.1], hS.2.1⟩
  · obtain ⟨sect', widget', hwidget', hS, hW⟩ := h.exists_widget hw
    exact ⟨_, .inl (.inr ⟨(sect', widget'), hwidget', rfl⟩), by rw [hW.1], by rw [hS.1], hW.2.2.2.1⟩
  · obtain ⟨showWhen', hfield', hR⟩ := h.exists_entered hf
    exact ⟨_, .inr ⟨(id, field, showWhen'), hfield', rfl⟩, rfl, rfl, hR⟩

/-- Reordering a form adds no part. -/
theorem FormSpec.Reordered.everything_subset (h : spec.Reordered spec') :
    spec.everything ⊆ spec'.everything := by
  intro x hx
  rw [mem_everything] at hx ⊢
  obtain ⟨part, hpart, rfl⟩ := hx
  obtain ⟨part', hpart', hR⟩ := h.exists_part hpart
  exact ⟨part', hpart', hR.item.symm⟩

/-- A form and its reordering have the same parts. -/
theorem FormSpec.Reordered.everything_eq (h : spec.Reordered spec') :
    spec.everything = spec'.everything :=
  h.everything_subset.antisymm h.symm.everything_subset

/-- Reordering a form adds no column to its widgets. -/
theorem FormSpec.Reordered.onWidgets_subset (h : spec.Reordered spec') :
    spec.onWidgets ⊆ spec'.onWidgets := by
  intro c hc
  rw [onWidgets, List.mem_toFinset, List.mem_map] at hc ⊢
  obtain ⟨⟨id, field, showWhen⟩, hmem, rfl⟩ := hc
  obtain ⟨showWhen', hmem', -⟩ := h.exists_entered hmem
  exact ⟨_, hmem', rfl⟩

/-! ### An order that asks one condition first -/

/-- A sheet in another order gives a form in another order. -/
theorem FormSpec.reorder_page (spec : FormSpec) {page page' : Page} (hp : page ∈ spec.pages)
    (hR : page.Reordered page') : ∃ spec', spec.Reordered spec' ∧ page' ∈ spec'.pages := by
  obtain ⟨pages, hpages, hmem⟩ := Rearranged.exists_of_mem Page.Reordered.refl hp hR
  exact ⟨⟨spec.tables, pages⟩, ⟨rfl, hpages⟩, hmem⟩

/-- A section in another order gives a form in another order. -/
theorem FormSpec.reorder_section (spec : FormSpec) {page : Page} {sect sect' : Section}
    (hs : (page, sect) ∈ spec.placedSections) (hR : sect.Reordered sect') :
    ∃ spec' page', spec.Reordered spec' ∧ (page', sect') ∈ spec'.placedSections ∧
      page'.id = page.id := by
  obtain ⟨page₁, hp, hs⟩ := List.mem_flatMap.mp hs
  obtain ⟨sect₁, hs, hpair⟩ := List.mem_map.mp hs
  cases hpair
  obtain ⟨sections, hrearranged, hmem⟩ := Rearranged.exists_of_mem Section.Reordered.refl hs hR
  obtain ⟨spec', hspec, hpage⟩ := spec.reorder_page hp
    (show page.Reordered { page with sections := sections } from ⟨rfl, .refl _, hrearranged⟩)
  exact ⟨spec', _, hspec, List.mem_flatMap.mpr
    ⟨_, hpage, List.mem_map.mpr ⟨sect', hmem, rfl⟩⟩, rfl⟩

/-- A component in another order gives a form in another order. -/
theorem FormSpec.reorder_widget (spec : FormSpec) {sect : Section} {widget widget' : Widget}
    (hw : (sect, widget) ∈ spec.placed) (hR : widget.Reordered widget') :
    ∃ spec' sect', spec.Reordered spec' ∧ (sect', widget') ∈ spec'.placed ∧
      sect'.id = sect.id := by
  obtain ⟨⟨page, sect₁⟩, hs, hw⟩ := List.mem_flatMap.mp hw
  obtain ⟨widget₁, hw, hpair⟩ := List.mem_map.mp hw
  cases hpair
  obtain ⟨widgets, hrearranged, hmem⟩ := Rearranged.exists_of_mem Widget.Reordered.refl hw hR
  obtain ⟨spec', page', hspec, hsect, -⟩ := spec.reorder_section hs
    (show sect.Reordered { sect with widgets := widgets } from ⟨rfl, .refl _, hrearranged⟩)
  exact ⟨spec', _, hspec, List.mem_flatMap.mpr
    ⟨_, hsect, List.mem_map.mpr ⟨widget', hmem, rfl⟩⟩, rfl⟩

/-- The conditions of a field that asks any are those of the last look for its column. -/
theorem exists_look_of_mem_entered {widget : Widget} {field : FieldRef} {showWhen : ShowWhen}
    (hf : (field, showWhen) ∈ entered widget) {condition : SingleCondition}
    (hc : condition ∈ showWhen.singles) :
    widget.kind ≠ .other ∧ field ∈ widget.fields ∧ ∃ before look after,
      widget.columnLooks.reverse = before ++ look :: after ∧
      (look.table = field.table ∧ look.column = field.column) ∧
      (∀ other ∈ before, ¬ (other.table = field.table ∧ other.column = field.column)) ∧
      look.showWhen = showWhen := by
  unfold entered at hf
  split at hf
  · cases hf
  · rename_i hkind
    obtain ⟨field₂, hfield, hpair⟩ := List.mem_map.mp hf
    obtain ⟨rfl, hshow⟩ := Prod.mk.inj hpair
    cases hfind : widget.columnLooks.reverse.find? fun look =>
        look.table = field₂.table ∧ look.column = field₂.column with
    | none =>
      rw [hfind] at hshow
      subst hshow
      simp [ShowWhen.singles] at hc
    | some look =>
      rw [hfind] at hshow
      obtain ⟨hlook, before, after, hsplit, hbefore⟩ := List.find?_eq_some_iff_append.mp hfind
      exact ⟨hkind, hfield, before, look, after, hsplit, of_decide_eq_true hlook,
        fun other hother => not_and_or.mpr (by simpa using hbefore other hother), hshow⟩

/-- The conditions of a field in another order give a component in another order. -/
theorem Widget.reorder_entered {widget : Widget} {field : FieldRef} {showWhen first : ShowWhen}
    (hf : (field, showWhen) ∈ entered widget) {condition : SingleCondition}
    (hc : condition ∈ showWhen.singles) (hR : showWhen.Reordered first) :
    ∃ widget', widget.Reordered widget' ∧ (field, first) ∈ entered widget' := by
  obtain ⟨hkind, hfield, before, look, after, hlooks, hmatch, hnone, rfl⟩ :=
    exists_look_of_mem_entered hf hc
  let look' : ColumnLook := { look with showWhen := first }
  refine ⟨{ widget with columnLooks := (before ++ look' :: after).reverse },
    ⟨rfl, rfl, .refl _, .refl _, ?_⟩, ?_⟩
  · rw [← List.reverse_reverse widget.columnLooks, hlooks]
    exact List.rel_reverse (List.rel_append (List.forall₂_same.mpr fun x _ => .refl x)
      (.cons ⟨rfl, rfl, hR⟩ (List.forall₂_same.mpr fun x _ => .refl x)))
  · -- no look before it is for the column, so it is the one found
    have hfind : (before ++ look' :: after).find? (fun look =>
        look.table = field.table ∧ look.column = field.column) = some look' :=
      List.find?_eq_some_iff_append.mpr ⟨decide_eq_true hmatch, before, after, rfl,
        fun other hother => by simpa using not_and_or.mp (hnone other hother)⟩
    unfold entered
    rw [if_neg hkind]
    refine List.mem_map.mpr ⟨field, hfield, ?_⟩
    rw [List.reverse_reverse, hfind]
    rfl

/-- A condition of a part is asked first of that part in some order of the form. -/
theorem FormSpec.exists_first (spec : FormSpec) {part : Part} (hpart : part ∈ spec.parts)
    {condition : SingleCondition} (hc : condition ∈ part.showWhen.singles) :
    ∃ spec', spec.Reordered spec' ∧ ∃ part' ∈ spec'.parts, part'.item = part.item ∧
      part'.container = part.container ∧ part'.showWhen.AsksFirst condition := by
  obtain ⟨first, hfirst, hasks⟩ := ShowWhen.exists_first hc
  have hparts := hpart
  simp only [parts, List.mem_append, List.mem_map] at hparts
  obtain ((⟨page, hp, rfl⟩ | ⟨⟨page, sect⟩, hs, rfl⟩) | ⟨⟨sect, widget⟩, hw, rfl⟩) | ⟨⟨id, field,
      showWhen⟩, hf, rfl⟩ := hparts
  · obtain ⟨spec', hspec, hmem⟩ := spec.reorder_page hp
      (show page.Reordered { page with showWhen := first } from
        ⟨rfl, hfirst, Rearranged.refl Section.Reordered.refl⟩)
    refine ⟨spec', hspec, ⟨.page page.id, none, first⟩, ?_, rfl, rfl, hasks⟩
    simp only [parts, List.mem_append, List.mem_map]
    exact .inl (.inl (.inl ⟨_, hmem, rfl⟩))
  · obtain ⟨spec', page', hspec, hmem, hid⟩ := spec.reorder_section hs
      (show sect.Reordered { sect with showWhen := first } from
        ⟨rfl, hfirst, Rearranged.refl Widget.Reordered.refl⟩)
    refine ⟨spec', hspec, ⟨.sect sect.id, some (.page page.id), first⟩, ?_, rfl, rfl, hasks⟩
    simp only [parts, List.mem_append, List.mem_map]
    exact .inl (.inl (.inr ⟨_, hmem, by rw [hid]⟩))
  · obtain ⟨spec', sect', hspec, hmem, hid⟩ := spec.reorder_widget hw
      (show widget.Reordered { widget with showWhen := first } from
        ⟨rfl, rfl, .refl _, hfirst, List.forall₂_same.mpr fun look _ => .refl look⟩)
    refine ⟨spec', hspec, ⟨.widget widget.id, some (.sect sect.id), first⟩, ?_, rfl, rfl, hasks⟩
    simp only [parts, List.mem_append, List.mem_map]
    exact .inl (.inr ⟨_, hmem, by rw [hid]⟩)
  · obtain ⟨⟨sect, widget⟩, hw, hf⟩ := List.mem_flatMap.mp hf
    obtain ⟨⟨field₁, showWhen₁⟩, hf, hpair⟩ := List.mem_map.mp hf
    cases hpair
    obtain ⟨widget', hwidget, hentered⟩ := Widget.reorder_entered hf hc hfirst
    obtain ⟨spec', sect', hspec, hmem, -⟩ := spec.reorder_widget hw hwidget
    refine ⟨spec', hspec,
      ⟨.field widget.id field.table field.column, some (.widget widget.id), first⟩,
      ?_, rfl, rfl, hasks⟩
    simp only [parts, List.mem_append, List.mem_map]
    exact .inr ⟨(widget.id, field, first), List.mem_flatMap.mpr
      ⟨_, hmem, List.mem_map.mpr ⟨(field, first), hentered, by rw [hwidget.1]⟩⟩, rfl⟩

end Parts

/-! ### What a round of another order keeps -/

section Orders

variable {spec spec' : FormSpec} {rows : Rows} {shown H V : Shown} {T : Finset Item}

/-- A round of one order keeps whatever may stay for another: from the sheets down, nothing
that may stay is on what is hidden, and its conditions do not answer no. -/
theorem roundHides_keeps (h : spec.Reordered spec') (hT : Consistent (Keeps spec rows) T)
    (hsub : T ⊆ shown.items) (hH : roundHides spec' rows shown = .ok H) : ∀ x ∈ T, x ∉ H.items := by
  intro x
  induction hn : x.depth using Nat.strong_induction_on generalizing x with
  | _ n ih =>
    subst hn
    intro hx hgone
    obtain ⟨-, part', hpart', hitem, hwhy⟩ := ((roundHides_spec hH).1 x).mp hgone
    obtain ⟨part, hpart, hR⟩ := h.symm.exists_part hpart'
    obtain ⟨hcontainer, hshows⟩ := hT x hx part hpart (hR.item.symm.trans hitem)
    rcases hwhy with ⟨c, hc, hcgone⟩ | hfalse
    · have hdepth := spec'.depth_lt_of_mem_parts hpart' hc
      rw [hitem] at hdepth
      exact ih c.depth hdepth c rfl (hcontainer c (hR.container.symm.trans hc)) hcgone
    · rw [h.1] at hshows
      rw [← Shown.columnsOf_items] at hfalse
      exact shows_anti (columnsOf_mono hsub) hR.showWhen hfalse hshows

/-- The rounds of one order keep whatever may stay for another. -/
theorem rounds_keeps (h : spec.Reordered spec') (hT : Consistent (Keeps spec rows) T)
    (hsub : T ⊆ shown.items) (hV : rounds spec' rows shown = .ok V) : T ⊆ V.items := by
  refine (rounds_induction (P := fun S => T ⊆ S.items) hV hsub fun S H hS hH x hx => ?_).1
  rw [Shown.items_without, Finset.mem_sdiff]
  exact ⟨hS hx, roundHides_keeps h hT hS hH x hx⟩

/-- Where two orders both answer, they answer the same. -/
theorem visibility_eq_of_reordered (h : spec.Reordered spec') {v v' : Visibility}
    (hv : visibility spec rows = .ok v) (hv' : visibility spec' rows = .ok v') : v' = v := by
  unfold visibility at hv hv'
  cases hV : rounds spec rows spec.initial with
  | error e => simp [hV, bind, Except.bind] at hv
  | ok V =>
    cases hV' : rounds spec' rows spec'.initial with
    | error e => simp [hV', bind, Except.bind] at hv'
    | ok V' =>
      have hstart : spec.initial.items = spec'.initial.items := by
        rw [spec.items_initial, spec'.items_initial, h.everything_eq]
      have hle : V.items ⊆ V'.items := by
        refine rounds_keeps h (consistent_of_rounds spec.closed_initial hV) ?_ hV'
        rw [← hstart]
        exact (rounds_induction hV spec.closed_initial fun S H hS hH => hS.without hH).2.1
      have hge : V'.items ⊆ V.items := by
        refine rounds_keeps h.symm (consistent_of_rounds spec'.closed_initial hV') ?_ hV
        rw [hstart]
        exact (rounds_induction hV' spec'.closed_initial fun S H hS hH => hS.without hH).2.1
      obtain rfl : V = V' := Shown.items_injective (hle.antisymm hge)
      have hfields : spec.onWidgets = spec'.onWidgets :=
        h.onWidgets_subset.antisymm h.symm.onWidgets_subset
      simp only [hV, hV', bind, Except.bind, pure, Except.pure, Except.ok.injEq] at hv hv'
      rw [← hv, ← hv', hfields, h.1]

/-- Where the loop answers, it answers the greatest consistent choice. -/
theorem isGreatest_of_visibility {v : Visibility} (hv : visibility spec rows = .ok v) :
    IsGreatest {S | S ⊆ spec.everything ∧ Consistent (Keeps spec rows) S} v.items := by
  unfold visibility at hv
  cases hV : rounds spec rows spec.initial with
  | error e => simp [hV, bind, Except.bind] at hv
  | ok V =>
    simp only [hV, bind, Except.bind, pure, Except.pure, Except.ok.injEq] at hv
    subst hv
    rw [← spec.items_initial]
    refine ⟨⟨?_, consistent_of_rounds spec.closed_initial hV⟩, fun S hS => ?_⟩
    · exact (rounds_induction hV spec.closed_initial fun S H hS hH => hS.without hH).2.1
    · exact rounds_keeps (.refl spec) hS.2 hS.1 hV

end Orders

/-! ### When every test has an answer -/

/-- Every column there is, shown. -/
def FormSpec.columns (spec : FormSpec) : Finset (String × String) := columnsOf spec.everything

/-- An item stands while everything shows: its conditions hold, and what holds it stands. -/
inductive Standing (spec : FormSpec) (rows : Rows) : Item → Prop where
  | intro {x : Item}
      (container : ∀ part ∈ spec.parts, part.item = x → ∀ c, part.container = some c →
        Standing spec rows c)
      (shows : ∀ part ∈ spec.parts, part.item = x →
        Workbench.shows spec.tables rows spec.columns part.showWhen = .ok true) :
      Standing spec rows x

/-- While everything shows, each condition of a part whose containers stand can be tested on
its own. -/
def Readable (spec : FormSpec) (rows : Rows) : Prop :=
  ∀ part ∈ spec.parts, (∀ c, part.container = some c → Standing spec rows c) →
    ∀ condition ∈ part.showWhen.singles,
      ∃ b, holds spec.tables rows spec.columns condition = .ok b

section Readable

variable {spec spec' : FormSpec} {rows : Rows} {shown H V : Shown} {S : Finset Item}
  {columns : Finset (String × String)}

/-- A part whose containers stand has an answer, whatever shows. -/
theorem Readable.shows_ok (h : Readable spec rows) {part : Part} (hpart : part ∈ spec.parts)
    (hcontainer : ∀ c, part.container = some c → Standing spec rows c)
    (hcolumns : columns ⊆ spec.columns) :
    ∃ b, shows spec.tables rows columns part.showWhen = .ok b :=
  ShowWhen.exists_asked fun condition hc =>
    holds_ok_of_subset hcolumns (h part hpart hcontainer condition hc)

/-- What does not answer no while some columns show stands, and answers yes. -/
theorem Readable.standing (h : Readable spec rows) {x : Item}
    (hcontainer : ∀ part ∈ spec.parts, part.item = x → ∀ c, part.container = some c →
      Standing spec rows c)
    (hcolumns : columns ⊆ spec.columns)
    (hnot : ∀ part ∈ spec.parts, part.item = x →
      shows spec.tables rows columns part.showWhen ≠ .ok false) :
    Standing spec rows x ∧ ∀ part ∈ spec.parts, part.item = x →
      shows spec.tables rows columns part.showWhen = .ok true := by
  have hyes : ∀ part ∈ spec.parts, part.item = x →
      shows spec.tables rows columns part.showWhen = .ok true := by
    intro part hpart hitem
    obtain ⟨b, hb⟩ := h.shows_ok hpart (hcontainer part hpart hitem) hcolumns
    cases b with
    | true => exact hb
    | false => exact absurd hb (hnot part hpart hitem)
  refine ⟨⟨hcontainer, fun part hpart hitem => ?_⟩, hyes⟩
  obtain ⟨b, hb⟩ := h.shows_ok hpart (hcontainer part hpart hitem) subset_rfl
  cases b with
  | true => exact hb
  | false => exact absurd (hyes part hpart hitem) (shows_anti hcolumns (.refl _) hb)

/-- In a choice in which nothing fails, everything stands and may stay. -/
theorem Readable.keeps_of_settled (h : Readable spec rows) (hsub : S ⊆ spec.everything)
    (hsettled : ∀ x ∈ S, ¬ Fails spec rows S x) :
    ∀ x ∈ S, Standing spec rows x ∧ Keeps spec rows S x := by
  intro x
  induction hn : x.depth using Nat.strong_induction_on generalizing x with
  | _ n ih =>
    subst hn
    intro hx
    have hcontainer : ∀ part ∈ spec.parts, part.item = x → ∀ c, part.container = some c →
        c ∈ S := by
      intro part hpart hitem c hc
      by_contra hout
      exact hsettled x hx ⟨part, hpart, hitem, .inl ⟨c, hc, hout⟩⟩
    obtain ⟨hstands, hyes⟩ := h.standing (x := x)
      (fun part hpart hitem c hc =>
        (ih c.depth (hitem ▸ spec.depth_lt_of_mem_parts hpart hc) c rfl
          (hcontainer part hpart hitem c hc)).1)
      (columnsOf_mono hsub) fun part hpart hitem hfalse =>
        hsettled x hx ⟨part, hpart, hitem, .inr hfalse⟩
    exact ⟨hstands, fun part hpart hitem => ⟨hcontainer part hpart hitem, hyes part hpart hitem⟩⟩

/-- One level of a round has an answer, and what of it is left stands: its parts are those of
`xs`, and whatever is not gone is on what stands. -/
theorem Readable.exists_level (h : Readable spec rows) {α ι : Type} [DecidableEq ι]
    (live : Finset ι)
    (id : α → ι) (gone : α → Bool) (xs : List α) (item : ι → Item) (toPart : α → Part)
    (hparts : ∀ x ∈ xs, toPart x ∈ spec.parts)
    (hitems : ∀ part ∈ spec.parts, ∀ i, part.item = item i → ∃ x ∈ xs, toPart x = part ∧ id x = i)
    (hcolumns : columns ⊆ spec.columns)
    (hcontainer : ∀ x ∈ xs, id x ∈ live → gone x = false →
      ∀ c, (toPart x).container = some c → Standing spec rows c) :
    ∃ H, hidingOf (shows spec.tables rows columns) live id gone
      (fun x => (toPart x).showWhen) xs = .ok H ∧
      ∀ i ∈ live, i ∉ H → Standing spec rows (item i) := by
  obtain ⟨H, hH⟩ : ∃ H, hidingOf (shows spec.tables rows columns) live id gone
      (fun x => (toPart x).showWhen) xs = .ok H :=
    exists_hidingOf fun x hx hlive hgone =>
      h.shows_ok (hparts x hx) (hcontainer x hx hlive hgone) hcolumns
  refine ⟨H, hH, fun i hi hleft => ?_⟩
  have hstays : ∀ x ∈ xs, id x = i →
      ¬ (gone x = true ∨ shows spec.tables rows columns (toPart x).showWhen = .ok false) :=
    fun x hx hid hwhy => hleft (((hidingOf_eq_ok_iff.mp hH).2 i).mpr ⟨hi, x, hx, hid, hwhy⟩)
  refine (h.standing ?_ hcolumns ?_).1
  · intro part hpart hitem
    obtain ⟨x, hx, rfl, rfl⟩ := hitems part hpart i hitem
    exact hcontainer x hx hi (Bool.eq_false_iff.mpr fun hgone => hstays x hx rfl (.inl hgone))
  · intro part hpart hitem hfalse
    obtain ⟨x, hx, rfl, rfl⟩ := hitems part hpart i hitem
    exact hstays x hx rfl (.inr hfalse)

/-- A round has an answer, from the sheets down: what a level leaves stands, so the next level's
parts that do not go with their containers are on what stands. -/
theorem Readable.exists_roundHides (h : Readable spec rows) (hclosed : shown.Closed spec)
    (hcolumns : shown.columns ⊆ spec.columns) : ∃ H, roundHides spec rows shown = .ok H := by
  obtain ⟨pages, hpages, hpagesStand⟩ :=
    h.exists_level shown.pages Page.id (fun _ => false) spec.pages
    Item.page (fun page => ⟨.page page.id, none, page.showWhen⟩)
    (by simp [FormSpec.parts]; grind) (by simp [FormSpec.parts]; grind) hcolumns (by simp)
  have hon : ∀ {part : Part} {c : Item}, part ∈ spec.parts → part.item ∈ shown.items →
      part.container = some c → c ∈ shown.items := fun hpart hitem hc => hclosed _ hpart hitem _ hc
  obtain ⟨sections, hsections, hsectionsStand⟩ := h.exists_level shown.sections (fun x => x.2.id)
    (fun x => decide (x.1.id ∈ pages)) spec.placedSections Item.sect
    (fun x => ⟨.sect x.2.id, some (.page x.1.id), x.2.showWhen⟩)
    (by simp [FormSpec.parts]; grind) (by simp [FormSpec.parts]; grind) hcolumns (by
      rintro ⟨page, sect⟩ hs hlive hgone c ⟨⟩
      refine hpagesStand page.id ?_ (of_decide_eq_false hgone)
      have hpart : (⟨.sect sect.id, some (.page page.id), sect.showWhen⟩ : Part) ∈ spec.parts := by
        simp [FormSpec.parts]; grind
      exact Shown.page_mem_items.mp (hon hpart (Shown.sect_mem_items.mpr hlive) rfl))
  obtain ⟨widgets, hwidgets, hwidgetsStand⟩ := h.exists_level shown.widgets (fun x => x.2.id)
    (fun x => decide (x.1.id ∈ sections)) spec.placed Item.widget
    (fun x => ⟨.widget x.2.id, some (.sect x.1.id), x.2.showWhen⟩)
    (by simp [FormSpec.parts]; grind) (by simp [FormSpec.parts]; grind) hcolumns (by
      rintro ⟨sect, widget⟩ hw hlive hgone c ⟨⟩
      refine hsectionsStand sect.id ?_ (of_decide_eq_false hgone)
      have hpart : (⟨.widget widget.id, some (.sect sect.id), widget.showWhen⟩ : Part) ∈
          spec.parts := by
        simp [FormSpec.parts]; grind
      exact Shown.sect_mem_items.mp (hon hpart (Shown.widget_mem_items.mpr hlive) rfl))
  obtain ⟨fields, hfields, -⟩ :=
    h.exists_level shown.fields (fun x => (x.1, x.2.1.table, x.2.1.column))
    (fun x => decide (x.1 ∈ widgets)) spec.entered (fun f => Item.field f.1 f.2.1 f.2.2)
    (fun x => ⟨.field x.1 x.2.1.table x.2.1.column, some (.widget x.1), x.2.2⟩)
    (by simp [FormSpec.parts]; grind) (by simp [FormSpec.parts]; grind) hcolumns (by
      rintro ⟨widget, field, showWhen⟩ hf hlive hgone c ⟨⟩
      refine hwidgetsStand widget ?_ (of_decide_eq_false hgone)
      have hpart :
          (⟨.field widget field.table field.column, some (.widget widget), showWhen⟩ : Part) ∈
          spec.parts := by
        simp [FormSpec.parts]; grind
      exact Shown.widget_mem_items.mp (hon hpart (Shown.field_mem_items.mpr hlive) rfl))
  exact ⟨⟨pages, sections, widgets, fields⟩,
    roundHides_eq_ok_iff.mpr ⟨hpages, hsections, hwidgets, hfields⟩⟩

/-- What a round leaves of what shows stands. -/
theorem Readable.standing_of_left (h : Readable spec rows) (hclosed : shown.Closed spec)
    (hcolumns : shown.columns ⊆ spec.columns) (hH : roundHides spec rows shown = .ok H) :
    ∀ x ∈ shown.items, x ∉ H.items → Standing spec rows x := by
  intro x
  induction hn : x.depth using Nat.strong_induction_on generalizing x with
  | _ n ih =>
    subst hn
    intro hx hleft
    have hstays : ∀ part ∈ spec.parts, part.item = x →
        ¬ ((∃ c, part.container = some c ∧ c ∈ H.items) ∨
          shows spec.tables rows shown.columns part.showWhen = .ok false) :=
      fun part hpart hitem hwhy =>
        hleft (((roundHides_spec hH).1 x).mpr ⟨hx, part, hpart, hitem, hwhy⟩)
    refine (h.standing (fun part hpart hitem c hc => ?_) hcolumns fun part hpart hitem hfalse =>
      hstays part hpart hitem (.inr hfalse)).1
    refine ih c.depth (hitem ▸ spec.depth_lt_of_mem_parts hpart hc) c rfl ?_ fun hgone =>
      hstays part hpart hitem (.inl ⟨c, hc, hgone⟩)
    exact hclosed part hpart (hitem ▸ hx) c hc

/-- A first round, where there is one, keeps what stands in any order. -/
theorem not_mem_roundHides_of_standing (hre : spec.Reordered spec')
    (hH : roundHides spec' rows spec'.initial = .ok H) {x : Item} (hx : Standing spec rows x) :
    x ∉ H.items := by
  have hstart : spec'.initial.columns = spec.columns := by
    rw [← Shown.columnsOf_items, spec'.items_initial, ← hre.everything_eq, FormSpec.columns]
  induction hx with
  | @intro x _ hshows ih =>
    intro hgone
    obtain ⟨-, other', hother', hotherItem, hwhy⟩ := ((roundHides_spec hH).1 x).mp hgone
    obtain ⟨other, hother, hR⟩ := hre.symm.exists_part hother'
    have hsame := hR.item.symm.trans hotherItem
    rcases hwhy with ⟨c, hc, hcgone⟩ | hfalse
    · exact ih other hother hsame c (hR.container.symm.trans hc) hcgone
    · rw [hstart, ← hre.1] at hfalse
      exact shows_anti subset_rfl hR.showWhen hfalse (hshows other hother hsame)

/-- The loop answers only where its first round does. -/
theorem exists_roundHides_of_visibility {v : Visibility} (hv : visibility spec rows = .ok v) :
    ∃ H, roundHides spec rows spec.initial = .ok H := by
  cases hH : roundHides spec rows spec.initial with
  | ok H => exact ⟨H, rfl⟩
  | error e =>
    rw [visibility, rounds] at hv
    split at hv
    · cases hv
    · rename_i hide hhide
      rw [hH] at hhide
      cases hhide

/-- Every round has an answer, so the loop has one. -/
theorem Readable.exists_visibility (h : Readable spec rows) :
    ∃ v, visibility spec rows = .ok v := by
  obtain ⟨V, hV⟩ : ∃ V, rounds spec rows spec.initial = .ok V := by
    refine exists_rounds (P := fun S => S.Closed spec ∧ S.items ⊆ spec.everything)
      ⟨spec.closed_initial, spec.items_initial.subset⟩ fun S hS => ?_
    have hcolumns : S.columns ⊆ spec.columns := by
      rw [← Shown.columnsOf_items]
      exact columnsOf_mono hS.2
    obtain ⟨H, hH⟩ := h.exists_roundHides hS.1 hcolumns
    refine ⟨H, hH, hS.1.without hH, ?_⟩
    rw [Shown.items_without]
    exact Finset.sdiff_subset.trans hS.2
  exact ⟨_, by rw [visibility, hV]; rfl⟩

/-- A form and its reordering have the same columns. -/
theorem FormSpec.Reordered.columns_eq (hre : spec.Reordered spec') :
    spec.columns = spec'.columns := by
  rw [FormSpec.columns, FormSpec.columns, hre.everything_eq]

/-- What stands in another order stands. -/
theorem Readable.standing_of_reordered (h : Readable spec rows) (hre : spec.Reordered spec')
    {x : Item}
    (hx : Standing spec' rows x) : Standing spec rows x := by
  induction hx with
  | @intro x hcontainer hshows ih =>
    refine (h.standing (fun part hpart hitem c hc => ?_) subset_rfl
      fun part hpart hitem hfalse => ?_).1
    · obtain ⟨part', hpart', hR⟩ := hre.exists_part hpart
      exact ih part' hpart' (hR.item.symm.trans hitem) c (hR.container.symm.trans hc)
    · obtain ⟨part', hpart', hR⟩ := hre.exists_part hpart
      have htrue := hshows part' hpart' (hR.item.symm.trans hitem)
      rw [← hre.1, ← hre.columns_eq] at htrue
      exact shows_anti subset_rfl hR.showWhen hfalse htrue

/-- Readable in one order, readable in every order. -/
theorem Readable.reordered (h : Readable spec rows) (hre : spec.Reordered spec') :
    Readable spec' rows := by
  intro part' hpart' hcontainer condition hc
  obtain ⟨part, hpart, hR⟩ := hre.symm.exists_part hpart'
  rw [← hre.1, ← hre.columns_eq]
  exact h part hpart
    (fun c hcon => h.standing_of_reordered hre (hcontainer c (hR.container.trans hcon)))
    condition (hR.showWhen.symm.mem_singles hc)

/-- Where every order answers, every condition that could be the first one asked can be. -/
theorem readable_of_visibility
    (h : ∀ spec', spec.Reordered spec' → ∃ v, visibility spec' rows = .ok v) :
    Readable spec rows := by
  intro part hpart hcontainer condition hc
  by_contra hnone
  obtain ⟨e, he⟩ : ∃ e, holds spec.tables rows spec.columns condition = .error e := by
    cases hholds : holds spec.tables rows spec.columns condition with
    | error e => exact ⟨e, rfl⟩
    | ok b => exact absurd ⟨b, hholds⟩ hnone
  obtain ⟨spec', hre, part', hpart', hitem, hcon, hasks⟩ := spec.exists_first hpart hc
  obtain ⟨v, hv⟩ := h spec' hre
  -- the first round of that order, in which what stands is not hidden
  obtain ⟨H, hH⟩ := exists_roundHides_of_visibility hv
  have hstart : spec'.initial.columns = spec.columns := by
    rw [← Shown.columnsOf_items, spec'.items_initial, ← hre.everything_eq, FormSpec.columns]
  obtain ⟨b, hb⟩ := (roundHides_spec hH).2 part' hpart'
    (by rw [spec'.items_initial, FormSpec.mem_everything]; exact ⟨part', hpart', rfl⟩)
    fun c hc => not_mem_roundHides_of_standing hre hH (hcontainer c (hcon.symm.trans hc))
  rw [hstart, ← hre.1, shows, hasks.asked_error he] at hb
  cases hb

end Readable

/-! ### The greatest consistent choice -/

/-- The loop returns the greatest consistent choice: the same in every order of the form, and
where every narrowing ends, one item at a time or many. -/
def ShowsGreatest (spec : FormSpec) (rows : Rows) : Prop :=
  ∃ v, visibility spec rows = .ok v ∧
    IsGreatest {S | S ⊆ spec.everything ∧ Consistent (Keeps spec rows) S} v.items ∧
    (∀ spec', spec.Reordered spec' → visibility spec' rows = .ok v) ∧
    ∀ S, Relation.ReflTransGen (Narrows (Fails spec rows)) spec.everything S →
      (∃ S', Relation.ReflTransGen (Narrows (Fails spec rows)) S S' ∧
        Settled (Fails spec rows) S') ∧
        (Settled (Fails spec rows) S → S = v.items)

/-- What shows is the greatest consistent choice exactly when the form is readable for the
values typed. -/
theorem visible_greatest (spec : FormSpec) (rows : Rows) :
    ShowsGreatest spec rows ↔ Readable spec rows := by
  constructor
  · rintro ⟨v, -, -, horders, -⟩
    exact readable_of_visibility fun spec' hre => ⟨v, horders spec' hre⟩
  · intro h
    obtain ⟨v, hv⟩ := h.exists_visibility
    have hgreatest := isGreatest_of_visibility hv
    refine ⟨v, hv, hgreatest, fun spec' hre => ?_, fun S hrun =>
      ⟨exists_settled _ S, fun hsettled => ?_⟩⟩
    · obtain ⟨v', hv'⟩ := (h.reordered hre).exists_visibility
      rw [hv', visibility_eq_of_reordered hre hv hv']
    · have hS : Consistent (Keeps spec rows) S := fun x hx =>
        (h.keeps_of_settled (subset_of_run hrun) (settled_iff.mp hsettled) x hx).2
      exact (isGreatest_of_run not_fails_of_keeps hrun hS).unique hgreatest

/-- That an Integer column is above 1. -/
def aboveOne : SingleCondition :=
  .one { op := .above, values := ["1"], table := "risk", column := "sum_insured" }

/-- A section with a component that takes the column. -/
def mainSection : Section where
  id := "Sheet/Main"
  widgets :=
    [{ id := "Sheet/Main/inputs", kind := .collection, fields := [⟨"risk", "sum_insured"⟩] }]

/-- A section that shows while the column is above 1. -/
def extraSection : Section where
  id := "Sheet/Extra"
  showWhen := { conditions := [.one aboveOne] }

/-- Both on one sheet, the column an Integer of a one-row table. -/
def longNumberForm : FormSpec where
  tables := [{
    name := "risk"
    inputs := identitySchemaColumns ++ [{ name := "sum_insured", type := .int }] }]
  pages := [{ id := "Sheet", sections := [mainSection, extraSection] }]

/-- A whole number of so many digits. -/
def ones (n : ℕ) : String := String.ofList (List.replicate n '1')

/-- It typed into the column. -/
def longNumberRows (n : ℕ) : Rows := [("risk", [[("sum_insured", .text (ones n))]])]

theorem pyStrip_ones (n : ℕ) : pyStrip (ones n) = ones n := by
  have hdrop : (List.replicate n '1').dropWhile isPySpace = List.replicate n '1' := by
    cases n with
    | zero => rfl
    | succ n => rw [List.replicate_succ, List.dropWhile_cons_of_neg (by decide)]
  rw [pyStrip, strip, List.rdropWhile, ones, String.toList_ofList, hdrop,
    List.reverse_replicate, hdrop,
    List.reverse_replicate]

theorem cleaned_ones (n : ℕ) : cleaned (ones n) = List.replicate n '1' := by
  rw [cleaned, ones, String.toList_ofList, List.filter_replicate_of_pos (by decide)]

theorem takeSign_ones (n : ℕ) :
    takeSign (List.replicate n '1') = (false, List.replicate n '1') := by
  cases n <;> rfl

theorem isDigit_of_mem_ones {n : ℕ} : ∀ c ∈ List.replicate n '1', c.isDigit = true := by
  intro c hc
  rw [List.eq_of_mem_replicate hc]
  decide

/-- Past the limit `int` raises. -/
theorem typedAs_ones {n : ℕ} (h : 4300 < n) : typedAs .int (ones n) = .error .tooManyDigits := by
  have hne : n ≠ 0 := by omega
  refine typedAs_eq_error_iff.mpr ⟨rfl, rfl, ?_, false, List.replicate n '1', ?_, ?_⟩
  · have htake : (List.replicate n '1').takeWhile Char.isDigit = List.replicate n '1' :=
      List.takeWhile_eq_self_iff.mpr isDigit_of_mem_ones
    have hdrop : (List.replicate n '1').dropWhile Char.isDigit = [] :=
      List.dropWhile_eq_nil_iff.mpr isDigit_of_mem_ones
    have hnumber : (number? (List.replicate n '1')).isSome := by
      simp [number?, takeSign_ones, htake, hdrop, exponent?, hne]
    rw [cleaned_ones]
    exact Option.isSome_iff_exists.mp hnumber
  · rw [cleaned_ones, wholeDigits?, takeSign_ones]
    exact if_pos ⟨by simpa using hne, List.all_eq_true.mpr isDigit_of_mem_ones⟩
  · rw [List.length_replicate]
    exact h

/-- A condition on a number of too many digits raises. -/
theorem holds_aboveOne {n : ℕ} (hn : 4300 < n) {shown : Finset (String × String)}
    (h : ("risk", "sum_insured") ∈ shown) :
    holds longNumberForm.tables (longNumberRows n) shown aboveOne = .error .tooManyDigits := by
  have htyped : ofType .int (ones n) = .error .tooManyDigits := by
    rw [ofType, pyStrip_ones, typedAs_ones hn]
    rfl
  have hpasses : passes .int ⟨.above, ["1"], 0⟩ false (some (.text (ones n))) none =
      .error .tooManyDigits := by
    simp only [passes, valuePasses, htyped, bind, Except.bind]
    rfl
  have hprice : onPrice longNumberForm.tables aboveOne = false := by decide
  have hcolumn : testedColumn longNumberForm.tables "risk" "sum_insured" =
      some { name := "sum_insured", type := .int } := by decide
  have hfits : fits .int ⟨.above, ["1"], 0⟩ false none = .ok true := by rfl
  have hcell : firstCell (longNumberRows n) "risk" "sum_insured" = some (.text (ones n)) := by rfl
  have hshown : conditionShown
      { op := .above, values := ["1"], table := "risk", column := "sum_insured" } shown = true := by
    simp [conditionShown, h]
  unfold holds
  rw [if_neg (by rw [hprice]; decide)]
  simp only [aboveOne, hcolumn]
  simp [otherColumn, hfits, hshown, hcell, hpasses, bind, Except.bind]

/-- A round over a number of too many digits raises. -/
theorem roundHides_longNumber {n : ℕ} (hn : 4300 < n) :
    roundHides longNumberForm (longNumberRows n) longNumberForm.initial =
      .error .tooManyDigits := by
  -- the sections, whatever asks them: the first shows, and the second cannot be asked
  have hsections : ∀ asks : ShowWhen → Except TestError Bool, asks {} = .ok true →
      asks extraSection.showWhen = .error .tooManyDigits →
      hidingOf asks longNumberForm.initial.sections (fun x => x.2.id)
        (fun x => decide (x.1.id ∈ (∅ : Finset String))) (fun x => x.2.showWhen)
        longNumberForm.placedSections = .error .tooManyDigits := by
    intro asks hmain hextra
    have hplaced : longNumberForm.placedSections =
        longNumberForm.pages.flatMap fun page => [(page, mainSection), (page, extraSection)] := rfl
    have hmainLive : mainSection.id ∈ longNumberForm.initial.sections := by decide
    have hextraLive : extraSection.id ∈ longNumberForm.initial.sections := by decide
    have hshow : mainSection.showWhen = {} := rfl
    rw [hplaced, show longNumberForm.pages = [⟨"Sheet", {}, [mainSection, extraSection]⟩] from rfl]
    simp [hidingOf, selectM, hides, hmainLive, hextraLive, hshow, hmain, hextra, bind, Except.bind,
      pure, Except.pure]
  have hcolumn : ("risk", "sum_insured") ∈ longNumberForm.initial.columns := by decide
  have hextra : shows longNumberForm.tables (longNumberRows n) longNumberForm.initial.columns
      extraSection.showWhen = .error .tooManyDigits := by
    exact ShowWhen.AsksFirst.asked_error ⟨_, _, rfl, rfl⟩ (holds_aboveOne hn hcolumn)
  have hpages : hidingOf
      (shows longNumberForm.tables (longNumberRows n) longNumberForm.initial.columns)
      longNumberForm.initial.pages Page.id (fun _ => false) Page.showWhen longNumberForm.pages =
        .ok ∅ := by
    rfl
  rw [roundHides]
  simp only [hpages, hsections _ rfl hextra, bind, Except.bind]

/-- The loop raises on a whole number past the limit. -/
theorem visibility_longNumber (v : Visibility) :
    visibility longNumberForm (longNumberRows 4301) ≠ .ok v := by
  intro hv
  rw [visibility, rounds] at hv
  split at hv
  · cases hv
  · rename_i hide hhide
    rw [roundHides_longNumber (by omega)] at hhide
    cases hhide

/-- The greatest choice there is does not show where the loop raises. -/
theorem visible_longNumber : ¬ ShowsGreatest longNumberForm (longNumberRows 4301) := by
  rintro ⟨v, hv, -⟩
  exact visibility_longNumber v hv

end Haute.Workbench
