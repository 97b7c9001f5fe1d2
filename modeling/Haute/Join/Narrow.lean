import Haute.Join.Frame
import Mathlib.Data.Finset.Insert

/-!
# Narrowing a join's parents

`narrowJoinParentDemand` routes the columns demanded of a join to its parents. The join of what
is left of the parents has every demanded column with the values it had (`demanded_kept`): a
column that keeps its name keeps its source, and one with a suffix keeps the column of the other
side that gave it the suffix. No name is given twice that was not given twice before
(`nodup_outputs_restrict`).
-/

namespace Haute.Join

variable {V ε : Type}

/-! ### The demand -/

/-- `column[:-len(suffix)]`. -/
def withoutSuffix (column suffix : String) : String :=
  String.ofList (column.toList.take (column.toList.length - suffix.toList.length))

/-- `column.endswith(suffix)`. -/
def endsWith (column suffix : String) : Bool := suffix.toList.isSuffixOf column.toList

/-- What the parents' columns and a join's keys and suffix are. -/
structure JoinShape where
  leftKeys : Finset String
  rightKeys : Finset String
  leftSchema : Finset String
  rightSchema : Finset String
  suffix : String

/-- Whether a column is the right parent's, suffixed for the left parent's of the same name. -/
def JoinShape.suffixed (shape : JoinShape) (column : String) : Bool :=
  endsWith column shape.suffix &&
    (withoutSuffix column shape.suffix ≠ "" ∧
      withoutSuffix column shape.suffix ∈ shape.leftSchema ∧
      withoutSuffix column shape.suffix ∈ shape.rightSchema)

/-- One demanded column routed to the parents. -/
def routeColumn (shape : JoinShape) (demand : Finset String × Finset String) (column : String) :
    Option (Finset String × Finset String) :=
  if column ∈ shape.leftKeys then some demand
  else if shape.suffixed column then
    if column ∈ shape.leftSchema ∨ column ∈ shape.rightSchema then none
    else
      some (insert (withoutSuffix column shape.suffix) demand.1,
        insert (withoutSuffix column shape.suffix) demand.2)
  else if column ∈ shape.leftSchema ∨ column ∈ shape.rightSchema ∨ column ∈ shape.rightKeys then
    some (if column ∈ shape.leftSchema then insert column demand.1 else demand.1,
      if (column ∈ shape.rightSchema ∧ column ∉ shape.leftSchema) ∨ column ∈ shape.rightKeys then
        insert column demand.2
      else demand.2)
  else none

/-- The demanded columns routed in turn. -/
def routeColumns (shape : JoinShape) : List String → Finset String × Finset String →
    Option (Finset String × Finset String)
  | [], demand => some demand
  | column :: columns, demand => (routeColumn shape demand column).bind (routeColumns shape columns)

/-- The columns asked of the left parent and of the right one, or `none` where the demand is not
routed mechanically. -/
def narrowJoinParentDemand (demanded : List String) (shape : JoinShape) (how : How) :
    Option (Finset String × Finset String) :=
  if how ∉ [How.inner, How.left, How.semi, How.anti] then none
  else if shape.leftKeys = ∅ ∧ shape.rightKeys = ∅ then none
  else if shape.suffix = "" then none
  else routeColumns shape demanded (shape.leftKeys, shape.rightKeys)

/-- A join's keys, suffix and parents' columns. -/
def JoinNode.shape (node : JoinNode) (left right : Frame V) : JoinShape where
  leftKeys := if node.how = .cross then ∅ else node.leftOn.toFinset
  rightKeys := if node.how = .cross then ∅ else node.rightOn.toFinset
  leftSchema := left.columns.toFinset
  rightSchema := right.columns.toFinset
  suffix := node.suffix

/-! ### What is asked for -/

/-- A column is routed: it is a key of the left parent, or both parents are asked for the column it
was suffixed from, or the parent it is a column of is asked for it. -/
def Routed (shape : JoinShape) (demand : Finset String × Finset String) (column : String) : Prop :=
  column ∈ shape.leftKeys ∨
    (shape.suffixed column ∧ column ∉ shape.leftSchema ∧ column ∉ shape.rightSchema ∧
      withoutSuffix column shape.suffix ∈ demand.1 ∧
      withoutSuffix column shape.suffix ∈ demand.2) ∨
    (¬shape.suffixed column ∧ (column ∈ shape.leftSchema ∨ column ∈ shape.rightSchema ∨
        column ∈ shape.rightKeys) ∧
      (column ∈ shape.leftSchema → column ∈ demand.1) ∧
      (column ∈ shape.rightSchema → column ∉ shape.leftSchema → column ∈ demand.2))

theorem Routed.mono {shape : JoinShape} {d d' : Finset String × Finset String} {column : String}
    (h : Routed shape d column) (hl : d.1 ⊆ d'.1) (hr : d.2 ⊆ d'.2) : Routed shape d' column := by
  rcases h with h | ⟨hs, h1, h2, h3, h4⟩ | ⟨hs, h1, h2, h3⟩
  · exact .inl h
  · exact .inr (.inl ⟨hs, h1, h2, hl h3, hr h4⟩)
  · exact .inr (.inr ⟨hs, h1, fun h => hl (h2 h), fun h h' => hr (h3 h h')⟩)

theorem routeColumn_spec {shape : JoinShape} {d d' : Finset String × Finset String}
    {column : String} (h : routeColumn shape d column = some d') :
    Routed shape d' column ∧ d.1 ⊆ d'.1 ∧ d.2 ⊆ d'.2 := by
  unfold routeColumn at h
  by_cases hkey : column ∈ shape.leftKeys
  · rw [if_pos hkey] at h
    obtain rfl := Option.some.inj h
    exact ⟨.inl hkey, subset_rfl, subset_rfl⟩
  rw [if_neg hkey] at h
  by_cases hsuffixed : shape.suffixed column = true
  · rw [if_pos hsuffixed] at h
    split_ifs at h with hreal
    obtain rfl := Option.some.inj h
    rw [not_or] at hreal
    exact ⟨.inr (.inl ⟨hsuffixed, hreal.1, hreal.2, Finset.mem_insert_self _ _,
      Finset.mem_insert_self _ _⟩), Finset.subset_insert _ _, Finset.subset_insert _ _⟩
  rw [if_neg hsuffixed] at h
  by_cases hmapped : column ∈ shape.leftSchema ∨ column ∈ shape.rightSchema ∨
      column ∈ shape.rightKeys
  · rw [if_pos hmapped] at h
    obtain rfl := Option.some.inj h
    refine ⟨.inr (.inr ⟨hsuffixed, hmapped, fun hl => ?_, fun hr hl => ?_⟩), ?_, ?_⟩
    · rw [if_pos hl]
      exact Finset.mem_insert_self _ _
    · dsimp only
      rw [if_pos (Or.inl ⟨hr, hl⟩)]
      exact Finset.mem_insert_self _ _
    · dsimp only
      split_ifs
      · exact Finset.subset_insert _ _
      · exact subset_rfl
    · dsimp only
      split_ifs
      · exact Finset.subset_insert _ _
      · exact subset_rfl
  · rw [if_neg hmapped] at h
    cases h

theorem routeColumns_spec {shape : JoinShape} {demanded : List String}
    {d d' : Finset String × Finset String} (h : routeColumns shape demanded d = some d') :
    (∀ column ∈ demanded, Routed shape d' column) ∧ d.1 ⊆ d'.1 ∧ d.2 ⊆ d'.2 := by
  induction demanded generalizing d with
  | nil =>
    obtain rfl := Option.some.inj h
    exact ⟨by simp, subset_rfl, subset_rfl⟩
  | cons column demanded ih =>
    obtain ⟨d₁, hfirst, hrest⟩ := Option.bind_eq_some_iff.mp h
    obtain ⟨hrouted, hl, hr⟩ := routeColumn_spec hfirst
    obtain ⟨hall, hl', hr'⟩ := ih hrest
    exact ⟨List.forall_mem_cons.mpr ⟨hrouted.mono hl' hr', hall⟩, hl.trans hl', hr.trans hr'⟩

/-- A column without a name is asked of the right parent only as a key, if the left parent has
one. -/
theorem nameless_of_routeColumn {shape : JoinShape} (hl : "" ∈ shape.leftSchema) {column : String}
    {d d' : Finset String × Finset String} (h : routeColumn shape d column = some d')
    (hmem : "" ∈ d'.2) : "" ∈ d.2 ∨ "" ∈ shape.rightKeys := by
  unfold routeColumn at h
  by_cases hkey : column ∈ shape.leftKeys
  · rw [if_pos hkey] at h
    obtain rfl := Option.some.inj h
    exact .inl hmem
  rw [if_neg hkey] at h
  by_cases hsuffixed : shape.suffixed column = true
  · rw [if_pos hsuffixed] at h
    split_ifs at h with hreal
    obtain rfl := Option.some.inj h
    refine (Finset.mem_insert.mp hmem).elim (fun hname => ?_) .inl
    simp [JoinShape.suffixed, ← hname] at hsuffixed
  rw [if_neg hsuffixed] at h
  by_cases hmapped : column ∈ shape.leftSchema ∨ column ∈ shape.rightSchema ∨
      column ∈ shape.rightKeys
  · rw [if_pos hmapped] at h
    obtain rfl := Option.some.inj h
    dsimp only at hmem
    split_ifs at hmem with hasked
    · refine (Finset.mem_insert.mp hmem).elim (fun hname => ?_) .inl
      subst hname
      exact hasked.elim (fun hr => absurd hl hr.2) .inr
    · exact .inl hmem
  · rw [if_neg hmapped] at h
    cases h

theorem nameless_of_routeColumns {shape : JoinShape} (hl : "" ∈ shape.leftSchema)
    {demanded : List String} {d d' : Finset String × Finset String}
    (h : routeColumns shape demanded d = some d') (hmem : "" ∈ d'.2) :
    "" ∈ d.2 ∨ "" ∈ shape.rightKeys := by
  induction demanded generalizing d with
  | nil =>
    obtain rfl := Option.some.inj h
    exact .inl hmem
  | cons column demanded ih =>
    obtain ⟨d₁, hfirst, hrest⟩ := Option.bind_eq_some_iff.mp h
    exact (ih hrest).elim (nameless_of_routeColumn hl hfirst) .inr

/-! ### What is kept -/

section Kept

variable {E : Engine V ε} {node : JoinNode} {left right out : Frame V}
  {ld rd : Finset String}

theorem mem_outputs {ls rs : List String} {c : String} {s : Source} :
    (c, s) ∈ outputs E node ls rs ↔
      (c ∈ ls ∧ s = .left c) ∨
        ∃ r ∈ rs, node.how.filters = false ∧ ¬(E.coalesces node ∧ r ∈ node.rightOn) ∧
          s = .right r ∧ c = if r ∈ ls then r ++ node.suffix else r := by
  unfold outputs
  rw [List.mem_append]
  refine or_congr ?_ ?_
  · simp only [List.mem_map, Prod.mk.injEq]
    constructor
    · rintro ⟨c', hc', rfl, rfl⟩
      exact ⟨hc', rfl⟩
    · rintro ⟨hc, rfl⟩
      exact ⟨c, hc, rfl, rfl⟩
  · cases node.how.filters with
    | true => simp
    | false =>
      simp only [Bool.false_eq_true, if_false, List.mem_map, List.mem_filter, Prod.mk.injEq,
        Bool.not_eq_true', Bool.and_eq_false_imp, decide_eq_false_iff_not, true_and]
      constructor
      · rintro ⟨r, ⟨hr, hkey⟩, rfl, rfl⟩
        exact ⟨r, hr, fun h => hkey h.1 h.2, rfl, rfl⟩
      · rintro ⟨r, hr, hkey, rfl, rfl⟩
        exact ⟨r, ⟨hr, fun h h' => hkey ⟨h, h'⟩⟩, rfl, rfl⟩

/-- One name, one source. -/
theorem source_unique {ls rs : List String} (h : ((outputs E node ls rs).map Prod.fst).Nodup)
    {c : String} {s s' : Source} (hs : (c, s) ∈ outputs E node ls rs)
    (hs' : (c, s') ∈ outputs E node ls rs) : s = s' :=
  (Prod.mk.inj (List.inj_on_of_nodup_map h hs hs' rfl)).2

theorem suffixed_notMem {ls rs : List String}
    (h : ((outputs E node ls rs).map Prod.fst).Nodup) {r : String} (hr : r ∈ rs)
    (hhow : node.how.filters = false) (hkey : ¬(E.coalesces node ∧ r ∈ node.rightOn))
    (hl : r ∈ ls) : r ++ node.suffix ∉ ls := by
  intro hmem
  have hright : (r ++ node.suffix, Source.right r) ∈ outputs E node ls rs :=
    mem_outputs.mpr (.inr ⟨r, hr, hhow, hkey, rfl, (if_pos hl).symm⟩)
  have hleft : (r ++ node.suffix, Source.left (r ++ node.suffix)) ∈ outputs E node ls rs :=
    mem_outputs.mpr (.inl ⟨hmem, rfl⟩)
  exact absurd (source_unique h hright hleft) (by simp)

/-- A right column that keeps its name is not another's suffixed name. -/
theorem suffixed_ne {ls rs : List String} (h : ((outputs E node ls rs).map Prod.fst).Nodup)
    {r r' : String} (hr : r ∈ rs) (hr' : r' ∈ rs) (hhow : node.how.filters = false)
    (hkey : ¬(E.coalesces node ∧ r ∈ node.rightOn))
    (hkey' : ¬(E.coalesces node ∧ r' ∈ node.rightOn)) (hl : r ∈ ls) (hl' : r' ∉ ls) :
    r' ≠ r ++ node.suffix := by
  intro heq
  have hright : (r', Source.right r) ∈ outputs E node ls rs :=
    mem_outputs.mpr (.inr ⟨r, hr, hhow, hkey, rfl, by rw [if_pos hl, heq]⟩)
  have hright' : (r', Source.right r') ∈ outputs E node ls rs :=
    mem_outputs.mpr (.inr ⟨r', hr', hhow, hkey', rfl, (if_neg hl').symm⟩)
  obtain rfl := Source.right.inj (source_unique h hright hright')
  exact hl' hl

/-- Fewer columns make no name stand twice. -/
theorem nodup_outputs_subset {ls rs ls' rs' : List String}
    (h : ((outputs E node ls rs).map Prod.fst).Nodup) (hls : ls' ⊆ ls) (hrs : rs' ⊆ rs)
    (hls' : ls'.Nodup) (hrs' : rs'.Nodup) : ((outputs E node ls' rs').map Prod.fst).Nodup := by
  have hout : (outputs E node ls' rs').map Prod.fst = ls' ++ if node.how.filters then [] else
      (rs'.filter fun c => !(E.coalesces node && decide (c ∈ node.rightOn))).map fun c =>
        if c ∈ ls' then c ++ node.suffix else c := by
    unfold outputs
    split_ifs <;> simp [Function.comp_def]
  rw [hout]
  cases hhow : node.how.filters with
  | true => simpa using hls'
  | false =>
    have hmem : ∀ r, (r ∈ rs'.filter fun c => !(E.coalesces node && decide (c ∈ node.rightOn))) →
        r ∈ rs ∧ ¬(E.coalesces node ∧ r ∈ node.rightOn) := by
      intro r hr
      rw [List.mem_filter] at hr
      exact ⟨hrs hr.1, fun hkey => by simp [hkey.1, hkey.2] at hr⟩
    rw [if_neg (by simp), List.nodup_append]
    refine ⟨hls', ?_, ?_⟩
    · refine List.Nodup.map_on (fun r hr r' hr' heq => ?_) (hrs'.filter _)
      obtain ⟨hr, hkey⟩ := hmem r hr
      obtain ⟨hr', hkey'⟩ := hmem r' hr'
      -- of two names one suffixed and one not, the second is a left column or a name given twice
      have hmixed : ∀ {a b : String}, a ∈ rs → b ∈ rs → ¬(E.coalesces node ∧ a ∈ node.rightOn) →
          ¬(E.coalesces node ∧ b ∈ node.rightOn) → a ∈ ls' → b ≠ a ++ node.suffix := by
        intro a b ha hb hka hkb hl heq
        by_cases hbl : b ∈ ls
        · exact suffixed_notMem h ha hhow hka (hls hl) (heq ▸ hbl)
        · exact suffixed_ne h ha hb hhow hka hkb (hls hl) hbl heq
      split_ifs at heq with hl hl'
      · exact (String.append_left_inj node.suffix).mp heq
      · exact absurd heq.symm (hmixed hr hr' hkey hkey' hl)
      · exact absurd heq (hmixed hr' hr hkey' hkey ‹_›)
      · exact heq
    · rintro c hc _ hr rfl
      obtain ⟨r, hr, heq⟩ := List.mem_map.mp hr
      obtain ⟨hr, hkey⟩ := hmem r hr
      split_ifs at heq with hl
      · exact suffixed_notMem h hr hhow hkey (hls hl) (heq ▸ hls hc)
      · exact hl (heq ▸ hc)

theorem endsWith_append (r suffix : String) : endsWith (r ++ suffix) suffix = true := by
  rw [endsWith, String.toList_append, List.isSuffixOf_iff_suffix]
  exact List.suffix_append _ _

theorem withoutSuffix_append (r suffix : String) : withoutSuffix (r ++ suffix) suffix = r := by
  rw [withoutSuffix, String.toList_append, List.length_append, Nat.add_sub_cancel,
    List.take_left', String.ofList_toList]
  rfl

/-- Where the routing misses: the suffix alone is demanded, the name of the right parent's column
without a name, and it is also the name of a column of the right parent. -/
structure Missed (E : Engine V ε) (node : JoinNode) (left right : Frame V)
    (demanded : List String) : Prop where
  demanded : node.suffix ∈ demanded
  nameless_left : "" ∈ left.columns
  nameless_right : "" ∈ right.columns
  kept : node.how.filters = false ∧ ¬(E.coalesces node ∧ "" ∈ node.rightOn)
  key : node.suffix ∈ right.columns

theorem mem_leftSchema {c : String} :
    c ∈ (node.shape left right).leftSchema ↔ c ∈ left.columns := by
  simp [JoinNode.shape]

theorem mem_rightSchema {c : String} :
    c ∈ (node.shape left right).rightSchema ↔ c ∈ right.columns := by
  simp [JoinNode.shape]

theorem mem_leftOn_of_leftKeys {k : String} (h : k ∈ (node.shape left right).leftKeys) :
    k ∈ node.leftOn := by
  simp only [JoinNode.shape] at h
  split_ifs at h
  · simp at h
  · simpa using h

theorem mem_rightOn_of_rightKeys {k : String} (h : k ∈ (node.shape left right).rightKeys) :
    k ∈ node.rightOn := by
  simp only [JoinNode.shape] at h
  split_ifs at h
  · simp at h
  · simpa using h

/-- A column of the left parent is asked of it. -/
theorem left_asked {c : String} (hld : ∀ k ∈ node.leftOn, k ∈ ld)
    (hrouted : Routed (node.shape left right) (ld, rd) c) (hc : c ∈ left.columns) : c ∈ ld := by
  rcases hrouted with hk | ⟨-, hnot, -⟩ | ⟨-, -, hask, -⟩
  · exact hld c (mem_leftOn_of_leftKeys hk)
  · exact absurd (mem_leftSchema.mpr hc) hnot
  · exact hask (mem_leftSchema.mpr hc)

/-- A column of the right parent under its own name is asked of it. -/
theorem right_asked {c : String} (hkeys : ∀ k ∈ node.leftOn, k ∈ left.columns)
    (hrouted : Routed (node.shape left right) (ld, rd) c) (hc : c ∈ right.columns)
    (hl : c ∉ left.columns) : c ∈ rd := by
  rcases hrouted with hk | ⟨-, -, hnot, -⟩ | ⟨-, -, -, hask⟩
  · exact absurd (hkeys _ (mem_leftOn_of_leftKeys hk)) hl
  · exact absurd (mem_rightSchema.mpr hc) hnot
  · exact hask (mem_rightSchema.mpr hc) fun h => hl (mem_leftSchema.mp h)

/-- A column of the right parent with a suffix is asked of both, unless the routing misses. -/
theorem suffixed_asked {demanded : List String} {r : String}
    (hkeys : ∀ k ∈ node.leftOn, k ∈ left.columns)
    (hkeys' : ∀ k ∈ node.rightOn, k ∈ right.columns)
    (hmiss : ¬Missed E node left right demanded) (hc : r ++ node.suffix ∈ demanded)
    (hrouted : Routed (node.shape left right) (ld, rd) (r ++ node.suffix))
    (hl : r ∈ left.columns) (hr : r ∈ right.columns)
    (hkept : node.how.filters = false ∧ ¬(E.coalesces node ∧ r ∈ node.rightOn))
    (hnotl : r ++ node.suffix ∉ left.columns) : r ∈ ld ∧ r ∈ rd := by
  rcases hrouted with hk | ⟨-, -, -, hask, hask'⟩ | ⟨hplain, hmapped, -⟩
  · exact absurd (hkeys _ (mem_leftOn_of_leftKeys hk)) hnotl
  · simp only [JoinNode.shape, withoutSuffix_append] at hask hask'
    exact ⟨hask, hask'⟩
  · -- not seen to be suffixed: it is the suffix alone, and another column's name
    have hr0 : r = "" := by
      by_contra hne
      refine hplain ?_
      simp [JoinNode.shape, JoinShape.suffixed, endsWith_append, withoutSuffix_append, hne, hl, hr]
    subst hr0
    rw [String.empty_append] at hc hnotl hmapped
    refine absurd ⟨hc, hl, hr, hkept, ?_⟩ hmiss
    rcases hmapped with hm | hm | hm
    · exact absurd (mem_leftSchema.mp hm) hnotl
    · exact mem_rightSchema.mp hm
    · exact hkeys' _ (mem_rightOn_of_rightKeys hm)

/-- A demanded column has its source among what is asked for, unless the routing misses. -/
theorem source_kept {demanded : List String}
    (hkeys : ∀ k ∈ node.leftOn, k ∈ left.columns)
    (hkeys' : ∀ k ∈ node.rightOn, k ∈ right.columns)
    (hnodup : ((outputs E node left.columns right.columns).map Prod.fst).Nodup)
    (hmiss : ¬Missed E node left right demanded) (hld : ∀ k ∈ node.leftOn, k ∈ ld)
    {c : String} (hc : c ∈ demanded) (hrouted : Routed (node.shape left right) (ld, rd) c)
    {s : Source} (hs : (c, s) ∈ outputs E node left.columns right.columns) :
    (c, s) ∈ outputs E node (left.restrict ld).columns (right.restrict rd).columns ∧
      (∀ x, s = .left x → x ∈ ld) ∧ ∀ x, s = .right x → x ∈ rd := by
  rcases mem_outputs.mp hs with ⟨hcl, rfl⟩ | ⟨r, hrr, hhow, hkey, rfl, hname⟩
  · have hcld := left_asked hld hrouted hcl
    refine ⟨mem_outputs.mpr (.inl ⟨Frame.mem_columns_restrict.mpr ⟨hcl, hcld⟩, rfl⟩), ?_, by simp⟩
    rintro x hx
    obtain rfl := Source.left.inj hx
    exact hcld
  · -- a right column keeps the suffix it has exactly if the left column it has it for is kept
    have hasked : r ∈ rd ∧ (r ∈ left.columns → r ∈ ld) := by
      by_cases hrl : r ∈ left.columns
      · rw [if_pos hrl] at hname
        subst hname
        obtain ⟨hl, hr⟩ := suffixed_asked hkeys hkeys' hmiss hc hrouted hrl hrr ⟨hhow, hkey⟩
          (suffixed_notMem hnodup hrr hhow hkey hrl)
        exact ⟨hr, fun _ => hl⟩
      · rw [if_neg hrl] at hname
        subst hname
        exact ⟨right_asked hkeys hrouted hrr hrl, fun h => absurd h hrl⟩
    have hmem : r ∈ (left.restrict ld).columns ↔ r ∈ left.columns :=
      Frame.mem_columns_restrict.trans ⟨And.left, fun h => ⟨h, hasked.2 h⟩⟩
    refine ⟨mem_outputs.mpr (.inr ⟨r, Frame.mem_columns_restrict.mpr ⟨hrr, hasked.1⟩, hhow, hkey,
      rfl, ?_⟩), by simp, ?_⟩
    · rw [hname]
      exact (if_congr hmem rfl rfl).symm
    · rintro x hx
      obtain rfl := Source.right.inj hx
      exact hasked.1

/-- **Narrowing a join's parents keeps the demanded columns**, unless the routing misses. -/
theorem demanded_kept_iff {demanded : List String} (hjoin : join E node left right = .ok out)
    (hdemanded : ∀ c ∈ demanded, c ∈ out.columns)
    (hnarrow : narrowJoinParentDemand demanded (node.shape left right) node.how = some (ld, rd)) :
    (∃ out', join E node (left.restrict ld) (right.restrict rd) = .ok out' ∧
      ∀ c ∈ demanded, c ∈ out'.columns ∧ out'.column c = out.column c) ↔
      ¬Missed E node left right demanded := by
  unfold narrowJoinParentDemand at hnarrow
  split_ifs at hnarrow with hhow hnokeys hsuffix
  have hmechanical : node.how.mechanical = true := by
    simp only [List.mem_cons, List.not_mem_nil, or_false] at hhow
    rcases hhow with h | h | h | h <;> rw [h] <;> rfl
  have hcross : node.how ≠ .cross := by
    intro h
    rw [h] at hmechanical
    cases hmechanical
  obtain ⟨hrouted, hld, hrd⟩ := routeColumns_spec hnarrow
  have hld' : ∀ k ∈ node.leftOn, k ∈ ld := by
    intro k hk
    exact hld (by simpa [JoinNode.shape, hcross] using hk)
  have hrd' : ∀ k ∈ node.rightOn, k ∈ rd := by
    intro k hk
    exact hrd (by simpa [JoinNode.shape, hcross] using hk)
  obtain ⟨hkeys, hkeys', hnodup, pairs, hpairs, hcolumns, hrows⟩ :=
    (join_eq_ok_iff hmechanical).mp hjoin
  constructor
  · rintro ⟨out', hjoin', hall⟩ hmiss
    obtain ⟨-, -, -, -, -, hcolumns', -⟩ := (join_eq_ok_iff hmechanical).mp hjoin'
    obtain ⟨hsuffix', hleft, hright, ⟨hhow', hkept⟩, hkey⟩ := hmiss
    have hnotl : node.suffix ∉ left.columns := by
      simpa using suffixed_notMem hnodup hright hhow' hkept hleft
    -- the column of that name is a coalesced key, or it would stand twice
    have hcoalesced : E.coalesces node ∧ node.suffix ∈ node.rightOn := by
      by_contra hnot
      exact suffixed_ne hnodup hright hkey hhow' hkept hnot hleft hnotl (by simp)
    have hnameless : "" ∉ rd := by
      intro hmem
      have hask := nameless_of_routeColumns (by simpa [JoinNode.shape] using hleft) hnarrow hmem
      have hon : "" ∈ node.rightOn := by simpa [JoinNode.shape, hcross] using hask
      exact hkept ⟨hcoalesced.1, hon⟩
    have hname := (hall _ hsuffix').1
    rw [hcolumns'] at hname
    obtain ⟨⟨c, s⟩, hs, hc⟩ := List.mem_map.mp hname
    obtain rfl : c = node.suffix := hc
    rcases mem_outputs.mp hs with ⟨hmem, -⟩ | ⟨r, hr, -, hk, -, hname⟩
    · exact hnotl (Frame.mem_columns_restrict.mp hmem).1
    · split_ifs at hname with hl
      · obtain rfl : "" = r :=
          (String.append_left_inj node.suffix).mp (String.empty_append.trans hname)
        exact hnameless (Frame.mem_columns_restrict.mp hr).2
      · exact hk (hname ▸ hcoalesced)
  · intro hmiss
    have hnodup' : ((outputs E node (left.restrict ld).columns (right.restrict rd).columns).map
        Prod.fst).Nodup :=
      nodup_outputs_subset hnodup (List.filter_subset_self _) (List.filter_subset_self _)
        (left.restrict ld).nodup (right.restrict rd).nodup
    have hmatching : E.matching node ((left.restrict ld).keyTuples node.leftOn)
        ((right.restrict rd).keyTuples node.rightOn) = .ok pairs := by
      rw [Frame.keyTuples_restrict hld', Frame.keyTuples_restrict hrd', hpairs]
    obtain ⟨out', hjoin'⟩ := exists_join hmechanical
      (fun k hk => Frame.mem_columns_restrict.mpr ⟨hkeys k hk, hld' k hk⟩)
      (fun k hk => Frame.mem_columns_restrict.mpr ⟨hkeys' k hk, hrd' k hk⟩) hnodup' hmatching
    refine ⟨out', hjoin', fun c hc => ?_⟩
    obtain ⟨-, -, -, pairs', hpairs', hcolumns', hrows'⟩ := (join_eq_ok_iff hmechanical).mp hjoin'
    obtain rfl := Except.ok.inj (hmatching.symm.trans hpairs')
    have hname := hdemanded c hc
    rw [hcolumns] at hname
    obtain ⟨⟨c, s⟩, hs, rfl⟩ := List.mem_map.mp hname
    obtain ⟨hs', hl, hr⟩ :=
      source_kept hkeys hkeys' hnodup hmiss hld' hc (hrouted c hc) hs
    refine ⟨?_, ?_⟩
    · rw [hcolumns']
      exact List.mem_map.mpr ⟨_, hs', rfl⟩
    · rw [column_eq hnodup' hrows' hs', column_eq hnodup hrows hs]
      refine List.map_congr_left fun pair _ => ?_
      rw [value_restrict hl hr]

end Kept

/-! Parents that each have a column without a name, and a right key named as the suffix. -/

section Nameless

/-- An engine of inner joins on equal keys, without nulls. -/
def plainEngine : Engine ℕ Unit where
  null := 0
  coalesces _ := true
  matching _ ls rs := .ok (ls.zipIdx.flatMap fun l => (rs.zipIdx.filter fun r => r.1 = l.1).map
    fun r => (l.2, some r.2))
  other _ left _ := .ok left
  columnNotFound := ()
  duplicateColumn := ()

/-- Quotes. -/
def quotes : Frame ℕ :=
  ⟨["id", ""], [[("id", 1), ("", 10)]], by decide, by decide⟩

/-- What is joined to them, by this column. -/
def offers (key : String) (h : [key, ""].Nodup) : Frame ℕ :=
  ⟨[key, ""], [[(key, 1), ("", 20)]], h, by simp [Assoc.keys]⟩

/-- Quotes with their offers. -/
def offered (key : String) : JoinNode := ⟨.inner, ["id"], [key], "_right", none, none, "left_right"⟩

/-- The demanded column is in the join of the parents and not in that of what was asked for. -/
theorem nameless_dropped :
    (∃ out, join plainEngine (offered "_right") quotes (offers "_right" (by decide)) = .ok out ∧
      "_right" ∈ out.columns) ∧
    narrowJoinParentDemand ["_right"]
      ((offered "_right").shape quotes (offers "_right" (by decide)))
      .inner = some ({"id"}, {"_right"}) ∧
    ¬∃ out, join plainEngine (offered "_right") (quotes.restrict {"id"})
        ((offers "_right" (by decide)).restrict {"_right"}) = .ok out ∧ "_right" ∈ out.columns := by
  refine ⟨⟨_, rfl, by decide⟩, by decide, ?_⟩
  rintro ⟨out, hjoin, hmem⟩
  obtain rfl := Except.ok.inj hjoin
  exact absurd hmem (by decide)

/-- Offers with a rate. -/
def rated : Frame ℕ :=
  ⟨["offer", "", "rate"], [[("offer", 1), ("", 20), ("rate", 5)]], by decide, by decide⟩

/-- A column of each parent is demanded. -/
theorem id_kept : ∃ out, join plainEngine (offered "offer") quotes rated = .ok out ∧
    ((∃ out', join plainEngine (offered "offer") (quotes.restrict {"id"})
        (rated.restrict {"offer", "rate"}) = .ok out' ∧
      ∀ c ∈ ["id", "rate"], c ∈ out'.columns ∧ out'.column c = out.column c) ↔
      ¬Missed plainEngine (offered "offer") quotes rated ["id", "rate"]) :=
  ⟨_, rfl, demanded_kept_iff rfl (by decide) (by decide)⟩

end Nameless

end Haute.Join
