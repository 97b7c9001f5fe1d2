import Haute.Shred.Conservation

/-!
# Single elements as lists

XML makes a list only by repeating an element, so a record read from XML holds one value where
its schema declares an array. `singleElementLists` makes each such value a one-element list
before the shred walks the record: it follows the emitting tables' paths, merged into a tree of
segments.

A record is *tidy* below a tree when every array of the tree it reaches is a list, or nothing.
Wrapping leaves a tidy record alone and makes any record tidy, so it is idempotent; and the walk
of a tidy record finds a list at every array, so no row is lost for want of one.
-/

namespace Haute

open Yielded

/-! ### Following the paths -/

/-- The segments that follow a position on the tables' paths, each with the tree below it. -/
inductive PathTree where
  | node (children : List (Seg × PathTree))

namespace PathTree

/-- `node = node.setdefault(segment, {})` along a path. -/
def insert : PathTree → List Seg → PathTree
  | node children, [] => node children
  | node children, seg :: segs =>
    node (Assoc.upsert children seg fun child => insert (child.getD (node [])) segs)

/-- The paths of some tables in one tree. -/
def ofSpecs (specs : List EmittingTableSpec) : PathTree :=
  specs.foldl (fun tree spec => tree.insert spec.segments) (node [])

/-- What is held at an array, as a list of its elements. -/
def elements : Value → List Value
  | .list items => items
  | held => [held]

mutual

/-- Make each single element at one of the tree's arrays a list. -/
def wrap : PathTree → Value → Value
  | node children, .dict fields => .dict (wrapChildren children fields)
  | _, value => value

/-- Wrap below each segment in turn. -/
def wrapChildren : List (Seg × PathTree) → List (String × Value) → List (String × Value)
  | [], fields => fields
  | (seg, child) :: rest, fields =>
    wrapChildren rest <|
      match Value.getKey fields seg.name with
      | .none => fields
      | held =>
        if seg.isArray then Assoc.set fields seg.name (.list ((elements held).map (wrap child)))
        else Assoc.set fields seg.name (wrap child held)

end

/-- One segment's part of `wrapChildren`. -/
def wrapChild (seg : Seg) (child : PathTree) (fields : List (String × Value)) :
    List (String × Value) :=
  match Value.getKey fields seg.name with
  | .none => fields
  | held =>
    if seg.isArray then Assoc.set fields seg.name (.list ((elements held).map (wrap child)))
    else Assoc.set fields seg.name (wrap child held)

theorem wrapChildren_cons (seg : Seg) (child : PathTree) (rest : List (Seg × PathTree))
    (fields : List (String × Value)) :
    wrapChildren ((seg, child) :: rest) fields =
      wrapChildren rest (wrapChild seg child fields) := by
  rw [wrapChildren, wrapChild]

end PathTree

/-- A function making each single element at one of the config's arrays a list. -/
def singleElementLists (config : List (String × Value)) : Except PyError (Value → Value) := do
  let specs ← emittingTableSpecs config
  pure (PathTree.ofSpecs specs).wrap

/-! ### What a record holds at an array -/

/-- A path leads from one value to another: through objects, and into any element of a list. -/
inductive Reached : Value → List Seg → Value → Prop where
  | here (value : Value) : Reached value [] value
  | object {fields : List (String × Value)} {key : String} {path : List Seg} {value : Value}
      (h : Reached (Value.getKey fields key) path value) : Reached (.dict fields)
        (⟨key, false⟩ :: path) value
  | element {fields : List (String × Value)} {key : String} {items : List Value} {item : Value}
      {path : List Seg} {value : Value} (hkey : Value.getKey fields key = .list items)
        (hitem : item ∈ items)
      (h : Reached item path value) : Reached (.dict fields) (⟨key, true⟩ :: path) value

/-- A value is an array's, or none is there. -/
def IsArray (held : Value) : Prop := held = .none ∨ ∃ items, held = .list items

/-- Every array position of the tables that a record reaches holds an array, or nothing. -/
def HoldsArrays (specs : List EmittingTableSpec) (record : Value) : Prop :=
  ∀ spec ∈ specs, ∀ path key, path ++ [⟨key, true⟩] <+: spec.segments →
    ∀ fields, Reached record path (.dict fields) → IsArray (Value.getKey fields key)

/-- A value reached from one reached is reached along both paths. -/
theorem Reached.trans {a b c : Value} {p q : List Seg} (h : Reached a p b) (h' : Reached b q c) :
    Reached a (p ++ q) c := by
  induction h with
  | here => exact h'
  | object _ ih => exact .object (ih h')
  | element hkey hitem _ ih => exact .element hkey hitem (ih h')

namespace PathTree

/-! ### Tidy records -/

/-- What a segment's array or object must be below it. -/
def TidyAt (tidy : Value → Prop) (seg : Seg) (held : Value) : Prop :=
  if seg.isArray then IsArray held ∧ ∀ items, held = .list items → ∀ item ∈ items, tidy item
  else tidy held

mutual

/-- Every array of the tree that a value reaches is a list, or nothing. -/
def Tidy : PathTree → Value → Prop
  | node children, .dict fields => TidyChildren children fields
  | _, _ => True

/-- A dict is tidy below each segment. -/
def TidyChildren : List (Seg × PathTree) → List (String × Value) → Prop
  | [], _ => True
  | (seg, child) :: rest, fields =>
    TidyAt (Tidy child) seg (Value.getKey fields seg.name) ∧ TidyChildren rest fields

end

theorem tidy_of_not_isDict {t : PathTree} {v : Value} (h : v.isDict = false) : t.Tidy v := by
  obtain ⟨children⟩ := t
  cases v with
  | dict fields => simp at h
  | _ => trivial

theorem wrap_of_not_isDict {t : PathTree} {v : Value} (h : v.isDict = false) : t.wrap v = v := by
  obtain ⟨children⟩ := t
  cases v with
  | dict fields => simp at h
  | _ => rfl

/-- A dict is tidy when what it holds at each child is. -/
theorem tidy_dict_iff {children : List (Seg × PathTree)} {fields : List (String × Value)} :
    (node children).Tidy (.dict fields) ↔
      ∀ c ∈ children, TidyAt c.2.Tidy c.1 (Value.getKey fields c.1.name) := by
  rw [Tidy]
  induction children with
  | nil => simp [TidyChildren]
  | cons c children ih =>
    obtain ⟨seg, child⟩ := c
    rw [TidyChildren, ih, List.forall_mem_cons]

/-- What wrapping makes of the value held at one segment. -/
def wrapHeld (seg : Seg) (child : PathTree) (held : Value) : Value :=
  match held with
  | .none => .none
  | held => if seg.isArray then .list ((elements held).map child.wrap) else child.wrap held

/-- A value held at an array becomes the list of its elements, each wrapped. -/
theorem wrapHeld_of_ne {seg : Seg} {child : PathTree} {held : Value} (h : held ≠ .none) :
    wrapHeld seg child held
      = if seg.isArray then .list ((elements held).map child.wrap) else child.wrap held := by
  cases held with
  | none => exact absurd rfl h
  | _ => rfl

/-- A child that is not held is not wrapped. -/
theorem wrapChild_of_none {seg : Seg} {child : PathTree} {fields : List (String × Value)}
    (h : Value.getKey fields seg.name = .none) : wrapChild seg child fields = fields := by
  rw [wrapChild, h]

/-- A child that is held is replaced by its wrapped value. -/
theorem wrapChild_of_ne {seg : Seg} {child : PathTree} {fields : List (String × Value)}
    (h : Value.getKey fields seg.name ≠ .none) : wrapChild seg child fields
      = Assoc.set fields seg.name (wrapHeld seg child (Value.getKey fields seg.name)) := by
  rw [wrapHeld_of_ne h, wrapChild]
  cases hheld : Value.getKey fields seg.name with
  | none => exact absurd hheld h
  | _ =>
    dsimp only
    split_ifs <;> rfl

/-- Wrapping a child leaves the other keys. -/
theorem getKey_wrapChild (seg : Seg) (child : PathTree) (fields : List (String × Value))
    (key : String) :
    Value.getKey (wrapChild seg child fields) key
      = if key = seg.name then wrapHeld seg child (Value.getKey fields key)
        else Value.getKey fields key := by
  by_cases hnone : Value.getKey fields seg.name = .none
  · rw [wrapChild_of_none hnone]
    split_ifs with hkey
    · rw [hkey, hnone]
      rfl
    · rfl
  · rw [wrapChild_of_ne hnone, Value.getKey, Assoc.get?_set]
    split_ifs with hkey
    · rw [hkey]
      rfl
    · rfl

/-! ### Wrapping keeps a record tidy -/

/-- Wrapping at one segment keeps what is held tidy below any other. -/
theorem TidyAt.wrapHeld {seg seg' : Seg} {child child' : PathTree} {held : Value}
    (ih : ∀ v, child'.Tidy v → child'.Tidy (child.wrap v)) (h : TidyAt child'.Tidy seg' held) :
    TidyAt child'.Tidy seg' (wrapHeld seg child held) := by
  by_cases hnone : held = .none
  · rw [hnone] at h ⊢
    exact h
  rw [TidyAt] at h ⊢
  rw [wrapHeld_of_ne hnone]
  by_cases harray : seg'.isArray = true
  · rw [if_pos harray] at h ⊢
    obtain ⟨harr, hitems⟩ := h
    obtain ⟨items, rfl⟩ := harr.resolve_left hnone
    by_cases hseg : seg.isArray = true
    · rw [if_pos hseg]
      refine ⟨.inr ⟨_, rfl⟩, fun items' hitems' item hitem => ?_⟩
      obtain rfl := Value.list.inj hitems'
      obtain ⟨x, hx, rfl⟩ := List.mem_map.mp hitem
      exact ih x (hitems items rfl x hx)
    · rw [if_neg hseg, wrap_of_not_isDict rfl]
      exact ⟨.inr ⟨items, rfl⟩, hitems⟩
  · rw [if_neg harray] at h ⊢
    split_ifs
    · exact tidy_of_not_isDict rfl
    · exact ih held h

/-- Wrapping a child keeps a dict tidy for any tree. -/
theorem wrapChild_tidy {seg : Seg} {child t : PathTree} {fields : List (String × Value)}
    (ih : ∀ (t' : PathTree) v, t'.Tidy v → t'.Tidy (child.wrap v)) (h : t.Tidy (.dict fields)) :
    t.Tidy (.dict (wrapChild seg child fields)) := by
  obtain ⟨children⟩ := t
  rw [tidy_dict_iff] at h ⊢
  intro c hc
  rw [getKey_wrapChild]
  split_ifs
  · exact (h c hc).wrapHeld (ih c.2)
  · exact h c hc

mutual

/-- **Wrapping keeps what is tidy**, below any tree. -/
theorem Tidy.wrap : ∀ (t : PathTree) {t' : PathTree} (v : Value), t'.Tidy v → t'.Tidy (t.wrap v)
  | .node children, _, .dict fields, h => TidyChildren.wrap children fields h
  | .node _, _, .none, h => h
  | .node _, _, .bool _, h => h
  | .node _, _, .int _, h => h
  | .node _, _, .float _, h => h
  | .node _, _, .str _, h => h
  | .node _, _, .date _, h => h
  | .node _, _, .list _, h => h

/-- Wrapping children keeps a dict tidy for any tree. -/
theorem TidyChildren.wrap : ∀ (children : List (Seg × PathTree)) {t' : PathTree}
    (fields : List (String × Value)), t'.Tidy (.dict fields) →
    t'.Tidy (.dict (wrapChildren children fields))
  | [], _, _, h => h
  | (seg, child) :: rest, _, fields, h => by
    rw [wrapChildren_cons]
    exact TidyChildren.wrap rest _ (wrapChild_tidy (fun _ v => Tidy.wrap child v) h)

end

mutual

/-- **Wrapping makes a record tidy.** -/
theorem tidy_wrap : ∀ (t : PathTree) (v : Value), t.Tidy (t.wrap v)
  | .node children, .dict fields => tidy_dict_iff.mpr (tidyChildren_wrapChildren children fields)
  | .node _, .none => trivial
  | .node _, .bool _ => trivial
  | .node _, .int _ => trivial
  | .node _, .float _ => trivial
  | .node _, .str _ => trivial
  | .node _, .date _ => trivial
  | .node _, .list _ => trivial

/-- Wrapped children are tidy. -/
theorem tidyChildren_wrapChildren :
    ∀ (children : List (Seg × PathTree)) (fields : List (String × Value)),
    ∀ c ∈ children, TidyAt c.2.Tidy c.1 (Value.getKey (wrapChildren children fields) c.1.name)
  | [], _ => by simp
  | (seg, child) :: rest, fields => by
    have hfirst : TidyAt child.Tidy seg (Value.getKey (wrapChild seg child fields) seg.name) := by
      rw [getKey_wrapChild, if_pos rfl, TidyAt]
      by_cases hnone : Value.getKey fields seg.name = .none
      · rw [hnone]
        split_ifs
        · exact ⟨.inl rfl, fun items hitems => by cases hitems⟩
        · exact tidy_of_not_isDict rfl
      · rw [wrapHeld_of_ne hnone]
        split_ifs
        · refine ⟨.inr ⟨_, rfl⟩, fun items hitems item hitem => ?_⟩
          obtain rfl := Value.list.inj hitems
          obtain ⟨x, -, rfl⟩ := List.mem_map.mp hitem
          exact tidy_wrap child x
        · exact tidy_wrap child _
    rw [wrapChildren_cons]
    refine List.forall_mem_cons.mpr ⟨?_, tidyChildren_wrapChildren rest _⟩
    -- what the first segment made tidy, the others keep
    have hone : (node [(seg, child)]).Tidy (.dict (wrapChild seg child fields)) :=
      tidy_dict_iff.mpr fun c hc => List.mem_singleton.mp hc ▸ hfirst
    exact tidy_dict_iff.mp (TidyChildren.wrap rest _ hone) _ (List.mem_singleton_self _)

end

theorem set_getKey {fields : List (String × Value)} {key : String}
    (h : Value.getKey fields key ≠ .none) :
    Assoc.set fields key (Value.getKey fields key) = fields := by
  induction fields with
  | nil => exact absurd rfl h
  | cons e fields ih =>
    obtain ⟨k, v⟩ := e
    rw [Assoc.set, Assoc.upsert]
    by_cases hk : k = key
    · simp [hk, Value.getKey, Assoc.get?_cons]
    · have hkey : Value.getKey ((k, v) :: fields) key = Value.getKey fields key := by
        simp [Value.getKey, Assoc.get?_cons, hk]
      rw [hkey] at h ⊢
      rw [if_neg hk]
      exact congrArg _ (ih h)

mutual

/-- **Wrapping leaves a tidy record alone.** -/
theorem wrap_eq_self : ∀ (t : PathTree) (v : Value), t.Tidy v → t.wrap v = v
  | .node children, .dict fields, h =>
    congrArg Value.dict (wrapChildren_eq_self children fields (tidy_dict_iff.mp h))
  | .node _, .none, _ => rfl
  | .node _, .bool _, _ => rfl
  | .node _, .int _, _ => rfl
  | .node _, .float _, _ => rfl
  | .node _, .str _, _ => rfl
  | .node _, .date _, _ => rfl
  | .node _, .list _, _ => rfl

/-- Tidy children are left as they are. -/
theorem wrapChildren_eq_self :
    ∀ (children : List (Seg × PathTree)) (fields : List (String × Value)),
    (∀ c ∈ children, TidyAt c.2.Tidy c.1 (Value.getKey fields c.1.name)) →
      wrapChildren children fields = fields
  | [], _, _ => rfl
  | (seg, child) :: rest, fields, h => by
    obtain ⟨hfirst, hrest⟩ := List.forall_mem_cons.mp h
    have hone : wrapChild seg child fields = fields := by
      by_cases hnone : Value.getKey fields seg.name = .none
      · exact wrapChild_of_none hnone
      rw [wrapChild_of_ne hnone]
      refine (congrArg _ ?_).trans (set_getKey hnone)
      rw [wrapHeld_of_ne hnone]
      rw [TidyAt] at hfirst
      split_ifs at hfirst ⊢
      · obtain ⟨items, hitems⟩ := hfirst.1.resolve_left hnone
        have hmap : items.map child.wrap = items := by
          conv_rhs => rw [← List.map_id items]
          exact List.map_congr_left fun x hx => wrap_eq_self child x (hfirst.2 items hitems x hx)
        rw [hitems]
        exact congrArg Value.list hmap
      · exact wrap_eq_self child _ hfirst
    rw [wrapChildren_cons, hone]
    exact wrapChildren_eq_self rest fields hrest

end

/-! ### The paths of a tree -/

/-- A path of the tree, from its root. -/
inductive Has : PathTree → List Seg → Prop where
  | nil (t : PathTree) : Has t []
  | cons {children : List (Seg × PathTree)} {seg : Seg} {child : PathTree} {path : List Seg}
      (hmem : (seg, child) ∈ children) (h : Has child path) : Has (node children) (seg :: path)

/-- A tree has a path when a child has the rest of it. -/
theorem has_cons_iff {children : List (Seg × PathTree)} {seg : Seg} {path : List Seg} :
    (node children).Has (seg :: path) ↔ ∃ child, (seg, child) ∈ children ∧ child.Has path := by
  constructor
  · intro h
    cases h with
    | cons hmem h => exact ⟨_, hmem, h⟩
  · rintro ⟨child, hmem, h⟩
    exact .cons hmem h

theorem Has.of_mem {c : Seg × PathTree} {children : List (Seg × PathTree)} {path : List Seg}
    (h : (node [c]).Has path) (hc : c ∈ children) : (node children).Has path := by
  cases h with
  | nil => exact .nil _
  | cons hmem h =>
    obtain rfl := List.mem_singleton.mp hmem
    exact .cons hc h

/-- A tidy record holds an array, or nothing, at every array of the tree it reaches. -/
theorem Tidy.isArray {t : PathTree} {v w : Value} {path : List Seg} (h : t.Tidy v)
    (hreach : Reached v path w)
    {key : String} (hhas : t.Has (path ++ [⟨key, true⟩])) {fields : List (String × Value)}
    (hw : w = .dict fields) : IsArray (Value.getKey fields key) := by
  induction hreach generalizing t with
  | here v =>
    subst hw
    obtain ⟨children⟩ := t
    obtain ⟨child, hmem, -⟩ := has_cons_iff.mp hhas
    exact (tidy_dict_iff.mp h _ hmem).1
  | object _ ih =>
    obtain ⟨children⟩ := t
    obtain ⟨child, hmem, hchild⟩ := has_cons_iff.mp hhas
    exact ih (tidy_dict_iff.mp h _ hmem) hchild hw
  | element hkey hitem _ ih =>
    obtain ⟨children⟩ := t
    obtain ⟨child, hmem, hchild⟩ := has_cons_iff.mp hhas
    exact ih ((tidy_dict_iff.mp h _ hmem).2 _ hkey _ hitem) hchild hw

mutual

/-- A record that holds an array, or nothing, wherever the tree has one, is tidy. -/
theorem tidy_of_isArray : ∀ (t : PathTree) (v : Value), (∀ path key, t.Has (path ++ [⟨key, true⟩]) →
    ∀ fields, Reached v path (.dict fields) → IsArray (Value.getKey fields key)) → t.Tidy v
  | .node children, .dict fields, h => tidy_dict_iff.mpr <| tidyChildren_of_isArray children fields
      fun _ hc path key hpath fields' hreach => h path key (hpath.of_mem hc) fields' hreach
  | .node _, .none, _ => trivial
  | .node _, .bool _, _ => trivial
  | .node _, .int _, _ => trivial
  | .node _, .float _, _ => trivial
  | .node _, .str _, _ => trivial
  | .node _, .date _, _ => trivial
  | .node _, .list _, _ => trivial

/-- A record whose array values are arrays is tidy. -/
theorem tidyChildren_of_isArray :
    ∀ (children : List (Seg × PathTree)) (fields : List (String × Value)),
    (∀ c ∈ children, ∀ path key, (node [c]).Has (path ++ [⟨key, true⟩]) → ∀ fields',
      Reached (.dict fields) path (.dict fields') → IsArray (Value.getKey fields' key)) →
    ∀ c ∈ children, TidyAt c.2.Tidy c.1 (Value.getKey fields c.1.name)
  | [], _, _ => by simp
  | (seg, child) :: rest, fields, h => by
    obtain ⟨hfirst, hrest⟩ := List.forall_mem_cons.mp h
    have hbelow : ∀ {path}, child.Has path → (node [(seg, child)]).Has (seg :: path) :=
      fun hpath => .cons (List.mem_singleton_self _) hpath
    refine List.forall_mem_cons.mpr ⟨?_, tidyChildren_of_isArray rest fields hrest⟩
    obtain ⟨name, isArray⟩ := seg
    rw [TidyAt]
    split_ifs with harray
    · obtain rfl : isArray = true := harray
      refine ⟨hfirst [] name (hbelow (.nil _)) fields (.here _), fun items hitems item hitem => ?_⟩
      exact tidy_of_isArray child item fun path key hpath fields' hreach =>
        hfirst (⟨name, true⟩ :: path) key (hbelow hpath) fields' (.element hitems hitem hreach)
    · obtain rfl : isArray = false := by simpa using harray
      exact tidy_of_isArray child _ fun path key hpath fields' hreach =>
        hfirst (⟨name, false⟩ :: path) key (hbelow hpath) fields' (.object hreach)

end

/-- Inserting a path adds its beginnings. -/
theorem has_insert (t : PathTree) (segs path : List Seg) :
    (t.insert segs).Has path ↔ t.Has path ∨ path <+: segs := by
  induction segs generalizing t path with
  | nil =>
    obtain ⟨children⟩ := t
    rw [insert, List.prefix_nil]
    refine ⟨.inl, ?_⟩
    rintro (h | rfl)
    · exact h
    · exact .nil _
  | cons seg segs ih =>
    obtain ⟨children⟩ := t
    cases path with
    | nil => exact iff_of_true (.nil _) (.inl (.nil _))
    | cons s path =>
      rw [insert, has_cons_iff, has_cons_iff, List.cons_prefix_cons]
      have hnew : ((node []).insert segs).Has path ↔ path <+: segs := by
        rw [ih]
        refine ⟨?_, .inr⟩
        rintro (h | h)
        · cases h with
          | nil => exact List.nil_prefix
          | cons hmem _ => cases hmem
        · exact h
      -- along the children, to the one the segment names
      induction children with
      | nil =>
        simp only [Assoc.upsert, List.mem_singleton, Prod.mk.injEq, Option.getD_none,
          List.not_mem_nil,
          false_and, exists_false, false_or]
        constructor
        · rintro ⟨child, ⟨rfl, rfl⟩, h⟩
          exact ⟨rfl, hnew.mp h⟩
        · rintro ⟨rfl, h⟩
          exact ⟨_, ⟨rfl, rfl⟩, hnew.mpr h⟩
      | cons c children ihc =>
        obtain ⟨seg', child'⟩ := c
        rw [Assoc.upsert]
        split_ifs with hseg
        · subst hseg
          simp only [List.mem_cons, Prod.mk.injEq, or_and_right, exists_or, Option.getD_some]
          have hhead : (∃ child, (s = seg' ∧ child = child'.insert segs) ∧ child.Has path) ↔
              (∃ child, (s = seg' ∧ child = child') ∧ child.Has path) ∨
                (s = seg' ∧ path <+: segs) := by
            constructor
            · rintro ⟨child, ⟨rfl, rfl⟩, h⟩
              exact ((ih child' path).mp h).imp (fun h => ⟨child', ⟨rfl, rfl⟩, h⟩) fun h => ⟨rfl, h⟩
            · rintro (⟨child, ⟨rfl, rfl⟩, h⟩ | ⟨rfl, h⟩)
              · exact ⟨_, ⟨rfl, rfl⟩, (ih child path).mpr (.inl h)⟩
              · exact ⟨_, ⟨rfl, rfl⟩, (ih child' path).mpr (.inr h)⟩
          rw [hhead, or_right_comm]
        · simp only [List.mem_cons, or_and_right, exists_or, ihc, or_assoc]

/-- The paths of a tree built from specs are the beginnings of the specs' paths. -/
theorem has_ofSpecs {specs : List EmittingTableSpec} {path : List Seg} :
    (ofSpecs specs).Has path ↔ path = [] ∨ ∃ spec ∈ specs, path <+: spec.segments := by
  have hfold : ∀ t : PathTree,
      (specs.foldl (fun tree spec => tree.insert spec.segments) t).Has path ↔
      t.Has path ∨ ∃ spec ∈ specs, path <+: spec.segments := by
    induction specs with
    | nil => simp
    | cons spec specs ih =>
      intro t
      rw [List.foldl_cons, ih, has_insert]
      simp only [List.mem_cons, exists_eq_or_imp, or_assoc]
  rw [ofSpecs, hfold]
  refine or_congr_left ⟨fun h => ?_, ?_⟩
  · cases h with
    | nil => rfl
    | cons hmem _ => cases hmem
  · rintro rfl
    exact .nil _

/-- A record is tidy below the tables' paths when it holds an array, or nothing, at each. -/
theorem tidy_ofSpecs_iff {specs : List EmittingTableSpec} {record : Value} :
    (ofSpecs specs).Tidy record ↔ HoldsArrays specs record := by
  constructor
  · intro h spec hspec path key hpath fields hreach
    exact h.isArray hreach (has_ofSpecs.mpr (.inr ⟨spec, hspec, hpath⟩)) rfl
  · intro h
    refine tidy_of_isArray _ _ fun path key hpath fields hreach => ?_
    obtain ⟨spec, hspec, hpre⟩ := (has_ofSpecs.mp hpath).resolve_left (by simp)
    exact h spec hspec path key hpre fields hreach

end PathTree

/-! ### The walk of a tidy record -/

/-- Not a row lost for want of an array. -/
def ShredEvent.NotForArray : ShredEvent → Prop
  | .row _ _ => True
  | .skip _ _ _ expected => expected ≠ .array

/-- Delivering a row never expects an array. -/
theorem notForArray_deliverRow {spec : EmittingTableSpec} {value : Value} {ancestors : List Value} :
    ∀ e ∈ (deliverRow spec value ancestors).values, e.NotForArray := by
  intro e he
  rw [deliverRow] at he
  cases hrow : readRow spec.columns spec.depth value ancestors with
  | ok cells =>
    rw [hrow] at he
    obtain rfl := List.mem_singleton.mp he
    trivial
  | error err =>
    rw [hrow] at he
    cases he

/-- Counting a skip expects an array only where one was expected. -/
theorem notForArray_countRowSkips {tables : List EmittingTableSpec} {record : ℕ} {place : Level}
    {expected : Expected} (h : expected ≠ .array) :
    ∀ e ∈ (countRowSkips tables record place expected).values, e.NotForArray := by
  intro e he
  obtain ⟨spec, -, he⟩ := exists_of_mem_values_forEach he
  obtain rfl := List.mem_singleton.mp he
  exact h

/-- Emitting a table's row never expects an array. -/
theorem notForArray_emitTable {spec : EmittingTableSpec} {record : ℕ} {pos : Level} {value : Value}
    {ancestors : List Value} :
    ∀ e ∈ (emitTable spec record pos value ancestors).values, e.NotForArray := by
  intro e he
  rw [emitTable] at he
  split_ifs at he
  · exact notForArray_deliverRow e he
  · obtain rfl := List.mem_singleton.mp he
    show spec.expected ≠ .array
    rw [EmittingTableSpec.expected]
    split_ifs <;> simp

/-- Hops through objects are a path. -/
theorem reached_of_followObjects {fields inner : List (String × Value)} {taken hops : List String}
    (h : followObjects fields taken hops = .inl inner) :
    Reached (.dict fields) (objectHops hops) (.dict inner) := by
  induction hops generalizing fields taken with
  | nil =>
    cases h
    exact .here _
  | cons key hops ih =>
    rw [followObjects] at h
    cases hkey : Value.getKey fields key with
    | dict next =>
      rw [hkey] at h
      exact .object (hkey ▸ ih h)
    | _ =>
      rw [hkey] at h
      cases h

section Walk

variable {specs : List EmittingTableSpec} {order : Level → List Descent}

/-- Every array position at or below a position holds an array, or nothing. -/
def HoldsArraysBelow (specs : List EmittingTableSpec) (pos : Level) (value : Value) : Prop :=
  ∀ spec ∈ specs, ∀ path key, pos ++ path ++ [⟨key, true⟩] <+: spec.segments →
    ∀ fields, Reached value path (.dict fields) → IsArray (Value.getKey fields key)

/-- **A walk that finds an array wherever it looks for one** loses no row for want of one. -/
theorem notForArray_emitAt (hspecs : ValidSpecs specs) (horder : Iterates specs order)
    (fuel record : ℕ)
    {ps : List Step} {value : Value} (h : HoldsArraysBelow specs (levelOf ps) value)
    (ancestors : List Value) :
    ∀ e ∈ (emitAt specs order fuel record (levelOf ps) value ancestors).values, e.NotForArray := by
  induction fuel generalizing ps value ancestors with
  | zero => exact fun e he => by cases he
  | succ fuel ih =>
    intro e he
    -- an array that is missing or a list is never skipped for its shape
    cases value with
    | dict fields =>
      simp only [emitAt] at he
      rcases mem_values_append he with hemit | hdescend
      · obtain ⟨spec, -, hemit⟩ := exists_of_mem_values_forEach hemit
        exact notForArray_emitTable e hemit
      obtain ⟨d, hd, hdescend⟩ := exists_of_mem_values_forEach hdescend
      obtain ⟨spec, hspec, step, hstep, rfl⟩ :=
        mem_descentsAt.mp (((horder (levelOf ps)).2 d).mp hd)
      have hsegs := (prefix_segments_iff (hspecs.spec spec hspec).isLevel).mpr hstep
      have hchild : levelOf (ps ++ [step]) = levelOf ps ++ objectHops step.1 ++
          [⟨step.2, true⟩] := by
        simp [stepSegments]
      cases hfollow : followObjects fields [] step.1 with
      | inr stopped =>
        obtain ⟨taken, container⟩ := stopped
        simp only [hfollow] at hdescend
        split_ifs at hdescend
        · cases hdescend
        · exact notForArray_countRowSkips (by simp) e hdescend
      | inl inner =>
        simp only [hfollow] at hdescend
        have hreach := reached_of_followObjects hfollow
        rcases h spec hspec (objectHops step.1) step.2 (hchild ▸ hsegs) inner hreach
          with hnone | ⟨items, hitems⟩
        · rw [hnone] at hdescend
          cases hdescend
        · rw [hitems, walkArray] at hdescend
          obtain ⟨item, hitem, hdescend⟩ := exists_of_mem_values_forEach hdescend
          split_ifs at hdescend
          · obtain ⟨spec', -, hdescend⟩ := exists_of_mem_values_forEach hdescend
            exact notForArray_deliverRow e hdescend
          · refine ih (fun spec' hspec' path key hpath fields' hreach' => ?_) _ e hdescend
            refine h spec' hspec' (objectHops step.1 ++ ⟨step.2, true⟩ :: path) key ?_ fields'
              (hreach.trans (.element hitems hitem hreach'))
            rw [hchild] at hpath
            simpa using hpath
    | _ =>
      simp only [emitAt] at he
      rcases mem_values_append he with hemit | hskip
      · obtain ⟨spec, -, hemit⟩ := exists_of_mem_values_forEach hemit
        exact notForArray_emitTable e hemit
      · exact notForArray_countRowSkips (by simp) e hskip

end Walk

/-! ### Normalising -/

/-- **Normalising single elements is idempotent and sufficient.** Applying it twice is applying it
once; a record that holds an array, or nothing, at every array position of the tables is left as it
is; and in the shred of normalised records, in whatever order the descents of a position are taken,
no row of any table is lost because a value is not an array. -/
theorem single_element_lists {config : List (String × Value)} {specs : List EmittingTableSpec}
    (hspecs : emittingTableSpecs config = .ok specs) : ∃ normalise, singleElementLists config =
    .ok normalise ∧
      (∀ record, normalise (normalise record) = normalise record) ∧
      (∀ record, HoldsArrays specs record → normalise record = record) ∧
      ∀ order, Iterates specs order → ∀ records : List Value,
        ∀ e ∈ (shredEvents specs order (records.map normalise)).values,
          ∀ label record place, e ≠ .skip label record place .array := by
  refine ⟨(PathTree.ofSpecs specs).wrap, by rw [singleElementLists, hspecs]; rfl, fun record => ?_,
    fun record h => ?_, fun order horder records e he label i place => ?_⟩
  · exact PathTree.wrap_eq_self _ _ (PathTree.tidy_wrap _ _)
  · exact PathTree.wrap_eq_self _ _ (PathTree.tidy_ofSpecs_iff.mpr h)
  · rintro rfl
    obtain ⟨⟨record, n⟩, hrecord, he⟩ := exists_of_mem_values_forEach he
    obtain ⟨raw, -, rfl⟩ := List.mem_map.mp (List.fst_mem_of_mem_zipIdx hrecord)
    have hholds := PathTree.tidy_ofSpecs_iff.mp (PathTree.tidy_wrap (PathTree.ofSpecs specs) raw)
    have hbelow : HoldsArraysBelow specs (levelOf []) ((PathTree.ofSpecs specs).wrap raw) := hholds
    exact notForArray_emitAt (validSpecs_of_emittingTableSpecs hspecs) horder _ _ hbelow [] _ he rfl

/-- A policy whose one tag is not in a list, and the same policy normalised. -/
def singleTag : Value := .dict [("id", .int 2), ("tags", .bool true)]

def singleTagList : Value := .dict [("id", .int 2), ("tags", .list [.bool true])]

theorem holdsArrays_singleTagList : HoldsArrays tagSpecs singleTagList :=
  PathTree.tidy_ofSpecs_iff.mp (by
    have hlist : singleTagList = (PathTree.ofSpecs tagSpecs).wrap singleTag := by decide +kernel
    exact hlist ▸ PathTree.tidy_wrap _ _)

/-- One tag that is no list: wrapped once, left alone after that, and no array is missed. -/
theorem single_element_lists_tags : ∃ normalise, singleElementLists tagConfig = .ok normalise ∧
    normalise (normalise singleTag) = normalise singleTag ∧
      normalise singleTagList = singleTagList ∧
    ∀ e ∈ (shredEvents tagSpecs (firstRegistered tagSpecs) ([singleTag].map normalise)).values,
      e ≠ .skip "tags" 0 [⟨"tags", true⟩] .array := by
  have hspecs : emittingTableSpecs tagConfig = .ok tagSpecs := by decide +kernel
  obtain ⟨normalise, hnormalise, hidem, hself, hskips⟩ := single_element_lists hspecs
  exact ⟨normalise, hnormalise, hidem singleTag, hself singleTagList holdsArrays_singleTagList,
    fun e he => hskips _ (iterates_firstRegistered tagSpecs) [singleTag] e he _ _ _⟩

end Haute
