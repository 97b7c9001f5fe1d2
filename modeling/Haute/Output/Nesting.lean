import Haute.Output.DocumentSchema

/-!
# Where every row is nested

`Nest` is a document before it is written out: each object keeps the row it stands for, and
under each child level the objects nested there. `Nested` says what the nests of one level
under one parent object are: they stand for the level's rows that agree with the parent and
with every object above it on the relation keys, one for each distinct own identity, in
the rows' order.

`document_nests_by_keys` proves that an assembled document is such a forest, written out
and pruned. `relation_key_of_another_parent` shows why the rows must agree with the objects
above the parent too.
-/

namespace Haute

open NestedDict Grouping

/-! ### Nests -/

/-- An object with the row it stands for, and the objects of each child level below it. -/
inductive Nest where
  | node (row : Row) (children : List (Level × List Nest))

/-- The row an object stands for. -/
def Nest.row : Nest → Row
  | node row _ => row

/-- The objects nested at a child level. -/
def Nest.kids : Nest → Level → List Nest
  | node _ children, child => (Assoc.get? children child).getD []

mutual

/-- The object written out: its own leaves, then its children's arrays. -/
def Nest.render (ports : PortPaths) (level : Level) : Nest → Value
  | .node row children =>
    .dict <| writeAll <| objectWrites ports level row fun child =>
      (Assoc.get? (renderChildren ports children) child).getD []

/-- The objects of each child level, written out. -/
def renderChildren (ports : PortPaths) : List (Level × List Nest) → List (Level × List Value)
  | [] => []
  | (child, nests) :: rest => (child, renderAll ports child nests) :: renderChildren ports rest

/-- The objects of one level, written out. -/
def renderAll (ports : PortPaths) (level : Level) : List Nest → List Value
  | [] => []
  | nest :: nests => nest.render ports level :: renderAll ports level nests

end

theorem renderAll_eq_map (ports : PortPaths) (level : Level) (nests : List Nest) :
    renderAll ports level nests = nests.map (Nest.render ports level) := by
  induction nests with
  | nil => rfl
  | cons nest nests ih => rw [renderAll, ih, List.map_cons]

theorem get?_renderChildren (ports : PortPaths) (children : List (Level × List Nest))
    (child : Level) :
    Assoc.get? (renderChildren ports children) child
      = (Assoc.get? children child).map fun nests => nests.map (Nest.render ports child) := by
  induction children with
  | nil => rfl
  | cons c children ih =>
    obtain ⟨level, nests⟩ := c
    rw [renderChildren, Assoc.get?_cons, Assoc.get?_cons, ih]
    by_cases h : level = child
    · subst h
      simp [renderAll_eq_map]
    · simp [h]

/-- An object is its row's leaves and its kids' arrays. -/
theorem Nest.render_eq (ports : PortPaths) (level : Level) (nest : Nest) :
    nest.render ports level
      = .dict (writeAll (objectWrites ports level nest.row fun child =>
          (nest.kids child).map (Nest.render ports child))) := by
  obtain ⟨row, children⟩ := nest
  rw [Nest.render]
  refine congrArg (fun kids => Value.dict (writeAll (objectWrites ports level row kids))) ?_
  funext child
  rw [get?_renderChildren, Nest.kids]
  cases Assoc.get? children child <;> rfl

/-! ### Placement -/

/-- The identity of the object a row stands for at a level. -/
def ownIdentity (ports : PortPaths) (level : Level) (row : Row) : List Ident :=
  rowIdentity ((ownPaths ports level).map ParsedPath.raw) row

/-- A row's values at a child level's relation keys equal another's. -/
def SameKeys (ports : PortPaths) (child : Level) (parent row : Row) : Prop :=
  ∀ key ∈ relationKeys ports child, identity (row.get key) = identity (parent.get key)

/-- The objects nested at a level under one parent object, where `Above row` says that `row`
has the relation keys of that parent and of every object above it. -/
inductive Nested (a : Assembly) : Level → (Row → Prop) → List Nest → Prop where
  | intro {level : Level} {Above : Row → Prop} {nests : List Nest}
      /- Each object's row belongs here. -/
      (placed : ∀ nest ∈ nests, Above nest.row)
      /- The rows are the level's, in their order, none taken twice. -/
      (order : (nests.map Nest.row).Sublist (a.levelRows level))
      /- No row that belongs here is lost: an object with its own fields stands for it. -/
      (kept : ∀ row ∈ a.levelRows level, Above row →
        ∃ nest ∈ nests, ownIdentity a.ports level nest.row = ownIdentity a.ports level row)
      /- The objects are distinct, except where each row is its own object. -/
      (distinct : a.perRow level = false → nests.Pairwise fun nest other =>
        ownIdentity a.ports level nest.row ≠ ownIdentity a.ports level other.row)
      (perRow : a.perRow level = true → ∀ row ∈ a.levelRows level, Above row →
        row ∈ nests.map Nest.row)
      (children : ∀ nest ∈ nests, ∀ child ∈ childrenOf a.ports level,
        Nested a child (fun row => Above row ∧ SameKeys a.ports child nest.row row)
          (nest.kids child)) :
      Nested a level Above nests

namespace Assembly

variable (a : Assembly)

/-- The walk, keeping the rows. -/
def nests : ℕ → Level → Row → List Nest
  | 0, _, _ => []
  | fuel + 1, level, scope =>
    (a.objectRows level scope).map fun row =>
      .node row ((childrenOf a.ports level).map fun child =>
        (child, nests fuel child (a.childScope level child scope row)))

theorem kids_node {row : Row} {children : List Level} {f : Level → List Nest} {child : Level}
    (h : child ∈ children) :
    (Nest.node row (children.map fun c => (c, f c))).kids child = f child := by
  rw [Nest.kids]
  induction children with
  | nil => simp at h
  | cons c children ih =>
    rw [List.map_cons, Assoc.get?_cons]
    by_cases hc : c = child
    · simp [hc]
    · rw [if_neg hc]
      exact ih ((List.mem_cons.mp h).resolve_left (Ne.symm hc))

/-- The walk's objects are its nests, written out. -/
theorem map_render_nests (fuel : ℕ) (level : Level) (scope : Row) :
    (a.nests fuel level scope).map (Nest.render a.ports level) = a.build fuel level scope := by
  induction fuel generalizing level scope with
  | zero => rfl
  | succ fuel ih =>
    rw [nests, build_succ, List.map_map]
    refine List.map_congr_left fun row _ => ?_
    rw [Function.comp_apply, Nest.render_eq]
    refine congrArg Value.dict (congrArg writeAll ?_)
    refine @objectWrites_congr _ _ row _ _ ?_
    have hkids : ∀ child ∈ childrenOf a.ports level,
        ((Nest.node row ((childrenOf a.ports level).map fun child =>
          (child, a.nests fuel child (a.childScope level child scope row)))).kids child).map
            (Nest.render a.ports child)
          = a.build fuel child (a.childScope level child scope row) := fun child hchild => by
      rw [kids_node hchild, ih]
    exact hkids

/-! ### Scopes -/

private theorem foldl_scope_spec (carried : List String) (row : Row) (own : List ParsedPath)
    (scope : Row) (key : String) :
    let s := own.foldl (fun s path => if path.raw ∈ carried then
      Assoc.set s path.raw (row.get path.raw) else s) scope
    (key ∈ Assoc.keys s ↔ key ∈ Assoc.keys scope ∨ (key ∈ own.map ParsedPath.raw ∧ key ∈ carried)) ∧
    Row.get s key
      = if key ∈ own.map ParsedPath.raw ∧ key ∈ carried then row.get key else scope.get key := by
  induction own generalizing scope with
  | nil => simp
  | cons path own ih =>
    simp only [List.foldl_cons]
    obtain ⟨hkeys, hget⟩ := ih
      (if path.raw ∈ carried then Assoc.set scope path.raw (row.get path.raw) else scope)
    refine ⟨?_, ?_⟩
    · rw [hkeys]
      split_ifs with hc
      · rw [Assoc.set, Assoc.mem_keys_upsert, List.map_cons, List.mem_cons]
        by_cases hk : key = path.raw <;> simp [hk, hc]
      · rw [List.map_cons, List.mem_cons]
        by_cases hk : key = path.raw <;> simp [hk, hc]
    · rw [hget]
      by_cases hown : key ∈ own.map ParsedPath.raw ∧ key ∈ carried
      · rw [if_pos hown, if_pos ⟨List.mem_cons_of_mem _ hown.1, hown.2⟩]
      · rw [if_neg hown]
        by_cases hk : key = path.raw
        · subst hk
          by_cases hc : path.raw ∈ carried
          · rw [if_pos hc, if_pos (by simp [hc]), Row.get, Assoc.get?_set_self]
            rfl
          · rw [if_neg hc, if_neg (by simp [hc])]
        · have hnot : ¬ (key ∈ (path :: own).map ParsedPath.raw ∧ key ∈ carried) := by
            rw [List.map_cons, List.mem_cons]
            rintro ⟨h | h, hc⟩
            · exact hk h
            · exact hown ⟨h, hc⟩
          rw [if_neg hnot]
          split_ifs
          · rw [Row.get, Assoc.get?_set_ne hk, Row.get]
          · rfl

/-- A child's scope holds its parent's keys, and the level's own that the child carries. -/
theorem mem_keys_childScope (level child : Level) (scope row : Row) (key : String) :
    key ∈ Assoc.keys (a.childScope level child scope row) ↔ key ∈ Assoc.keys scope ∨
      (key ∈ (ownPaths a.ports level).map ParsedPath.raw ∧ key ∈ carries a.ports child) :=
  (foldl_scope_spec (carries a.ports child) row (ownPaths a.ports level) scope key).1

/-- The level's own keys take the object's values, the others keep theirs. -/
theorem get_childScope (level child : Level) (scope row : Row) (key : String) :
    Row.get (a.childScope level child scope row) key
      = if key ∈ (ownPaths a.ports level).map ParsedPath.raw ∧ key ∈ carries a.ports child then
          row.get key
        else scope.get key :=
  (foldl_scope_spec (carries a.ports child) row (ownPaths a.ports level) scope key).2

/-- **What a child's scope asks for**: the parent's scope, and the object's values at the
child's relation keys. -/
theorem agrees_childScope {level child : Level} (hchild : child ∈ childrenOf a.ports level)
    {scope row : Row} (hrow : agrees scope row = true) (other : Row) :
    agrees (a.childScope level child scope row) other = true ↔
      agrees scope other = true ∧ SameKeys a.ports child row other := by
  have hkey : ∀ key, key ∈ (ownPaths a.ports level).map ParsedPath.raw ∧ key ∈ carries a.ports child
      ↔ key ∈ relationKeys a.ports child := by
    intro key
    rw [relationKeys, (mem_childrenOf.mp hchild).2.2, List.mem_filter, decide_eq_true_iff]
  simp only [agrees_iff, SameKeys, mem_keys_childScope, get_childScope, hkey] at hrow ⊢
  constructor
  · intro h
    have hrel : ∀ key ∈ relationKeys a.ports child,
        identity (other.get key) = identity (row.get key) := by
      intro key hk
      simpa [hk] using h key (Or.inr hk)
    refine ⟨fun key hk => ?_, hrel⟩
    by_cases hr : key ∈ relationKeys a.ports child
    · rw [hrel key hr, hrow key hk]
    · simpa [hr] using h key (Or.inl hk)
  · rintro ⟨hother, hrel⟩ key hk
    split_ifs with hr
    · exact hrel key hr
    · exact hother key (hk.resolve_right hr)

theorem length_lt_treeFuel {ports : PortPaths} {level : Level} (h : level ∈ levelsOf ports) :
    level.length < treeFuel ports := by
  have hle : ∀ {ns : List ℕ} {n}, n ∈ ns → n ≤ ns.foldr max 0 := by
    intro ns n hn
    induction ns with
    | nil => simp at hn
    | cons m ns ih =>
      rcases List.mem_cons.mp hn with rfl | hn
      · exact le_max_left _ _
      · exact (ih hn).trans (le_max_right _ _)
  exact Nat.lt_succ_of_le (hle (List.mem_map_of_mem h))

theorem length_lt_of_mem_childrenOf {ports : PortPaths} {level child : Level}
    (h : child ∈ childrenOf ports level) : level.length < child.length := by
  obtain ⟨keys, key, -, heq⟩ := eq_append_childHop h
  have := congrArg List.length heq
  simp only [List.length_append, List.length_singleton] at this
  omega

/-- **The walk nests by the keys**: by induction down the tree, in every scope. -/
theorem nested_nests (fuel : ℕ) (level : Level) (scope : Row) (Above : Row → Prop)
    (hAbove : ∀ row, Above row ↔ agrees scope row = true) (hlevel : level.length < treeFuel a.ports)
    (hfuel : treeFuel a.ports ≤ fuel + level.length) :
    Nested a level Above (a.nests fuel level scope) := by
  -- the fuel covers the levels below this one
  induction fuel generalizing level scope Above with
  | zero => omega
  | succ fuel ih =>
    have hrows : (a.nests (fuel + 1) level scope).map Nest.row = a.objectRows level scope := by
      rw [nests, List.map_map]
      exact List.map_id _
    have hmem : ∀ nest ∈ a.nests (fuel + 1) level scope, nest.row ∈ a.objectRows level scope :=
      fun nest hnest => hrows ▸ List.mem_map_of_mem hnest
    refine .intro (fun nest hnest => ?_) ?_ (fun row hrow habove => ?_) (fun hper => ?_)
      (fun hper row hrow habove => ?_) fun nest hnest child hchild => ?_
    · exact (hAbove _).mpr (a.mem_levelRows_of_mem_objectRows (hmem nest hnest)).2
    · rw [hrows]
      exact (a.objectRows_sublist level scope).trans List.filter_sublist
    · have hrow' : row ∈ (a.levelRows level).filter (agrees scope) :=
        List.mem_filter.mpr ⟨hrow, (hAbove row).mp habove⟩
      obtain ⟨first, hfirst, hid⟩ : ∃ first ∈ a.objectRows level scope,
          ownIdentity a.ports level first = ownIdentity a.ports level row := by
        rw [objectRows]
        split_ifs
        · exact ⟨row, hrow', rfl⟩
        · exact exists_mem_firstsBy _ hrow'
      rw [← hrows] at hfirst
      obtain ⟨nest, hnest, rfl⟩ := List.mem_map.mp hfirst
      exact ⟨nest, hnest, hid⟩
    · have hpair : (a.objectRows level scope).Pairwise fun row other =>
          ownIdentity a.ports level row ≠ ownIdentity a.ports level other := by
        rw [objectRows, hper]
        exact pairwise_firstsBy _ _
      rw [← hrows] at hpair
      exact (List.pairwise_map (f := Nest.row)).mp hpair
    · rw [hrows, objectRows, if_pos hper]
      exact List.mem_filter.mpr ⟨hrow, (hAbove row).mp habove⟩
    · obtain ⟨row, hrow, rfl⟩ := List.mem_map.mp hnest
      rw [kids_node hchild]
      have hlen := length_lt_of_mem_childrenOf hchild
      have hagrees := (a.mem_levelRows_of_mem_objectRows hrow).2
      refine ih child _ _ (fun other => ?_)
        (length_lt_treeFuel (mem_childrenOf.mp hchild).1) (by omega)
      rw [a.agrees_childScope hchild hagrees, hAbove]
      rfl

end Assembly

/-! ### The whole document -/

/-- The rows of every frame, at its level. -/
def collectedRows (fields : List Field) : List (Level × List Row) :=
  (collectOrder fields).map fun f => (emitPrefix f.2.1, f.2.2.rows)

/-- Without a row limit every frame is collected whole. -/
theorem collectLevels_none {lib : KeyLibrary} {ports : PortPaths} {collected : List (Level × Frame)}
    {fields : List Field} {out : List (Level × Frame)} :
    collectLevels lib ports none collected fields = .ok out ↔
      out = collected ++ fields.map (fun f => (emitPrefix f.2.1, f.2.2)) ∧
      ∀ f ∈ fields, ∀ row ∈ f.2.2.rows, ∀ key ∈ nonnullKeys ports f.2.1, row.get key ≠ .none := by
  induction fields generalizing collected with
  | nil =>
    simp only [collectLevels, List.map_nil, List.append_nil]
    constructor
    · intro h
      exact ⟨(Except.ok.inj h).symm, by simp⟩
    · rintro ⟨rfl, -⟩
      rfl
  | cons f fields ih =>
    simp only [collectLevels_cons_eq_ok_iff, ih, List.forall_mem_cons, List.map_cons]
    constructor
    · rintro ⟨frame, hframe, hrows, rfl, hrest⟩
      obtain rfl := Except.ok.inj hframe
      exact ⟨by simp, hrows, hrest⟩
    · rintro ⟨rfl, hrows, hrest⟩
      exact ⟨f.2.2, rfl, hrows, by simp, hrest⟩

/-- The rows of an unlimited collection. -/
theorem rowsByPrefix_collectOrder (fields : List Field) :
    rowsByPrefix ((collectOrder fields).map fun f => (emitPrefix f.2.1, f.2.2)) =
      collectedRows fields := by
  rw [rowsByPrefix, collectedRows, List.map_map]
  rfl

/-- **Every row is nested where its keys say.** An assembled document is a forest of objects,
written out and pruned, in which the objects of every level under every parent object are
the level's distinct rows, in order, that agree on the relation keys with that parent and
with every object above it. -/
theorem document_nests_by_keys {lib : KeyLibrary} {frames : List (String × Frame)}
    {mapping : List MappingEntry} {topLevelPerRow : Bool} {document : List Value}
    (h : assembleOutputFromMapping lib frames mapping none topLevelPerRow = .ok document) :
    ∃ fields, MappedFields frames mapping fields ∧ ∃ forest,
      Nested ⟨portsOf fields, collectedRows fields, topLevelPerRow⟩ [] (fun _ => True) forest ∧
      document = pruneList (forest.map (Nest.render (portsOf fields) [])) := by
  obtain ⟨fields, hmapped, collected, hcollect, rfl⟩ := assembleOutputFromMapping_eq_ok_iff.mp h
  rw [ite_self] at hcollect
  obtain ⟨rfl, -⟩ := collectLevels_none.mp hcollect
  rw [List.nil_append, rowsByPrefix_collectOrder]
  refine ⟨fields, hmapped, _, Assembly.nested_nests _ (treeFuel (portsOf fields)) []
    [] _ ?_ ?_ ?_, ?_⟩
  · exact fun row => by simp [agrees]
  · exact Nat.succ_pos _
  · exact le_rfl
  · rw [Assembly.document, ← Assembly.map_render_nests]

/-- The policies' document is such a forest. -/
theorem document_nests_by_keys_policies :
    ∃ fields, MappedFields policyFrames policyMapping fields ∧ ∃ forest,
      Nested ⟨portsOf fields, collectedRows fields, false⟩ [] (fun _ => True) forest ∧
      policyDocument = pruneList (forest.map (Nest.render (portsOf fields) [])) :=
  @document_nests_by_keys typedKeys _ _ _ _ (by decide +kernel)

/-! ### Keys of the objects above -/

/-- Two roots, each with one object of level `a` whose key is 10, and a row of level `b` for
each of the two. -/
def sharedKeyFrames : List (String × Frame) :=
  [("roots", ⟨[("id", .scalar .int)], [[("id", .int 1)], [("id", .int 2)]],
      by decide, by decide⟩),
    ("as", ⟨[("id", .scalar .int), ("k", .scalar .int)],
      [[("id", .int 1), ("k", .int 10)], [("id", .int 2), ("k", .int 10)]],
      by decide, by decide⟩),
    ("bs", ⟨[("id", .scalar .int), ("k", .scalar .int), ("v", .scalar .str)],
      [[("id", .int 1), ("k", .int 10), ("v", .str "x")],
        [("id", .int 2), ("k", .int 10), ("v", .str "y")]],
      by decide, by decide⟩)]

def sharedKeyMapping : List MappingEntry :=
  [⟨"roots", "id", "$[:].id", true⟩,
    ⟨"as", "id", "$[:].id", true⟩, ⟨"as", "k", "$[:].a[:].k", true⟩,
    ⟨"bs", "id", "$[:].id", true⟩, ⟨"bs", "k", "$[:].a[:].k", true⟩,
    ⟨"bs", "v", "$[:].a[:].b[:].v", true⟩]

/-- A row is not nested under every parent object whose relation keys equal its own: the
row `y` has the key of the first root's `a` object, and does not stand there, because it
belongs to the second root. -/
theorem relation_key_of_another_parent :
    (∃ ports, mappingPorts sharedKeyMapping = .ok ports ∧
      relationKeys ports [⟨"a", true⟩, ⟨"b", true⟩] = ["$[:].a[:].k"]) ∧
    ∃ document, assembleOutputFromMapping typedKeys sharedKeyFrames
        sharedKeyMapping none false = .ok document ∧
      ∃ root ∈ document, ∃ parents, read? root ["a"] = some (.list parents) ∧
      ∃ parent ∈ parents, read? parent ["k"] = some (.int 10) ∧
      ∃ kids, read? parent ["b"] = some (.list kids) ∧ Value.dict [("v", .str "y")] ∉ kids := by
  refine ⟨⟨_, rfl, by decide +kernel⟩,
    [.dict [("id", .int 1), ("a", .list [.dict [("k", .int 10),
        ("b", .list [.dict [("v", .str "x")]])]])],
      .dict [("id", .int 2), ("a", .list [.dict [("k", .int 10),
        ("b", .list [.dict [("v", .str "y")]])]])]], by decide +kernel, ?_⟩
  exact ⟨_, List.mem_cons_self, _, rfl, _, List.mem_cons_self, rfl, _, rfl, by decide⟩

end Haute
