import Haute.Output.Nesting

/-!
# A row limit

With a row limit an emitting root is read to its first rows, and each deeper frame is read
to the rows whose keys match its nearest collected ancestor. At a level that a frame emits
this loses nothing: a row in the scope of a kept object carries the keys of the objects
above it, so it is kept (`filter_agrees_levelRows`). A level that no frame emits is
synthesised from every frame below it, and a row of one of those may be dropped for want of
a match at an emitting level *between*, although its own values at the synthesised level
stand for an object of the unlimited document.

Which rows of the frames the first root rows reach is a relation on the rows (`ReachedRow`), and the
limited collection reads those, unless the frame library refuses to compare two frames' keys
(`limitLevel_eq_ok_iff`, `collectLevels_limited`). `limited_document` proves that the limited
document is the unlimited one's first objects exactly when it refuses none and no synthesised
level loses an object so (`LimitKeeps`): the condition is always enough, and it is necessary
wherever no object of a synthesised level prunes away (`Visible`).
`limited_document_loses_object` is an input on which it fails.
-/

namespace Haute

open NestedDict Grouping

/-! ### The rows a limit reaches -/

section Rows

variable (lib : KeyLibrary) (fields : List Field) (n : ℕ)

/-- The frame that emits the nearest level above. -/
def nearestAbove (level : Level) : Option Field :=
  (ancestorLevels level).dropLast.reverse.findSome? fun above =>
    fields.find? fun f => decide (emitPrefix f.2.1 = above)

/-- A row that the first `n` root rows reach, by the keys each frame shares with the frame that
emits the nearest level above. -/
inductive ReachedRow : Field → Row → Prop where
  | root {f : Field} {row : Row} (hroot : emitPrefix f.2.1 = []) (hrow : row ∈ f.2.2.rows.take n) :
      ReachedRow f row
  /-- No key is shared. -/
  | free {f : Field} {row : Row} (hroot : emitPrefix f.2.1 ≠ []) (hrow : row ∈ f.2.2.rows)
      (hkeys : ∀ g, nearestAbove fields (emitPrefix f.2.1) = some g →
        limitKeys (portsOf fields) (emitPrefix g.2.1) f.2.1 = []) : ReachedRow f row
  | matched {f g : Field} {row above : Row} (hroot : emitPrefix f.2.1 ≠ [])
    (hrow : row ∈ f.2.2.rows)
      (hnearest : nearestAbove fields (emitPrefix f.2.1) = some g) (habove : ReachedRow g above)
      (hkeys : ∀ key ∈ limitKeys (portsOf fields) (emitPrefix g.2.1) f.2.1,
        lib.keyEq (row.get key) (above.get key) = true) : ReachedRow f row

open Classical in
/-- Whether a row is reached. -/
noncomputable def isReached (f : Field) (row : Row) : Bool := decide (ReachedRow lib fields n f row)

/-- A frame's rows that the first root rows reach. -/
noncomputable def reachedFrame (f : Field) : Frame :=
  if emitPrefix f.2.1 = [] then f.2.2.head n else f.2.2.filter (isReached lib fields n f)

/-- The frame library takes the keys a frame shares with the nearest frame above: it does not
refuse the types of their columns. -/
def KeysTaken (f : Field) : Prop :=
  ∀ g, nearestAbove fields (emitPrefix f.2.1) = some g →
    lib.keyError (limitKeys (portsOf fields) (emitPrefix g.2.1) f.2.1) f.2.2
      (reachedFrame lib fields n g) = none

/-- The walk of the unlimited assembly. -/
def fullAssembly (topLevelPerRow : Bool) : Assembly :=
  ⟨portsOf fields, collectedRows fields, topLevelPerRow⟩

/-- The walk over the rows reached. -/
noncomputable def reachedAssembly (topLevelPerRow : Bool) : Assembly :=
  ⟨portsOf fields, (collectOrder fields).map fun f =>
    (emitPrefix f.2.1, (reachedFrame lib fields n f).rows),
    topLevelPerRow⟩

end Rows

/-- The rows that the root objects begun by the first `n` root rows stand for. -/
def Assembly.keptRoots (a : Assembly) (n : ℕ) : List Row :=
  if a.perRow [] then (a.levelRows []).take n
  else firstsBy (ownIdentity a.ports []) ((a.levelRows []).take n)

/-- The root objects whose first row is among the first `n` root rows, pruned. -/
def Assembly.firstObjects (a : Assembly) (n : ℕ) : List Value :=
  pruneList ((a.build (treeFuel a.ports) [] []).take (a.keptRoots n).length)

/-- A scope below the objects of some root rows. -/
inductive Assembly.InScope (a : Assembly) (roots : List Row) : Level → Row → Prop where
  | underRoot {row : Row} {child : Level} (hrow : row ∈ roots)
    (hchild : child ∈ childrenOf a.ports []) :
      InScope a roots child (a.childScope [] child [] row)
  | underObject {level child : Level} {scope row : Row} (h : InScope a roots level scope)
      (hrow : row ∈ a.objectRows level scope) (hchild : child ∈ childrenOf a.ports level) :
      InScope a roots child (a.childScope level child scope row)

/-- A row's values of a level's own fields. -/
def ownValues (ports : PortPaths) (level : Level) (row : Row) : List Value :=
  (ownPaths ports level).map fun path => row.get path.raw

/-- Below every kept root object, a level that no frame emits has the same objects, by their
own fields and in the same order, over the rows that the first root rows reach as over all rows. -/
def LimitKeeps (lib : KeyLibrary) (fields : List Field) (n : ℕ) (topLevelPerRow : Bool) : Prop :=
  ∀ level scope, (fullAssembly fields topLevelPerRow).InScope
      ((fullAssembly fields topLevelPerRow).keptRoots n) level scope →
    portAt? (portsOf fields) level = none →
    ((reachedAssembly lib fields n topLevelPerRow).objectRows level scope).map
        (ownValues (portsOf fields) level)
      = ((fullAssembly fields topLevelPerRow).objectRows level scope).map
        (ownValues (portsOf fields) level)

/-- A row's own fields at a level are scalars. -/
def ScalarRow (ports : PortPaths) (level : Level) (row : Row) : Prop :=
  ∀ path ∈ ownPaths ports level, (row.get path.raw).isScalar = true

/-- No own field holds a collection, and every row has a value at each level above its own that
no frame emits: no object of such a level prunes away. -/
structure Visible (a : Assembly) : Prop where
  scalars : ∀ level, ∀ row ∈ a.levelRows level, ScalarRow a.ports level row
  valued : ∀ level, portAt? a.ports level = none → ∀ row ∈ a.levelRows level,
    ∃ path ∈ ownPaths a.ports level, row.get path.raw ≠ .none

/-! ### Reading the collected rows -/

section Collected

variable {lib : KeyLibrary} {fields : List Field} {n : ℕ}

/-- Collecting orders the fields and leaves none out. -/
theorem mem_collectOrder {f : Field} : f ∈ collectOrder fields ↔ f ∈ fields :=
  List.mem_insertionSort _

/-- No two fields emit at one level. -/
theorem pairwise_collectOrder (h : ValidPorts (portsOf fields)) :
    (collectOrder fields).Pairwise fun f g => emitPrefix f.2.1 ≠ emitPrefix g.2.1 := by
  have hports : (portsOf fields).Pairwise fun p q => emitPrefix p.2 ≠ emitPrefix q.2 := h.oneFrame
  have hfields : (fields.map fun f => emitPrefix f.2.1).Nodup :=
    List.pairwise_map.mpr ((List.pairwise_map (f := fun f : Field => (f.1, f.2.1))).mp hports)
  have hperm := ((List.perm_insertionSort (fun f g : Field =>
    (emitPrefix f.2.1).length ≤ (emitPrefix g.2.1).length) fields).map fun f => emitPrefix f.2.1)
  exact List.pairwise_map.mp (hperm.nodup_iff.mpr hfields)

/-- What a table of the fields holds for a field's level. -/
theorem get?_collectOrder {β : Type*} (h : ValidPorts (portsOf fields))
    (read : Field → β) {f : Field}
    (hf : f ∈ fields) :
    Assoc.get? ((collectOrder fields).map fun f => (emitPrefix f.2.1, read f)) (emitPrefix f.2.1)
      = some (read f) := by
  refine Assoc.get?_eq_some_of_mem ?_ (List.mem_map.mpr ⟨f, mem_collectOrder.mpr hf, rfl⟩)
  rw [Assoc.keys, List.map_map]
  exact List.pairwise_map.mpr (pairwise_collectOrder h)

/-- The rows collected at a field's prefix are those of its frame. -/
theorem get?_collectedRows (h : ValidPorts (portsOf fields)) {f : Field} (hf : f ∈ fields) :
    Assoc.get? (collectedRows fields) (emitPrefix f.2.1) = some f.2.2.rows :=
  get?_collectOrder h (fun f => f.2.2.rows) hf

/-! ### The limited collection reads the rows reached -/

/-- A row passes the limit exactly when it is reached. -/
theorem isReached_iff {f : Field} {row : Row} :
    isReached lib fields n f row = true ↔ ReachedRow lib fields n f row :=
  @decide_eq_true_iff _ (Classical.propDecidable _)

/-- The rows left of a frame are those reached. -/
theorem mem_rows_reachedFrame {f : Field} {row : Row} :
    row ∈ (reachedFrame lib fields n f).rows ↔ ReachedRow lib fields n f row := by
  unfold reachedFrame
  split_ifs with hroot
  · refine ⟨fun hrow => .root hroot hrow, fun hrow => ?_⟩
    cases hrow with
    | root _ hrow => exact hrow
    | free hne => exact absurd hroot hne
    | matched hne => exact absurd hroot hne
  · refine ⟨fun hrow => isReached_iff.mp (List.mem_filter.mp hrow).2, fun hrow => ?_⟩
    refine List.mem_filter.mpr ⟨?_, isReached_iff.mpr hrow⟩
    cases hrow with
    | root h => exact absurd h hroot
    | free _ hrow => exact hrow
    | matched _ hrow => exact hrow

/-- The rows left of a frame keep their order. -/
theorem rows_reachedFrame_sublist (f : Field) :
    (reachedFrame lib fields n f).rows.Sublist f.2.2.rows := by
  unfold reachedFrame
  split_ifs
  · exact List.take_sublist _ _
  · exact List.filter_sublist

/-- A filter that every row passes leaves the frame. -/
theorem filter_eq_self {frame : Frame} {p : Row → Bool} (h : ∀ row ∈ frame.rows, p row = true) :
    frame.filter p = frame := by
  unfold Frame.filter
  congr 1
  exact List.filter_eq_self.mpr h

theorem filter_congr {frame : Frame} {p q : Row → Bool} (h : ∀ row ∈ frame.rows, p row = q row) :
    frame.filter p = frame.filter q := by
  unfold Frame.filter
  congr 1
  exact List.filter_congr h

/-- A level is limited by the ancestor's own paths that it has itself. -/
theorem mem_limitKeys {ports : PortPaths} {ancestor : Level} {paths : List ParsedPath}
    {key : String} :
    key ∈ limitKeys ports ancestor paths ↔
      key ∈ (ownPaths ports ancestor).map ParsedPath.raw ∧ key ∈ paths.map ParsedPath.raw := by
  rw [limitKeys, List.mem_insertionSort, List.mem_filter, decide_eq_true_iff]

/-- The nearest frame above emits at a level above. -/
theorem nearestAbove_spec {level : Level} {g : Field} (hlevel : IsLevel level)
    (h : nearestAbove fields level = some g) :
    g ∈ fields ∧ emitPrefix g.2.1 <+: level ∧ (emitPrefix g.2.1).length < level.length := by
  obtain ⟨above, habove, hfind⟩ := List.exists_of_findSome?_eq_some h
  obtain rfl : emitPrefix g.2.1 = above := by simpa using List.find?_some hfind
  exact ⟨List.mem_of_find?_eq_some hfind,
    mem_dropLast_ancestorLevels hlevel (List.mem_reverse.mp habove)⟩

/-- The levels collected before a field's are those the frames above it emit at. -/
theorem mem_before {before after : List Field} {f g : Field}
    (hsplit : collectOrder fields = before ++ f :: after) (hg : g ∈ fields)
    (hlt : (emitPrefix g.2.1).length < (emitPrefix f.2.1).length) : g ∈ before := by
  have hsorted : (before ++ f :: after).Pairwise fun f g : Field =>
      (emitPrefix f.2.1).length ≤ (emitPrefix g.2.1).length := by
    rw [← hsplit]
    exact List.pairwise_insertionSort _ _
  have hmem := mem_collectOrder.mpr hg
  rw [hsplit] at hmem
  rcases List.mem_append.mp hmem with hbefore | hafter
  · exact hbefore
  · rcases List.mem_cons.mp hafter with rfl | hafter
    · omega
    · have := (List.pairwise_cons.mp (List.pairwise_append.mp hsorted).2.1).1 g hafter
      omega

private theorem findSome?_congr {α β : Type*} {xs : List α} {p q : α → Option β}
    (h : ∀ x ∈ xs, p x = q x) : xs.findSome? p = xs.findSome? q := by
  induction xs with
  | nil => rfl
  | cons x xs ih =>
    rw [List.findSome?_cons, List.findSome?_cons, h x List.mem_cons_self,
      ih fun y hy => h y (List.mem_cons_of_mem _ hy)]

/-- The nearest level collected is the nearest that a frame emits at. -/
theorem findSome?_collected {before after : List Field} (h : ValidPorts (portsOf fields))
    {f : Field}
    (hsplit : collectOrder fields = before ++ f :: after) (read : Field → Frame) :
    (ancestorLevels (emitPrefix f.2.1)).dropLast.reverse.findSome? (fun level =>
        (Assoc.get? (before.map fun g => (emitPrefix g.2.1, read g)) level).map (level, ·))
      = (nearestAbove fields (emitPrefix f.2.1)).map fun g => (emitPrefix g.2.1, read g) := by
  have hpair := pairwise_collectOrder h
  rw [hsplit] at hpair
  have hkeys : (Assoc.keys (before.map fun g => (emitPrefix g.2.1, read g))).Nodup := by
    rw [Assoc.keys, List.map_map]
    exact List.pairwise_map.mpr (List.pairwise_append.mp hpair).1
  have hfields : ∀ g ∈ before, g ∈ fields := fun g hg =>
    mem_collectOrder.mp (hsplit ▸ List.mem_append_left _ hg)
  rw [nearestAbove, List.map_findSome?]
  refine findSome?_congr fun level hlevel => ?_
  have hlt := (mem_dropLast_ancestorLevels (isLevel_emitPrefix _) (List.mem_reverse.mp hlevel)).2
  rcases hfind : fields.find? fun g => decide (emitPrefix g.2.1 = level) with _ | g
  · -- no frame emits there
    rw [Assoc.get?_eq_none, Function.comp_apply, hfind]
    · rfl
    · intro hmem
      rw [Assoc.keys, List.map_map] at hmem
      obtain ⟨g, hg, rfl⟩ := List.mem_map.mp hmem
      have := List.find?_eq_none.mp hfind g (hfields g hg)
      simp at this
  · obtain rfl : emitPrefix g.2.1 = level := by simpa using List.find?_some hfind
    have hg := mem_before hsplit (List.mem_of_find?_eq_some hfind) hlt
    rw [Assoc.get?_eq_some_of_mem hkeys (List.mem_map.mpr ⟨g, hg, rfl⟩), Function.comp_apply, hfind]
    rfl

/-- **What a limit reads of a frame**, once the levels above it are read: the rows reached, unless
the frame library refuses the keys. -/
theorem limitLevel_eq_ok_iff {before after : List Field} (h : ValidPorts (portsOf fields))
    {f : Field}
    (hsplit : collectOrder fields = before ++ f :: after) {frame : Frame} :
    limitLevel lib (portsOf fields)
      (before.map fun g => (emitPrefix g.2.1, reachedFrame lib fields n g)) n
        f.2.1 f.2.2 = .ok frame ↔
      KeysTaken lib fields n f ∧ frame = reachedFrame lib fields n f := by
  rw [limitLevel, findSome?_collected h hsplit]
  by_cases hroot : emitPrefix f.2.1 = []
  · have htaken : KeysTaken lib fields n f := by
      intro g hg
      rw [hroot] at hg
      cases hg
    rw [if_pos hroot, reachedFrame, if_pos hroot]
    exact ⟨fun heq => ⟨htaken, (Except.ok.inj heq).symm⟩, fun heq => by rw [heq.2]⟩
  rw [if_neg hroot]
  have hframe : reachedFrame lib fields n f = f.2.2.filter (isReached lib fields n f) := by
    rw [reachedFrame, if_neg hroot]
  rcases hnearest : nearestAbove fields (emitPrefix f.2.1) with _ | g
  · -- no frame emits above: all rows are read
    have htaken : KeysTaken lib fields n f := fun g hg => by rw [hnearest] at hg; cases hg
    have hall : reachedFrame lib fields n f = f.2.2 := by
      rw [hframe]
      refine filter_eq_self fun row hrow => isReached_iff.mpr (.free hroot hrow fun g hg => ?_)
      rw [hnearest] at hg
      cases hg
    rw [hall]
    exact ⟨fun heq => ⟨htaken, (Except.ok.inj heq).symm⟩, fun heq => by rw [heq.2]; rfl⟩
  · have hiff : KeysTaken lib fields n f ↔ lib.keyError
        (limitKeys (portsOf fields) (emitPrefix g.2.1) f.2.1) f.2.2 (reachedFrame lib fields n g) =
          none := by
      refine ⟨fun htaken => htaken g hnearest, fun htaken g' hg' => ?_⟩
      obtain rfl := Option.some.inj (hnearest.symm.trans hg')
      exact htaken
    have hread : (if (limitKeys (portsOf fields) (emitPrefix g.2.1) f.2.1).isEmpty then f.2.2
        else f.2.2.filter (lib.matchesKeys (limitKeys (portsOf fields) (emitPrefix g.2.1) f.2.1)
          (reachedFrame lib fields n g).rows)) = reachedFrame lib fields n f := by
      rw [hframe]
      split_ifs with hkeys
      · refine (filter_eq_self fun row hrow =>
          isReached_iff.mpr (.free hroot hrow fun g' hg' => ?_)).symm
        obtain rfl := Option.some.inj (hnearest.symm.trans hg')
        exact List.isEmpty_iff.mp hkeys
      · refine filter_congr fun row hrow => Bool.eq_iff_iff.mpr ?_
        rw [isReached_iff, KeyLibrary.matchesKeys, List.any_eq_true]
        constructor
        · rintro ⟨above, habove, hmatch⟩
          exact .matched hroot hrow hnearest (mem_rows_reachedFrame.mp habove)
            (List.all_eq_true.mp hmatch)
        · intro hreached
          cases hreached with
          | root hroot' => exact absurd hroot' hroot
          | free _ _ hfree => exact absurd (List.isEmpty_iff.mpr (hfree g hnearest)) hkeys
          | matched _ _ hnearest' habove hmatch =>
            obtain rfl := Option.some.inj (hnearest.symm.trans hnearest')
            exact ⟨_, mem_rows_reachedFrame.mpr habove, List.all_eq_true.mpr hmatch⟩
    rw [hiff]
    simp only [Option.map_some, bind_eq_ok_iff, raiseSome_eq_ok_iff, hread]
    constructor
    · rintro ⟨_, herror, heq⟩
      exact ⟨herror, (Except.ok.inj heq).symm⟩
    · rintro ⟨herror, heq⟩
      exact ⟨(), herror, by rw [heq]⟩

/-- The rows by prefix of limited frames are those of the limited assembly. -/
theorem rowsByPrefix_reached (topLevelPerRow : Bool) :
    (⟨portsOf fields, rowsByPrefix ((collectOrder fields).map fun g =>
        (emitPrefix g.2.1, reachedFrame lib fields n g)), topLevelPerRow⟩ : Assembly)
      = reachedAssembly lib fields n topLevelPerRow := by
  rw [rowsByPrefix, List.map_map]
  rfl

/-- **The limited collection** reads the rows reached, and raises where the frame library refuses
the keys of a level. -/
theorem collectLevels_limited {before after : List Field} (h : ValidPorts (portsOf fields))
    (hsplit : collectOrder fields = before ++ after)
    (hnull : ∀ f ∈ after, ∀ row ∈ f.2.2.rows, ∀ key ∈ nonnullKeys (portsOf fields) f.2.1,
      row.get key ≠ .none) {out : List (Level × Frame)} :
    collectLevels lib (portsOf fields) (some n)
        (before.map fun g => (emitPrefix g.2.1, reachedFrame lib fields n g)) after = .ok out ↔
      (∀ f ∈ after, KeysTaken lib fields n f) ∧
        out = (collectOrder fields).map fun g =>
          (emitPrefix g.2.1, reachedFrame lib fields n g) := by
  induction after generalizing before with
  | nil =>
    rw [hsplit, List.append_nil, collectLevels]
    exact ⟨fun heq => ⟨by simp, (Except.ok.inj heq).symm⟩, fun heq => by rw [heq.2]⟩
  | cons f after ih =>
    have hrest := @ih (before ++ [f]) (by rw [hsplit, List.append_assoc]; rfl)
      fun g hg => hnull g (List.mem_cons_of_mem _ hg)
    rw [List.map_append] at hrest
    rw [collectLevels_cons_eq_ok_iff, List.forall_mem_cons]
    simp only [levelPlan, limitLevel_eq_ok_iff h hsplit]
    constructor
    · rintro ⟨frame, ⟨htaken, rfl⟩, -, hcollect⟩
      obtain ⟨hall, rfl⟩ := hrest.mp hcollect
      exact ⟨⟨htaken, hall⟩, rfl⟩
    · rintro ⟨⟨htaken, hall⟩, rfl⟩
      refine ⟨_, ⟨htaken, rfl⟩, fun row hrow => ?_, hrest.mpr ⟨hall, rfl⟩⟩
      exact hnull f List.mem_cons_self row ((rows_reachedFrame_sublist f).subset hrow)

/-! ### The rows of a level -/

variable {topLevelPerRow : Bool}

/-- A level without a port is the prefix of no field. -/
theorem portAt?_eq_none_iff {level : Level} :
    portAt? (portsOf fields) level = none ↔ ∀ f ∈ fields, emitPrefix f.2.1 ≠ level := by
  rw [portAt?, List.find?_eq_none]
  constructor
  · intro h f hf
    simpa using h _ (List.mem_map.mpr ⟨f, hf, rfl⟩)
  · intro h p hp
    obtain ⟨f, hf, rfl⟩ := List.mem_map.mp hp
    simpa using h f hf

/-- The prefix of a field has a port. -/
theorem portAt?_ne_none {f : Field} (hf : f ∈ fields) :
    ∃ p, portAt? (portsOf fields) (emitPrefix f.2.1) = some p := by
  rcases hp : portAt? (portsOf fields) (emitPrefix f.2.1) with _ | p
  · exact absurd rfl (portAt?_eq_none_iff.mp hp f hf)
  · exact ⟨p, rfl⟩

/-- At a level that a frame emits, the rows collected for it. -/
theorem levelRows_of_emits {rowsByPrefix : List (Level × List Row)} {f : Field} (hf : f ∈ fields)
    {rows : List Row} (h : Assoc.get? rowsByPrefix (emitPrefix f.2.1) = some rows) :
    (Assembly.mk (portsOf fields) rowsByPrefix topLevelPerRow).levelRows (emitPrefix f.2.1)
      = rows := by
  obtain ⟨p, hp⟩ := portAt?_ne_none hf
  rw [Assembly.levelRows, hp, h]
  rfl

/-- At a level that a frame emits, the rows reached. -/
theorem levelRows_reached (h : ValidPorts (portsOf fields)) {f : Field} (hf : f ∈ fields) :
    (reachedAssembly lib fields n topLevelPerRow).levelRows (emitPrefix f.2.1)
      = (reachedFrame lib fields n f).rows :=
  levelRows_of_emits hf (get?_collectOrder h (fun f => (reachedFrame lib fields n f).rows) hf)

/-- The rows reached are rows of their level. -/
theorem levelRows_limited_subset (h : ValidPorts (portsOf fields)) {level : Level} {row : Row}
    (hrow : row ∈ (reachedAssembly lib fields n topLevelPerRow).levelRows level) :
    row ∈ (fullAssembly fields topLevelPerRow).levelRows level := by
  have hread : ∀ f ∈ fields,
      row ∈ (Assoc.get? (reachedAssembly lib fields n topLevelPerRow).rowsByPrefix
        (emitPrefix f.2.1)).getD [] →
      row ∈ (Assoc.get? (collectedRows fields) (emitPrefix f.2.1)).getD [] := by
    intro f hf hmem
    rw [reachedAssembly, get?_collectOrder h (fun f => (reachedFrame lib fields n f).rows)
      hf] at hmem
    rw [get?_collectedRows h hf]
    exact (rows_reachedFrame_sublist f).subset hmem
  rw [Assembly.levelRows] at hrow ⊢
  rcases hp : portAt? (portsOf fields) level with _ | p
  · simp only [reachedAssembly, fullAssembly, hp] at hrow hread ⊢
    obtain ⟨p, hpmem, hmem⟩ := List.mem_flatMap.mp hrow
    refine List.mem_flatMap.mpr ⟨p, hpmem, ?_⟩
    obtain ⟨f, hf, rfl⟩ := List.mem_map.mp (List.mem_of_mem_filter hpmem)
    exact hread f hf hmem
  · simp only [reachedAssembly, fullAssembly, hp] at hrow hread ⊢
    have hlevel : emitPrefix p.2 = level := by simpa using List.find?_some hp
    obtain ⟨f, hf, rfl⟩ := List.mem_map.mp (List.mem_of_find?_eq_some hp)
    subst hlevel
    exact hread f hf hrow

/-! ### A level that a frame emits loses nothing -/

/-- The child of a level on the way to a deeper one. -/
theorem exists_child_toward {level deep : Level} (hlevel : IsLevel level) (hdeep : IsLevel deep)
    (hpre : level <+: deep) (hne : level ≠ deep) :
    ∃ child, IsLevel child ∧ child ≠ [] ∧ parentLevel child = level ∧ child <+: deep := by
  obtain ⟨len, hlen⟩ : ∃ len, deep.length = len := ⟨_, rfl⟩
  induction len using Nat.strong_induction_on generalizing deep with
  | _ len ih =>
    have hroot : deep ≠ [] := by
      rintro rfl
      exact hne (List.prefix_nil.mp hpre)
    by_cases hparent : parentLevel deep = level
    · exact ⟨deep, hdeep, hroot, hparent, List.prefix_rfl⟩
    · have hlt := length_parentLevel_lt hdeep hroot
      have hup : level <+: parentLevel deep := prefix_parentLevel hlevel hdeep hpre hne
      obtain ⟨child, hc, hcne, hcp, hcpre⟩ := ih _ (hlen ▸ hlt)
        (isLevel_parentLevel hdeep hroot) hup (Ne.symm hparent) rfl
      exact ⟨child, hc, hcne, hcp, hcpre.trans (parentLevel_prefixes hdeep hroot)⟩

/-- The keys a frame shares with a level above it are nesting keys. -/
theorem mem_nonnullKeys {f g : Field} (hf : f ∈ fields)
    (hpre : emitPrefix g.2.1 <+: emitPrefix f.2.1) (hne : emitPrefix g.2.1 ≠ emitPrefix f.2.1)
    {key : String} (hown : key ∈ (ownPaths (portsOf fields) (emitPrefix g.2.1)).map ParsedPath.raw)
    (hkey : key ∈ f.2.1.map ParsedPath.raw) : key ∈ nonnullKeys (portsOf fields) f.2.1 := by
  have hport : (f.1, f.2.1) ∈ portsOf fields := List.mem_map.mpr ⟨f, hf, rfl⟩
  obtain ⟨child, hc, hcne, hparent, hcpre⟩ :=
    exists_child_toward (isLevel_emitPrefix _) (isLevel_emitPrefix _) hpre hne
  have hchild : child ∈ levelsOf (portsOf fields) := mem_levelsOf.mpr ⟨hc, _, hport, hcpre⟩
  have hrel : key ∈ relationKeys (portsOf fields) child := by
    rw [relationKeys, hparent, List.mem_filter, decide_eq_true_iff]
    refine ⟨hown, List.mem_flatMap.mpr ⟨_, List.mem_filter.mpr ⟨hport, by simpa using hcpre⟩, hkey⟩⟩
  have hmem : key ∈ ((levelsOf (portsOf fields)).filter (· ≠ [])).flatMap fun child =>
      if emitPrefix f.2.1 = parentLevel child ∨ child <+: emitPrefix f.2.1 then
        relationKeys (portsOf fields) child
      else [] := by
    refine List.mem_flatMap.mpr ⟨child, List.mem_filter.mpr ⟨hchild, by simpa using hcne⟩, ?_⟩
    rw [if_pos (Or.inr hcpre)]
    exact hrel
  rw [← List.map_id (List.flatMap _ _), ← mem_map_firstsBy, List.map_id] at hmem
  exact hmem

/-- The keys in scope at a level are those of kept rows of the levels above it. -/
def AboveKept (fields : List Field) (limited : Assembly) (level : Level) (scope : Row) : Prop :=
  ∀ g ∈ fields, emitPrefix g.2.1 <+: level → emitPrefix g.2.1 ≠ level →
    ∃ above ∈ limited.levelRows (emitPrefix g.2.1),
      ∀ key ∈ (ownPaths limited.ports (emitPrefix g.2.1)).map ParsedPath.raw,
        key ∈ carries limited.ports level →
          key ∈ Assoc.keys scope ∧ identity (scope.get key) = identity (above.get key)

/-- **A level that a frame emits loses nothing**: every row in the scope of kept objects is
kept. -/
theorem filter_agrees_levelRows (hkey : ∀ v w, v ≠ .none → identity v = identity w →
      lib.keyEq v w = true) (h : ValidPorts (portsOf fields))
    (hnull : ∀ f ∈ fields, ∀ row ∈ f.2.2.rows, ∀ key ∈ nonnullKeys (portsOf fields) f.2.1,
      row.get key ≠ .none) {f : Field} (hf : f ∈ fields) (hroot : emitPrefix f.2.1 ≠ [])
    {scope : Row}
    (habove : AboveKept fields (reachedAssembly lib fields n topLevelPerRow)
      (emitPrefix f.2.1) scope) :
    ((reachedAssembly lib fields n topLevelPerRow).levelRows (emitPrefix f.2.1)).filter
        (agrees scope)
      = ((fullAssembly fields topLevelPerRow).levelRows (emitPrefix f.2.1)).filter
        (agrees scope) := by
  have hfull : (fullAssembly fields topLevelPerRow).levelRows (emitPrefix f.2.1) = f.2.2.rows :=
    levelRows_of_emits hf (get?_collectedRows h hf)
  rw [levelRows_reached h hf, hfull, reachedFrame, if_neg hroot, Frame.filter, List.filter_filter]
  refine List.filter_congr fun row hrow => ?_
  rw [Bool.and_eq_left_iff_imp]
  intro hagrees
  refine isReached_iff.mpr ?_
  rcases hnearest : nearestAbove fields (emitPrefix f.2.1) with _ | g
  · exact .free hroot hrow fun g hg => by rw [hnearest] at hg; cases hg
  -- the row carries the keys of the object above it, whose row is reached
  obtain ⟨hg, hpre, hlt⟩ := nearestAbove_spec (isLevel_emitPrefix _) hnearest
  have hne : emitPrefix g.2.1 ≠ emitPrefix f.2.1 :=
    fun heq => absurd (congrArg List.length heq) hlt.ne
  obtain ⟨above, hmem, hsame⟩ := habove g hg hpre hne
  rw [levelRows_reached h hg, mem_rows_reachedFrame] at hmem
  refine .matched hroot hrow hnearest hmem fun key hkeymem => ?_
  obtain ⟨hown, hcol⟩ := mem_limitKeys.mp hkeymem
  have hcarries : key ∈ carries (portsOf fields) (emitPrefix f.2.1) := by
    refine List.mem_flatMap.mpr ⟨(f.1, f.2.1), List.mem_filter.mpr ⟨?_, by simp⟩, hcol⟩
    exact List.mem_map.mpr ⟨f, hf, rfl⟩
  obtain ⟨hscope, hid⟩ := hsame key hown hcarries
  refine hkey _ _ (hnull f hf row hrow key (mem_nonnullKeys hf hpre hne hown hcol)) ?_
  rw [agrees_iff.mp hagrees key hscope, hid]

/-- A path's text tells its level. -/
theorem level_of_mem_ownPaths (h : ValidPorts (portsOf fields)) {level other : Level} {key : String}
    (hkey : key ∈ (ownPaths (portsOf fields) level).map ParsedPath.raw)
    (hother : key ∈ (ownPaths (portsOf fields) other).map ParsedPath.raw) : level = other := by
  obtain ⟨path, hpath, rfl⟩ := List.mem_map.mp hkey
  obtain ⟨path', hpath', heq⟩ := List.mem_map.mp hother
  have hsame := (isOutputPath_of_mem_ownPaths h hpath).eq_of_raw
    (isOutputPath_of_mem_ownPaths h hpath') heq.symm
  rw [← (mem_ownPaths hpath).1, ← (mem_ownPaths hpath').1, hsame]

/-- A child level carries no more than its parent. -/
theorem carries_subset {ports : PortPaths} {level child : Level}
    (h : level <+: child) {key : String}
    (hkey : key ∈ carries ports child) : key ∈ carries ports level := by
  obtain ⟨p, hp, hmem⟩ := List.mem_flatMap.mp hkey
  obtain ⟨hport, hpre⟩ := List.mem_filter.mp hp
  have hpre : child <+: emitPrefix p.2 := by simpa using hpre
  exact List.mem_flatMap.mpr ⟨p, List.mem_filter.mpr ⟨hport, by simpa using h.trans hpre⟩, hmem⟩

/-- The scope below an object of a kept row is again one of kept rows. -/
theorem AboveKept.child (h : ValidPorts (portsOf fields)) {level child : Level} {scope row : Row}
    (habove : AboveKept fields (reachedAssembly lib fields n topLevelPerRow) level scope)
    (hrow : (∃ f ∈ fields, emitPrefix f.2.1 = level) →
      row ∈ (reachedAssembly lib fields n topLevelPerRow).levelRows level)
    (hchild : child ∈ childrenOf (portsOf fields) level) (a : Assembly)
    (hports : a.ports = portsOf fields) :
    AboveKept fields (reachedAssembly lib fields n topLevelPerRow) child
      (a.childScope level child scope row) := by
  obtain ⟨hmem, hroot, hparent⟩ := mem_childrenOf.mp hchild
  have hlevel := (mem_levelsOf.mp hmem).1
  have hpre : level <+: child := hparent ▸ parentLevel_prefixes hlevel hroot
  intro g hg hgpre hgne
  by_cases hsame : emitPrefix g.2.1 = level
  · refine ⟨row, hsame ▸ hrow ⟨g, hg, hsame⟩, fun key hown hcarries => ?_⟩
    have hin : key ∈ (ownPaths a.ports level).map ParsedPath.raw ∧ key ∈ carries a.ports child := by
      rw [hports]
      exact ⟨hsame ▸ hown, hcarries⟩
    rw [a.mem_keys_childScope, a.get_childScope, if_pos hin]
    exact ⟨Or.inr hin, rfl⟩
  · have hup : emitPrefix g.2.1 <+: level := by
      rw [← hparent]
      exact prefix_parentLevel (isLevel_emitPrefix _) hlevel hgpre hgne
    obtain ⟨above, habovemem, hkeys⟩ := habove g hg hup hsame
    refine ⟨above, habovemem, fun key hown hcarries => ?_⟩
    obtain ⟨hscope, hid⟩ := hkeys key hown (carries_subset hpre hcarries)
    have hout : ¬ (key ∈ (ownPaths a.ports level).map ParsedPath.raw ∧
        key ∈ carries a.ports child) := by
      rw [hports]
      exact fun hin => hsame (level_of_mem_ownPaths h hown hin.1)
    rw [a.mem_keys_childScope, a.get_childScope, if_neg hout]
    exact ⟨Or.inl hscope, hid⟩

/-! ### The condition is enough -/

/-- Rows of equal own values agree on each own path of their level. -/
theorem get_eq_of_ownValues {ports : PortPaths} {level : Level} {row other : Row}
    (h : ownValues ports level row = ownValues ports level other) :
    ∀ path ∈ ownPaths ports level, row.get path.raw = other.get path.raw :=
  fun path hpath => List.map_inj_left.mp h path hpath

/-- The scope below an object depends on its own values alone. -/
theorem childScope_congr (a : Assembly) {level : Level} {row other : Row}
    (h : ownValues a.ports level row = ownValues a.ports level other)
    (child : Level) (scope : Row) :
    a.childScope level child scope row = a.childScope level child scope other := by
  have hget := get_eq_of_ownValues h
  rw [Assembly.childScope, Assembly.childScope]
  refine List.foldl_ext _ _ _ fun s path hpath => ?_
  rw [hget path hpath]

/-- An object depends on its row's own values alone. -/
theorem objectOf_congr (a : Assembly) {level : Level} {row other : Row}
    (h : ownValues a.ports level row = ownValues a.ports level other) (fuel : ℕ) (scope : Row) :
    a.objectOf fuel level scope row = a.objectOf fuel level scope other := by
  have hget := get_eq_of_ownValues h
  have hleaves : (ownPaths a.ports level).map (fun path => (path.ownSubpath, row.get path.raw))
      = (ownPaths a.ports level).map fun path => (path.ownSubpath, other.get path.raw) :=
    List.map_congr_left fun path hpath => by rw [hget path hpath]
  simp only [Assembly.objectOf, objectWrites, hleaves, childScope_congr a h]

/-- Two lists of rows with the same values map alike where the map reads only those. -/
private theorem map_eq_map_of_map_eq {α β γ : Type*} {v : α → β} {f g : α → γ} {xs ys : List α}
    (h : xs.map v = ys.map v) (hfg : ∀ x, ∀ y ∈ ys, v x = v y → f x = g y) :
    xs.map f = ys.map g := by
  induction xs generalizing ys with
  | nil =>
    obtain rfl : ys = [] := by simpa using h.symm
    rfl
  | cons x xs ih =>
    cases ys with
    | nil => simp at h
    | cons y ys =>
      obtain ⟨hxy, hrest⟩ := List.cons.inj h
      rw [List.map_cons, List.map_cons, hfg x y List.mem_cons_self hxy,
        ih hrest fun x' y' hy' => hfg x' y' (List.mem_cons_of_mem _ hy')]

theorem perRow_of_ne_nil (a : Assembly) {level : Level} (h : level ≠ []) :
    a.perRow level = false := by
  simp [Assembly.perRow, h]

section Sufficient

variable (hkey : ∀ v w, v ≠ .none → identity v = identity w → lib.keyEq v w = true)
  (h : ValidPorts (portsOf fields))
  (hnull : ∀ f ∈ fields, ∀ row ∈ f.2.2.rows, ∀ key ∈ nonnullKeys (portsOf fields) f.2.1,
    row.get key ≠ .none)

include hkey h hnull

/-- At a level that a frame emits, the objects in scope stand for the same rows. -/
theorem objectRows_of_emits {f : Field} (hf : f ∈ fields) (hroot : emitPrefix f.2.1 ≠ [])
    {scope : Row} (habove : AboveKept fields (reachedAssembly lib fields n topLevelPerRow)
      (emitPrefix f.2.1) scope) :
    (reachedAssembly lib fields n topLevelPerRow).objectRows (emitPrefix f.2.1) scope
      = (fullAssembly fields topLevelPerRow).objectRows (emitPrefix f.2.1) scope := by
  rw [Assembly.objectRows, Assembly.objectRows, perRow_of_ne_nil _ hroot, perRow_of_ne_nil _ hroot,
    filter_agrees_levelRows hkey h hnull hf hroot habove]
  rfl

/-- Below kept roots the rows the objects stand for have the same own values. -/
theorem map_ownValues_objectRows
    (hkeeps : LimitKeeps lib fields n topLevelPerRow) {level : Level} {scope : Row}
    (hscope : (fullAssembly fields topLevelPerRow).InScope
      ((fullAssembly fields topLevelPerRow).keptRoots n) level scope) (hlevel : level ≠ [])
    (habove : AboveKept fields (reachedAssembly lib fields n topLevelPerRow) level scope) :
    ((reachedAssembly lib fields n topLevelPerRow).objectRows level scope).map
        (ownValues (portsOf fields) level)
      = ((fullAssembly fields topLevelPerRow).objectRows level scope).map
        (ownValues (portsOf fields) level) := by
  rcases hp : portAt? (portsOf fields) level with _ | p
  · exact hkeeps level scope hscope hp
  · obtain ⟨f, hf, heq⟩ : ∃ f ∈ fields, emitPrefix f.2.1 = level := by
      by_contra hnone
      push Not at hnone
      rw [portAt?_eq_none_iff.mpr hnone] at hp
      simp at hp
    subst heq
    rw [objectRows_of_emits hkey h hnull hf hlevel habove]

/-- **Below kept roots the two walks agree**, by induction down the tree. -/
theorem build_limited
    (hkeeps : LimitKeeps lib fields n topLevelPerRow) (fuel : ℕ) {level : Level} {scope : Row}
    (hscope : (fullAssembly fields topLevelPerRow).InScope
      ((fullAssembly fields topLevelPerRow).keptRoots n) level scope) (hlevel : level ≠ [])
    (habove : AboveKept fields (reachedAssembly lib fields n topLevelPerRow) level scope) :
    (reachedAssembly lib fields n topLevelPerRow).build fuel level scope
      = (fullAssembly fields topLevelPerRow).build fuel level scope := by
  induction fuel generalizing level scope with
  | zero => rfl
  | succ fuel ih =>
    have hvalues := map_ownValues_objectRows hkey h hnull hkeeps hscope hlevel habove
    rw [Assembly.build_succ, Assembly.build_succ]
    -- a row's object in the limited walk is its object in the full one
    have hsame : ∀ row ∈ (fullAssembly fields topLevelPerRow).objectRows level scope,
        (reachedAssembly lib fields n topLevelPerRow).objectOf fuel level scope row
          = (fullAssembly fields topLevelPerRow).objectOf fuel level scope row := by
      intro row hrow
      have hkids : ∀ child ∈ childrenOf (portsOf fields) level,
          (reachedAssembly lib fields n topLevelPerRow).build fuel child
              ((fullAssembly fields topLevelPerRow).childScope level child scope row)
            = (fullAssembly fields topLevelPerRow).build fuel child
              ((fullAssembly fields topLevelPerRow).childScope level child scope row) := by
        intro child hchild
        refine ih (hscope.underObject hrow hchild) (mem_childrenOf.mp hchild).2.1 ?_
        refine habove.child h ?_ hchild _ rfl
        rintro ⟨f, hf, rfl⟩
        rw [← objectRows_of_emits hkey h hnull hf hlevel habove] at hrow
        exact (Assembly.mem_levelRows_of_mem_objectRows _ hrow).1
      rw [Assembly.objectOf, Assembly.objectOf]
      refine congrArg (fun writes => Value.dict (writeAll writes)) ?_
      exact objectWrites_congr hkids
    exact map_eq_map_of_map_eq hvalues fun row other hother hown =>
      (objectOf_congr _ hown fuel scope).trans (hsame other hother)

end Sufficient

/-- The scope below a kept root is one of kept rows. -/
theorem aboveKept_root (h : ValidPorts (portsOf fields)) {child : Level}
    (hchild : child ∈ childrenOf (portsOf fields) []) {row : Row}
    (hrow : (∃ f ∈ fields, emitPrefix f.2.1 = []) →
      row ∈ (reachedAssembly lib fields n topLevelPerRow).levelRows []) :
    AboveKept fields (reachedAssembly lib fields n topLevelPerRow) child
      ((fullAssembly fields topLevelPerRow).childScope [] child [] row) := by
  refine AboveKept.child h ?_ hrow hchild _ rfl
  exact fun g _ hpre hne => absurd (List.prefix_nil.mp hpre) hne

theorem agrees_nil (row : Row) : agrees [] row = true := rfl

/-- The rows of the limited root objects are the kept roots. -/
theorem objectRows_limited_root (h : ValidPorts (portsOf fields)) {f : Field} (hf : f ∈ fields)
    (hroot : emitPrefix f.2.1 = []) :
    (reachedAssembly lib fields n topLevelPerRow).objectRows [] []
      = (fullAssembly fields topLevelPerRow).keptRoots n := by
  have hlimited := @levelRows_reached lib fields n topLevelPerRow h f hf
  have hfull := @levelRows_of_emits fields topLevelPerRow _ _ hf _ (get?_collectedRows h hf)
  have htake : (reachedFrame lib fields n f).rows = f.2.2.rows.take n := by
    rw [reachedFrame, if_pos hroot, Frame.head]
  rw [hroot] at hlimited hfull
  have hfilter : ∀ rows : List Row, rows.filter (agrees []) = rows := fun rows =>
    List.filter_eq_self.mpr fun row _ => agrees_nil row
  rw [Assembly.objectRows, Assembly.keptRoots, hfilter, hlimited, fullAssembly, hfull, htake]
  rfl

/-- The kept roots come first among the root objects' rows. -/
theorem take_objectRows_root (a : Assembly) (n : ℕ) :
    (a.objectRows [] []).take (a.keptRoots n).length = a.keptRoots n := by
  have hfilter : (a.levelRows []).filter (agrees []) = a.levelRows [] :=
    List.filter_eq_self.mpr fun row _ => agrees_nil row
  rw [Assembly.objectRows, Assembly.keptRoots, hfilter]
  split_ifs
  · rw [List.length_take, List.take_eq_take_iff]
    simp
  · have happend := firstsBy_append (ownIdentity a.ports []) ((a.levelRows []).take n)
      ((a.levelRows []).drop n)
    rw [List.take_append_drop] at happend
    exact happend ▸ List.take_left' rfl

/-- The first root objects are those of the kept roots. -/
theorem firstObjects_eq (a : Assembly) (n : ℕ) :
    a.firstObjects n
      = pruneList ((a.keptRoots n).map (a.objectOf (treeFuel a.ports - 1) [] [])) := by
  rw [Assembly.firstObjects, show treeFuel a.ports = (treeFuel a.ports - 1) + 1 from rfl,
    Assembly.build_succ, ← List.map_take, take_objectRows_root]
  rfl

/-- The limited document has one object for each root object kept. -/
theorem document_limited_eq (h : ValidPorts (portsOf fields)) {f : Field} (hf : f ∈ fields)
    (hroot : emitPrefix f.2.1 = []) :
    (reachedAssembly lib fields n topLevelPerRow).document
      = pruneList (((fullAssembly fields topLevelPerRow).keptRoots n).map
        ((reachedAssembly lib fields n topLevelPerRow).objectOf (treeFuel (portsOf fields) - 1)
          [] [])) := by
  rw [Assembly.document, ← @objectRows_limited_root lib _ _ _ h _ hf hroot,
    show treeFuel (reachedAssembly lib fields n topLevelPerRow).ports
      = (treeFuel (portsOf fields) - 1) + 1 from rfl, Assembly.build_succ]

/-- A kept root's row is a row the limited assembly read. -/
theorem mem_levelRows_of_mem_keptRoots (h : ValidPorts (portsOf fields)) {row : Row}
    (hrow : row ∈ (fullAssembly fields topLevelPerRow).keptRoots n) :
    (∃ f ∈ fields, emitPrefix f.2.1 = []) →
      row ∈ (reachedAssembly lib fields n topLevelPerRow).levelRows [] := by
  rintro ⟨f, hf, hroot⟩
  rw [← @objectRows_limited_root lib _ _ _ h _ hf hroot] at hrow
  exact (Assembly.mem_levelRows_of_mem_objectRows _ hrow).1

/-- **The condition is enough**: the limited document is the first objects of the full one. -/
theorem document_limited_of_limitKeeps
    (hkey : ∀ v w, v ≠ .none → identity v = identity w → lib.keyEq v w = true)
    (h : ValidPorts (portsOf fields))
    (hnull : ∀ f ∈ fields, ∀ row ∈ f.2.2.rows, ∀ key ∈ nonnullKeys (portsOf fields) f.2.1,
      row.get key ≠ .none)
    {f : Field} (hf : f ∈ fields) (hroot : emitPrefix f.2.1 = [])
    (hkeeps : LimitKeeps lib fields n topLevelPerRow) :
    (reachedAssembly lib fields n topLevelPerRow).document
      = (fullAssembly fields topLevelPerRow).firstObjects n := by
  rw [document_limited_eq h hf hroot, firstObjects_eq]
  refine congrArg pruneList (List.map_congr_left fun row hrow => ?_)
  refine congrArg (fun writes => Value.dict (writeAll writes)) (objectWrites_congr ?_)
  intro child hchild
  refine build_limited hkey h hnull hkeeps _ (.underRoot hrow hchild)
    (mem_childrenOf.mp hchild).2.1 ?_
  exact aboveKept_root h hchild (mem_levelRows_of_mem_keptRoots h hrow)

/-! ### The condition is necessary where the objects of synthesised levels show -/

/-- Equal mapped lists, where equal images have equal values, have equal values. -/
private theorem map_eq_map_of_image {α β γ : Type*} {v : α → β} {f g : α → γ} {xs ys : List α}
    (h : xs.map f = ys.map g) (hv : ∀ x ∈ xs, ∀ y ∈ ys, f x = g y → v x = v y) :
    xs.map v = ys.map v := by
  induction xs generalizing ys with
  | nil =>
    obtain rfl : ys = [] := by simpa using h.symm
    rfl
  | cons x xs ih =>
    cases ys with
    | nil => simp at h
    | cons y ys =>
      obtain ⟨hxy, hrest⟩ := List.cons.inj h
      rw [List.map_cons, List.map_cons, hv x List.mem_cons_self y List.mem_cons_self hxy,
        ih hrest fun x' hx' y' hy' => hv x' (List.mem_cons_of_mem _ hx') y'
          (List.mem_cons_of_mem _ hy')]

/-- The object of a row with a value does not prune away. -/
theorem prune_objectOf_ne (a : Assembly) (h : ValidPorts a.ports) {level : Level} {row : Row}
    (hscalar : ScalarRow a.ports level row)
    (hvalued : ∃ path ∈ ownPaths a.ports level, row.get path.raw ≠ .none) (fuel : ℕ) (scope : Row) :
    prune (a.objectOf fuel level scope row) ≠ .dict [] := by
  obtain ⟨path, hpath, hvalue⟩ := hvalued
  intro hempty
  have hread := read?_prune_leaf h row
    (fun child => a.build fuel child (a.childScope level child scope row)) hpath
  rw [if_neg (by rwa [isAbsent_prune_of_isScalar (hscalar path hpath)])] at hread
  obtain ⟨k, ks, hks⟩ :=
    List.exists_cons_of_ne_nil (isOutputPath_of_mem_ownPaths h hpath).ownSubpath_ne_nil
  have hread' : read? (Value.dict []) path.ownSubpath = some (prune (row.get path.raw)) :=
    hempty ▸ hread
  rw [hks, show (Value.dict [] : Value) = dict [] from rfl, read?_dict_cons] at hread'
  simp at hread'

/-- Objects equal after pruning have equal own values, where these are scalars. -/
theorem ownValues_eq_of_prune (a b : Assembly) (h : ValidPorts a.ports) (hports : a.ports = b.ports)
    {level : Level} {row other : Row} (hrow : ScalarRow a.ports level row)
    (hother : ScalarRow a.ports level other) {fuel : ℕ} {scope : Row}
    (heq : prune (a.objectOf fuel level scope row) = prune (b.objectOf fuel level scope other)) :
    ownValues a.ports level row = ownValues a.ports level other := by
  refine List.map_congr_left fun path hpath => ?_
  have hread := read?_prune_leaf h row
    (fun child => a.build fuel child (a.childScope level child scope row)) hpath
  have hread' := read?_prune_leaf (hports ▸ h) other
    (fun child => b.build fuel child (b.childScope level child scope other)) (hports ▸ hpath)
  have hsame := hread.symm.trans ((congrArg (read? · path.ownSubpath) heq).trans hread')
  have hs := hrow path hpath
  have hs' := hother path hpath
  rw [prune_of_isScalar hs, prune_of_isScalar hs'] at hsame
  have habsent := isAbsent_prune_of_isScalar hs
  have habsent' := isAbsent_prune_of_isScalar hs'
  rw [prune_of_isScalar hs] at habsent
  rw [prune_of_isScalar hs'] at habsent'
  split_ifs at hsame with h₁ h₂ h₂
  · rw [habsent.mp h₁, habsent'.mp h₂]
  · exact Option.some.inj hsame

/-- Objects equal after pruning have equal children after pruning. -/
theorem pruneList_build_eq_of_prune (a b : Assembly) (h : ValidPorts a.ports)
    (hports : a.ports = b.ports) {level child : Level} (hchild : child ∈ childrenOf a.ports level)
    {row other : Row} {fuel : ℕ} {scope : Row}
    (heq : prune (a.objectOf fuel level scope row) = prune (b.objectOf fuel level scope other)) :
    pruneList (a.build fuel child (a.childScope level child scope row))
      = pruneList (b.build fuel child (b.childScope level child scope other)) := by
  have hread := read?_prune_child h row
    (fun child => a.build fuel child (a.childScope level child scope row)) hchild
  have hread' := read?_prune_child (hports ▸ h) other
    (fun child => b.build fuel child (b.childScope level child scope other)) (hports ▸ hchild)
  have hsame := hread.symm.trans ((congrArg (read? · (childHop level child)) heq).trans hread')
  split_ifs at hsame with h₁ h₂ h₂
  · rw [h₁, h₂]
  · exact Value.list.inj (Option.some.inj hsame)

/-- What stays of a pruned list. -/
theorem mem_pruneList_map {α : Type*} {xs : List α} {f : α → Value} {v : Value} :
    v ∈ pruneList (xs.map f) ↔ v ≠ .dict [] ∧ ∃ x ∈ xs, prune (f x) = v := by
  induction xs with
  | nil => simp [pruneList]
  | cons x xs ih =>
    rw [List.map_cons, pruneList]
    split_ifs with hx
    · rw [ih]
      constructor
      · rintro ⟨hv, y, hy, rfl⟩
        exact ⟨hv, y, List.mem_cons_of_mem _ hy, rfl⟩
      · rintro ⟨hv, y, hy, rfl⟩
        rcases List.mem_cons.mp hy with rfl | hy
        · exact absurd hx hv
        · exact ⟨hv, y, hy, rfl⟩
    · rw [List.mem_cons, ih]
      constructor
      · rintro (rfl | ⟨hv, y, hy, rfl⟩)
        · exact ⟨hx, x, List.mem_cons_self, rfl⟩
        · exact ⟨hv, y, List.mem_cons_of_mem _ hy, rfl⟩
      · rintro ⟨hv, y, hy, rfl⟩
        rcases List.mem_cons.mp hy with rfl | hy
        · exact .inl rfl
        · exact .inr ⟨hv, y, hy, rfl⟩

/-- Where the pruned objects of two walks agree, so do those of each row: its own fields tell which
object is its. -/
theorem prune_objectOf_eq (a b : Assembly) (ha : ValidPorts a.ports) (hports : a.ports = b.ports)
    {level : Level} {scope : Row} {fuel : ℕ} {xs ys : List Row}
    (hxs : ∀ row ∈ xs, ScalarRow a.ports level row) (hys : ∀ row ∈ ys, ScalarRow a.ports level row)
    (heq : pruneList (xs.map (a.objectOf fuel level scope)) =
      pruneList (ys.map (b.objectOf fuel level scope)))
    {row : Row} (hrow : row ∈ ys)
    (hshown : row ∈ xs ∨ prune (b.objectOf fuel level scope row) ≠ .dict []) :
    prune (a.objectOf fuel level scope row) = prune (b.objectOf fuel level scope row) := by
  by_cases hhidden : prune (b.objectOf fuel level scope row) = .dict []
  · by_contra hne
    -- the first walk's object stays, so it is that of a row of the second
    have hmem := mem_pruneList_map.mpr ⟨fun hempty => hne (hempty.trans hhidden.symm), row,
      hshown.resolve_right (not_not_intro hhidden), rfl⟩
    rw [heq] at hmem
    obtain ⟨-, other, hother, hsame⟩ := mem_pruneList_map.mp hmem
    have hown := ownValues_eq_of_prune b a (hports ▸ ha) hports.symm (hports ▸ hys other hother)
      (hports ▸ hys row hrow) hsame
    rw [objectOf_congr b hown] at hsame
    exact hne hsame.symm
  · have hmem := mem_pruneList_map.mpr ⟨hhidden, row, hrow, rfl⟩
    rw [← heq] at hmem
    obtain ⟨-, other, hother, hsame⟩ := mem_pruneList_map.mp hmem
    have hown := ownValues_eq_of_prune a b ha hports (hxs other hother) (hys row hrow) hsame
    rw [← hsame, objectOf_congr a hown]

section Necessary

variable (hkey : ∀ v w, v ≠ .none → identity v = identity w → lib.keyEq v w = true)
  (h : ValidPorts (portsOf fields))
  (hnull : ∀ f ∈ fields, ∀ row ∈ f.2.2.rows, ∀ key ∈ nonnullKeys (portsOf fields) f.2.1,
    row.get key ≠ .none)
  (hvisible : Visible (fullAssembly fields topLevelPerRow))

include hvisible

/-- The rows of an object in the full assembly hold scalars. -/
theorem scalarRow_full {level : Level} {scope row : Row}
    (hrow : row ∈ (fullAssembly fields topLevelPerRow).objectRows level scope) :
    ScalarRow (portsOf fields) level row :=
  hvisible.scalars _ _ (Assembly.mem_levelRows_of_mem_objectRows _ hrow).1

include h

/-- The rows of an object in the limited assembly hold scalars. -/
theorem scalarRow_reached {level : Level} {scope row : Row}
    (hrow : row ∈ (reachedAssembly lib fields n topLevelPerRow).objectRows level scope) :
    ScalarRow (portsOf fields) level row :=
  hvisible.scalars _ _
    (levelRows_limited_subset h (Assembly.mem_levelRows_of_mem_objectRows _ hrow).1)

include hkey hnull

/-- Below the kept roots, documents that agree agree level by level. -/
theorem pruneList_build_eq {f : Field} (hf : f ∈ fields) (hroot : emitPrefix f.2.1 = [])
    (hdocument : (reachedAssembly lib fields n topLevelPerRow).document
      = (fullAssembly fields topLevelPerRow).firstObjects n) {level : Level} {scope : Row}
    (hscope : (fullAssembly fields topLevelPerRow).InScope
      ((fullAssembly fields topLevelPerRow).keptRoots n) level scope) :
    (level ≠ [] ∧ AboveKept fields (reachedAssembly lib fields n topLevelPerRow) level scope) ∧
    level.length < treeFuel (portsOf fields) ∧ ∃ fuel, treeFuel (portsOf fields) ≤
      fuel + level.length ∧
      pruneList ((reachedAssembly lib fields n topLevelPerRow).build fuel level scope)
        = pruneList ((fullAssembly fields topLevelPerRow).build fuel level scope) := by
  induction hscope with
  | @underRoot row child hrow hchild =>
    have hlen := Assembly.length_lt_of_mem_childrenOf hchild
    refine ⟨⟨(mem_childrenOf.mp hchild).2.1,
        aboveKept_root h hchild (mem_levelRows_of_mem_keptRoots h hrow)⟩,
      Assembly.length_lt_treeFuel (mem_childrenOf.mp hchild).1, treeFuel (portsOf fields) - 1, by
        omega, ?_⟩
    have hroots : ∀ row ∈ (fullAssembly fields topLevelPerRow).keptRoots n,
        ScalarRow (portsOf fields) [] row := fun row hrow =>
      scalarRow_full hvisible
        ((List.take_sublist _ _).subset ((take_objectRows_root _ n).symm ▸ hrow))
    rw [document_limited_eq h hf hroot, firstObjects_eq] at hdocument
    exact pruneList_build_eq_of_prune (reachedAssembly lib fields n topLevelPerRow)
      (fullAssembly fields topLevelPerRow) h rfl hchild
      (prune_objectOf_eq (reachedAssembly lib fields n topLevelPerRow)
        (fullAssembly fields topLevelPerRow)
        h rfl hroots hroots hdocument hrow (.inl hrow))
  | @underObject level child scope row hscope hrow hchild ih =>
    obtain ⟨⟨hne, habove⟩, hlevel, fuel, hfuel, heq⟩ := ih
    obtain ⟨fuel, rfl⟩ : ∃ k, fuel = k + 1 := ⟨fuel - 1, by omega⟩
    have hlen := Assembly.length_lt_of_mem_childrenOf hchild
    have hemits : (∃ f ∈ fields, emitPrefix f.2.1 = level) →
        row ∈ (reachedAssembly lib fields n topLevelPerRow).objectRows level scope := by
      rintro ⟨f, hf, rfl⟩
      rw [objectRows_of_emits hkey h hnull hf hne habove]
      exact hrow
    refine ⟨⟨(mem_childrenOf.mp hchild).2.1, habove.child h (fun he =>
        (Assembly.mem_levelRows_of_mem_objectRows _ (hemits he)).1) hchild _ rfl⟩,
      Assembly.length_lt_treeFuel (mem_childrenOf.mp hchild).1, fuel, by omega, ?_⟩
    rw [Assembly.build_succ, Assembly.build_succ] at heq
    have hshown : row ∈ (reachedAssembly lib fields n topLevelPerRow).objectRows level scope ∨
        prune ((fullAssembly fields topLevelPerRow).objectOf fuel level scope row) ≠ .dict [] := by
      by_cases he : ∃ f ∈ fields, emitPrefix f.2.1 = level
      · exact .inl (hemits he)
      · push Not at he
        exact .inr (prune_objectOf_ne _ h (scalarRow_full hvisible hrow)
          (hvisible.valued _ (portAt?_eq_none_iff.mpr he) _
            (Assembly.mem_levelRows_of_mem_objectRows _ hrow).1) fuel scope)
    have hsame := prune_objectOf_eq (reachedAssembly lib fields n topLevelPerRow)
      (fullAssembly fields topLevelPerRow) h rfl (fun _ => scalarRow_reached h hvisible)
      (fun _ => scalarRow_full hvisible) heq hrow hshown
    exact pruneList_build_eq_of_prune (reachedAssembly lib fields n topLevelPerRow)
      (fullAssembly fields topLevelPerRow) h rfl hchild hsame

/-- **The condition is necessary**, where no object of a synthesised level prunes away. -/
theorem limitKeeps_of_document_limited {f : Field} (hf : f ∈ fields)
    (hroot : emitPrefix f.2.1 = [])
    (hdocument : (reachedAssembly lib fields n topLevelPerRow).document
      = (fullAssembly fields topLevelPerRow).firstObjects n) :
    LimitKeeps lib fields n topLevelPerRow := by
  intro level scope hscope hnone
  obtain ⟨-, hlevel, fuel, hfuel, heq⟩ :=
    pruneList_build_eq hkey h hnull hvisible hf hroot hdocument hscope
  obtain ⟨fuel, rfl⟩ : ∃ k, fuel = k + 1 := ⟨fuel - 1, by omega⟩
  have hfull : ∀ row ∈ (fullAssembly fields topLevelPerRow).objectRows level scope,
      prune ((fullAssembly fields topLevelPerRow).objectOf fuel level scope row) ≠ .dict [] :=
        fun row hrow =>
    prune_objectOf_ne _ h (scalarRow_full hvisible hrow)
      (hvisible.valued _ hnone _ (Assembly.mem_levelRows_of_mem_objectRows _ hrow).1) fuel scope
  have hreached : ∀ row ∈ (reachedAssembly lib fields n topLevelPerRow).objectRows level scope,
      prune ((reachedAssembly lib fields n topLevelPerRow).objectOf fuel level scope row) ≠
        .dict [] :=
    fun row hrow => prune_objectOf_ne (reachedAssembly lib fields n topLevelPerRow) h
      (scalarRow_reached h hvisible hrow)
      (hvisible.valued _ hnone _
        (levelRows_limited_subset h (Assembly.mem_levelRows_of_mem_objectRows _ hrow).1)) fuel scope
  -- every object shows, so the lists agree object by object
  rw [Assembly.build_succ, Assembly.build_succ, pruneList_eq_map (by simpa using hreached),
    pruneList_eq_map (by simpa using hfull), List.map_map, List.map_map] at heq
  refine map_eq_map_of_image heq fun row hrow other hother hsame => ?_
  exact ownValues_eq_of_prune (reachedAssembly lib fields n topLevelPerRow)
    (fullAssembly fields topLevelPerRow) h rfl (scalarRow_reached h hvisible hrow)
    (scalarRow_full hvisible hother) hsame

end Necessary

/-! ### The limited document -/

/-- **A row limit gives the first objects, exactly when no synthesised level loses one.** With a
synthesised root the limited assembly is the unlimited document. With a frame that emits the
root, it raises exactly where the frame library refuses the keys of a level; and where that takes
them, it is the unlimited document's objects begun by the first `n` root rows whenever
`LimitKeeps` holds, and, if no object of a synthesised level prunes away, only then. -/
theorem limited_document
    (hkey : ∀ v w, v ≠ .none → identity v = identity w → lib.keyEq v w = true)
    {frames : List (String × Frame)} {mapping : List MappingEntry} {document : List Value}
    (hdocument : assembleOutputFromMapping lib frames mapping none topLevelPerRow = .ok document)
    (n : ℕ) :
    ∃ fields, MappedFields frames mapping fields ∧
      (fullAssembly fields topLevelPerRow).document = document ∧
      (emitsRoot (portsOf fields) = false →
        assembleOutputFromMapping lib frames mapping (some n) topLevelPerRow = .ok document) ∧
      (emitsRoot (portsOf fields) = true →
        ((∃ limited, assembleOutputFromMapping lib frames mapping (some n) topLevelPerRow
          = .ok limited) ↔ ∀ f ∈ fields, KeysTaken lib fields n f) ∧
        ((∀ f ∈ fields, KeysTaken lib fields n f) ∧ LimitKeeps lib fields n topLevelPerRow →
          assembleOutputFromMapping lib frames mapping (some n) topLevelPerRow
            = .ok ((fullAssembly fields topLevelPerRow).firstObjects n)) ∧
        (Visible (fullAssembly fields topLevelPerRow) →
          (assembleOutputFromMapping lib frames mapping (some n) topLevelPerRow
              = .ok ((fullAssembly fields topLevelPerRow).firstObjects n) ↔
            (∀ f ∈ fields, KeysTaken lib fields n f) ∧
              LimitKeeps lib fields n topLevelPerRow))) := by
  obtain ⟨fields, hmapped, collected, hcollected, hfull⟩ :=
    assembleOutputFromMapping_eq_ok_iff.mp hdocument
  have hvalid := hmapped.validPorts
  have hcollect := hcollected
  rw [ite_self, collectLevels_none] at hcollect
  obtain ⟨rfl, hnull⟩ := hcollect
  rw [List.nil_append, rowsByPrefix_collectOrder] at hfull
  -- the limit counts objects of the root, and is not given to a mapping without one
  refine ⟨fields, hmapped, hfull, fun hroot => ?_, fun hroot => ?_⟩
  · refine assembleOutputFromMapping_eq_ok_iff.mpr ⟨fields, hmapped,
      (collectOrder fields).map fun f => (emitPrefix f.2.1, f.2.2), ?_, ?_⟩
    · rw [hroot]
      exact collectLevels_none.mpr ⟨rfl, hnull⟩
    · rw [rowsByPrefix_collectOrder, hfull]
  obtain ⟨p, hp, hlevel⟩ := List.any_eq_true.mp hroot
  obtain ⟨f, hf, rfl⟩ := List.mem_map.mp hp
  have hlevel : emitPrefix f.2.1 = [] := by simpa using hlevel
  have hcollect {out : List (Level × Frame)} :
      collectLevels lib (portsOf fields) (some n) [] (collectOrder fields) = .ok out ↔
        (∀ f ∈ collectOrder fields, KeysTaken lib fields n f) ∧
          out = (collectOrder fields).map fun g =>
            (emitPrefix g.2.1, reachedFrame lib fields n g) :=
    @collectLevels_limited lib fields n [] _ hvalid rfl hnull out
  have hlimited : ∀ limited, assembleOutputFromMapping lib frames mapping (some n) topLevelPerRow
      = .ok limited ↔ (∀ f ∈ fields, KeysTaken lib fields n f) ∧
        (reachedAssembly lib fields n topLevelPerRow).document = limited := by
    intro limited
    rw [assembleOutputFromMapping_of_mapped hmapped, hroot, if_pos rfl, bind_eq_ok_iff]
    simp only [hcollect, mem_collectOrder]
    constructor
    · rintro ⟨_, ⟨htaken, rfl⟩, heq⟩
      rw [rowsByPrefix_reached] at heq
      exact ⟨htaken, Except.ok.inj heq⟩
    · rintro ⟨htaken, rfl⟩
      refine ⟨_, ⟨htaken, rfl⟩, ?_⟩
      rw [rowsByPrefix_reached]
      rfl
  have hnull : ∀ f ∈ fields, ∀ row ∈ f.2.2.rows, ∀ key ∈ nonnullKeys (portsOf fields) f.2.1,
      row.get key ≠ .none := fun f hf => hnull f (mem_collectOrder.mpr hf)
  have henough :=
    @document_limited_of_limitKeeps lib fields n topLevelPerRow hkey hvalid hnull _ hf hlevel
  simp only [hlimited]
  refine ⟨⟨fun ⟨_, htaken, _⟩ => htaken, fun htaken => ⟨_, htaken, rfl⟩⟩,
    fun ⟨htaken, hkeeps⟩ => ⟨htaken, henough hkeeps⟩, fun hvisible => and_congr_right fun _ => ?_⟩
  exact ⟨limitKeeps_of_document_limited hkey hvalid hnull hvisible hf hlevel, henough⟩

end Collected

/-- The policies' document, limited to its first root row: the keys are taken. -/
theorem limited_document_policies :
    ∃ fields, MappedFields policyFrames policyMapping fields ∧
      (fullAssembly fields false).document = policyDocument ∧
      (emitsRoot (portsOf fields) = true →
        (∀ f ∈ fields, KeysTaken typedKeys fields 1 f) ∧
        (LimitKeeps typedKeys fields 1 false →
          assembleOutputFromMapping typedKeys policyFrames policyMapping (some 1) false
            = .ok ((fullAssembly fields false).firstObjects 1))) := by
  obtain ⟨fields, hfields, hfull, -, hlimited⟩ :=
    @limited_document typedKeys false (fun v w _ h => decide_eq_true h) policyFrames policyMapping
      policyDocument (by decide +kernel) 1
  refine ⟨fields, hfields, hfull, fun hroot => ?_⟩
  obtain ⟨hraises, henough, -⟩ := hlimited hroot
  have htaken := hraises.mp ⟨[.dict [("id", .int 1), ("holder", .dict [("name", .str "Ada")]),
    ("cover", .dict [("vehicles",
      .list [.dict [("reg", .str "AB1")], .dict [("reg", .str "AB2")]])])]], by decide +kernel⟩
  exact ⟨htaken, fun hkeeps => henough ⟨htaken, hkeeps⟩⟩

/-! ### A lost object -/

private theorem nodup_rootColumns : (Assoc.keys [("id", DType.scalar .int)]).Nodup :=
  List.nodup_singleton _

/-- One root with an object of level `a` that no frame emits. The frame at `a[:].b[:]` gives
`a` the key 10; the frame below it gives `a` the key 20, without a match in the frame
between. -/
def orphanFrames : List (String × Frame) :=
  [("roots", ⟨[("id", .scalar .int)], [[("id", .int 1)]], nodup_rootColumns, by decide⟩),
    ("bs", ⟨[("id", .scalar .int), ("k", .scalar .int), ("bk", .scalar .int)],
      [[("id", .int 1), ("k", .int 10), ("bk", .int 100)]], by decide, by decide⟩),
    ("ds", ⟨[("id", .scalar .int), ("k", .scalar .int), ("bk", .scalar .int), ("v", .scalar .int)],
      [[("id", .int 1), ("k", .int 20), ("bk", .int 200), ("v", .int 5)]],
      by decide, by decide⟩)]

def orphanMapping : List MappingEntry :=
  [⟨"roots", "id", "$[:].id", true⟩,
    ⟨"bs", "id", "$[:].id", true⟩, ⟨"bs", "k", "$[:].a[:].k", true⟩,
    ⟨"bs", "bk", "$[:].a[:].b[:].bk", true⟩,
    ⟨"ds", "id", "$[:].id", true⟩, ⟨"ds", "k", "$[:].a[:].k", true⟩,
    ⟨"ds", "bk", "$[:].a[:].b[:].bk", true⟩, ⟨"ds", "v", "$[:].a[:].b[:].d[:].v", true⟩]

/-- The one root row is among the first, and yet the limited document is not the unlimited
one: the object with the key 20 is gone. -/
theorem limited_document_loses_object :
    assembleOutputFromMapping typedKeys orphanFrames orphanMapping none false
      = .ok [.dict [("id", .int 1), ("a", .list
        [.dict [("k", .int 10), ("b", .list [.dict [("bk", .int 100)]])],
          .dict [("k", .int 20)]])]] ∧
    assembleOutputFromMapping typedKeys orphanFrames orphanMapping (some 1) false
      = .ok [.dict [("id", .int 1), ("a", .list
        [.dict [("k", .int 10), ("b", .list [.dict [("bk", .int 100)]])]])]] := by
  decide +kernel

end Haute
