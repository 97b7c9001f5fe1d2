import Haute.Output.Validated

/-!
# One object's writes

An object of the document is built by one write for each of its own leaves and one for
each child array. In a valid mapping the paths of these writes diverge pairwise: each of
them, and each place it steps through, is a location of the document, and a location holds
one kind. So no write overwrites another or steps through what another wrote, and at the
end every write is read back.
-/

namespace Haute

open NestedDict Grouping

variable {ports : PortPaths} {level : Level}

/-- Some path of the mapping makes the place `ks` below `level` this kind of place. -/
def Reaches (ports : PortPaths) (level : Level) (ks : List String) (kind : PlaceKind) : Prop :=
  ∃ p ∈ ports, ∃ path ∈ p.2, ∃ pre, level ++ pre <+: path.segments ∧ pre.map Seg.name = ks ∧
    kindAt path.segments (level ++ pre) = kind

/-- A place is one kind. -/
theorem Reaches.unique (h : ValidPorts ports) {ks : List String} (hne : ks ≠ [])
    {kind kind' : PlaceKind} (hk : Reaches ports level ks kind)
    (hk' : Reaches ports level ks kind') : kind = kind' := by
  obtain ⟨p, hp, path, hpath, pre, hpre, hnames, rfl⟩ := hk
  obtain ⟨q, hq, other, hother, pre', hpre', hnames', rfl⟩ := hk'
  have hpre_ne : pre ≠ [] := by
    rintro rfl
    exact hne hnames.symm
  refine kindAt_eq_of_locationConflict h.locations hp hq hpath hother hpre hpre' (by simp [hpre_ne])
    ?_
  rw [List.map_append, List.map_append, hnames, hnames']

/-- A proper prefix that ends at an object hop is an object. -/
private theorem kindAt_object {segments pre : List Seg} (hlen : pre.length < segments.length)
    {seg : Seg} (hlast : pre.getLast? = some seg) (hseg : seg.isArray = false) :
    kindAt segments pre = .object := by
  rw [kindAt, if_neg hlen.ne, hlast, Option.map_some, if_neg (by simp [hseg])]

private theorem map_name_objectHops (keys : List String) :
    (objectHops keys).map Seg.name = keys := by
  simp [objectHops, Function.comp_def]

/-- A place stepped through by object hops on the way to a longer path is an object. -/
private theorem reaches_object {p : String × List ParsedPath} (hp : p ∈ ports)
    {path : ParsedPath} (hpath : path ∈ p.2) {keys js : List String} (hjs : js <+: keys)
    (hne : js ≠ []) (hpre : level ++ objectHops keys <+: path.segments)
    (hlen : (level ++ objectHops js).length < path.segments.length) :
    Reaches ports level js .object := by
  refine ⟨p, hp, path, hpath, objectHops js, ?_, map_name_objectHops js, ?_⟩
  · obtain ⟨rest, rfl⟩ := hjs
    rw [objectHops, List.map_append, ← List.append_assoc] at hpre
    exact (List.prefix_append _ _).trans hpre
  · obtain ⟨init, last, rfl⟩ : ∃ init last, js = init ++ [last] :=
      ⟨js.dropLast, js.getLast hne, (List.dropLast_concat_getLast hne).symm⟩
    have hlast : (level ++ objectHops (init ++ [last])).getLast? = some ⟨last, false⟩ := by
      simp [objectHops]
    exact kindAt_object hlen hlast rfl

theorem mem_ownPaths {path : ParsedPath} (h : path ∈ ownPaths ports level) :
    path.level = level ∧ ∃ p ∈ ports, path ∈ p.2 := by
  obtain ⟨hmem, hlevel⟩ := List.mem_filter.mp h
  obtain ⟨p, hp, hpath⟩ := List.mem_flatMap.mp ((firstsBy_sublist _ _).subset hmem)
  exact ⟨by simpa using hlevel, p, hp, hpath⟩

/-- A leaf is a field, and the places on its way objects. -/
theorem reaches_ownPath {path : ParsedPath}
    (hpath : path ∈ ownPaths ports level) {js : List String} (hjs : js <+: path.ownSubpath)
    (hne : js ≠ []) :
    Reaches ports level js (if js = path.ownSubpath then .field else .object) := by
  obtain ⟨rfl, p, hp, hmem⟩ := mem_ownPaths hpath
  have hsplit := path.level_append_ownSubpath
  split_ifs with heq
  · subst heq
    refine ⟨p, hp, path, hmem, objectHops path.ownSubpath, ?_, map_name_objectHops _, ?_⟩
    · rw [hsplit]
    · rw [hsplit, kindAt, if_pos rfl]
  · refine reaches_object hp hmem hjs hne (by rw [hsplit]) ?_
    have hlt : js.length < path.ownSubpath.length :=
      lt_of_le_of_ne hjs.length_le fun hl => heq (hjs.eq_of_length hl)
    have hlen := congrArg List.length hsplit
    simp only [List.length_append, objectHops, List.length_map] at hlen ⊢
    omega

/-- A child level is its parent, then its hop's objects, then its own array. -/
theorem eq_append_childHop {child : Level} (h : child ∈ childrenOf ports level) :
    ∃ (keys : List String) (key : String), childHop level child = keys ++ [key] ∧
      child = level ++ objectHops keys ++ [⟨key, true⟩] := by
  obtain ⟨hmem, hroot, hparent⟩ := mem_childrenOf.mp h
  obtain ⟨keys, key, heq⟩ := eq_parentLevel_append (mem_levelsOf.mp hmem).1 hroot
  rw [hparent] at heq
  refine ⟨keys, key, ?_, heq⟩
  rw [childHop, heq, List.append_assoc, List.drop_left, List.map_append, map_name_objectHops]
  rfl

/-- A child level's place is an array, and the places on its way objects. -/
theorem reaches_child (h : ValidPorts ports) {child : Level}
    (hchild : child ∈ childrenOf ports level)
    {js : List String} (hjs : js <+: childHop level child) (hne : js ≠ []) :
    Reaches ports level js (if js = childHop level child then .array else .object) := by
  obtain ⟨keys, key, hhop, heq⟩ := eq_append_childHop hchild
  obtain ⟨-, p, hp, hpre⟩ := mem_levelsOf.mp (mem_childrenOf.mp hchild).1
  obtain ⟨path, hpath, hlevel⟩ := exists_level_eq_emitPrefix (h.paths_ne_nil p hp)
  have hpre' : child <+: path.level := hlevel ▸ hpre
  have hsegs : child <+: path.segments := hpre'.trans (arrayPrefix_isPrefix_of path.segments)
  have hlen : child.length < path.segments.length := by
    have hown := (h.isOutputPath p hp path hpath).ownSubpath_ne_nil
    have hlen := congrArg List.length path.level_append_ownSubpath
    have hpos := List.length_pos_iff.mpr hown
    have hle := hpre'.length_le
    simp only [List.length_append, objectHops, List.length_map] at hlen
    omega
  split_ifs with hj
  · refine ⟨p, hp, path, hpath, objectHops keys ++ [⟨key, true⟩], ?_, ?_, ?_⟩
    · rw [← List.append_assoc, ← heq]
      exact hsegs
    · rw [hj, hhop, List.map_append, map_name_objectHops]
      rfl
    · rw [← List.append_assoc, ← heq, kindAt, if_neg hlen.ne, heq]
      simp
  · have hkeys : js <+: keys := by
      rw [hhop, List.prefix_concat_iff] at hjs
      exact hjs.resolve_left fun e => hj (by rw [e, hhop])
    have hchildlen := congrArg List.length heq
    have hle := hkeys.length_le
    refine reaches_object hp hpath hkeys hne ?_ ?_
    · refine List.IsPrefix.trans ?_ hsegs
      rw [heq]
      exact List.prefix_append _ _
    · simp only [List.length_append, objectHops, List.length_map, List.length_singleton]
        at hchildlen ⊢
      omega

/-! ### The writes diverge -/

theorem nodup_levelsOf (ports : PortPaths) : (levelsOf ports).Nodup := by
  have h := nodup_map_firstsBy (id : Level → Level)
    (ports.flatMap fun p => ancestorLevels (emitPrefix p.2))
  rwa [List.map_id] at h

theorem nodup_childrenOf (ports : PortPaths) (level : Level) : (childrenOf ports level).Nodup :=
  (List.perm_insertionSort _ _).nodup_iff.mpr ((nodup_levelsOf ports).filter _)

theorem childHop_ne_nil {child : Level} (h : child ∈ childrenOf ports level) :
    childHop level child ≠ [] := by
  obtain ⟨keys, key, hhop, -⟩ := eq_append_childHop h
  simp [hhop]

/-- A child level is told by its hop. -/
theorem childHop_injective {child child' : Level} (h : child ∈ childrenOf ports level)
    (h' : child' ∈ childrenOf ports level) (heq : childHop level child = childHop level child') :
    child = child' := by
  obtain ⟨keys, key, hhop, hc⟩ := eq_append_childHop h
  obtain ⟨keys', key', hhop', hc'⟩ := eq_append_childHop h'
  obtain ⟨rfl, hkey⟩ := List.append_inj' (hhop.symm.trans (heq.trans hhop')) rfl
  obtain rfl : key = key' := by simpa using hkey
  rw [hc, hc']

/-- Two different paths that end at no object diverge. -/
private theorem diverge_of_kinds (h : ValidPorts ports) {ks js : List String}
    {kind kind' : PlaceKind} (hks : ks ≠ []) (hjs : js ≠ []) (hdiff : ks ≠ js)
    (hk : ∀ is, is <+: ks → is ≠ [] → Reaches ports level is (if is = ks then kind else .object))
    (hj : ∀ is, is <+: js → is ≠ [] → Reaches ports level is (if is = js then kind' else .object))
    (hkind : kind ≠ .object) (hkind' : kind' ≠ .object) : Diverge ks js := by
  constructor
  · intro hpre
    have hclash := (hk ks List.prefix_rfl hks).unique h hks (hj ks hpre hks)
    rw [if_pos rfl, if_neg hdiff] at hclash
    exact hkind hclash
  · intro hpre
    have hclash := (hj js List.prefix_rfl hjs).unique h hjs (hk js hpre hjs)
    rw [if_pos rfl, if_neg hdiff.symm] at hclash
    exact hkind' hclash

theorem isOutputPath_of_mem_ownPaths (h : ValidPorts ports) {path : ParsedPath}
    (hpath : path ∈ ownPaths ports level) : IsOutputPath path := by
  obtain ⟨-, p, hp, hmem⟩ := mem_ownPaths hpath
  exact h.isOutputPath p hp path hmem

/-- Two different leaves of a level diverge. -/
theorem diverge_ownPaths (h : ValidPorts ports) {path other : ParsedPath}
    (hpath : path ∈ ownPaths ports level) (hother : other ∈ ownPaths ports level)
    (hne : path.raw ≠ other.raw) : Diverge path.ownSubpath other.ownSubpath := by
  have hout := isOutputPath_of_mem_ownPaths h hpath
  have hout' := isOutputPath_of_mem_ownPaths h hother
  have hdiff : path.ownSubpath ≠ other.ownSubpath := by
    intro heq
    refine hne (congrArg ParsedPath.raw (hout.eq_of_segments hout' ?_))
    rw [← path.level_append_ownSubpath, ← other.level_append_ownSubpath, (mem_ownPaths hpath).1,
      (mem_ownPaths hother).1, heq]
  exact diverge_of_kinds h hout.ownSubpath_ne_nil hout'.ownSubpath_ne_nil hdiff
    (fun _ => reaches_ownPath hpath) (fun _ => reaches_ownPath hother) (by decide) (by decide)

/-- A leaf and a child array of one level diverge. -/
theorem diverge_ownPath_child (h : ValidPorts ports) {path : ParsedPath}
    (hpath : path ∈ ownPaths ports level) {child : Level}
    (hchild : child ∈ childrenOf ports level) :
    Diverge path.ownSubpath (childHop level child) := by
  have hks := (isOutputPath_of_mem_ownPaths h hpath).ownSubpath_ne_nil
  have hjs := childHop_ne_nil hchild
  have hdiff : path.ownSubpath ≠ childHop level child := by
    intro heq
    have hkind := (reaches_ownPath hpath List.prefix_rfl hks).unique h hks
      (reaches_child h hchild (heq ▸ List.prefix_rfl) hks)
    rw [if_pos rfl, if_pos heq] at hkind
    exact absurd hkind (by decide)
  exact diverge_of_kinds h hks hjs hdiff (fun _ => reaches_ownPath hpath)
    (fun _ => reaches_child h hchild) (by decide) (by decide)

/-- Two different child arrays of one level diverge. -/
theorem diverge_children (h : ValidPorts ports) {child child' : Level}
    (hchild : child ∈ childrenOf ports level) (hchild' : child' ∈ childrenOf ports level)
    (hne : child ≠ child') : Diverge (childHop level child) (childHop level child') :=
  diverge_of_kinds h (childHop_ne_nil hchild) (childHop_ne_nil hchild')
    (fun heq => hne (childHop_injective hchild hchild' heq)) (fun _ => reaches_child h hchild)
    (fun _ => reaches_child h hchild') (by decide) (by decide)

/-- **The writes of one object diverge pairwise.** -/
theorem pairwise_objectWrites (h : ValidPorts ports) (row : Row) (kids : Level → List Value) :
    (objectWrites ports level row kids).Pairwise fun w u => Diverge w.1 u.1 := by
  rw [objectWrites, List.pairwise_append]
  refine ⟨?_, ?_, ?_⟩
  · rw [List.pairwise_map]
    have hraw : (ownPaths ports level).Pairwise fun path other => path.raw ≠ other.raw :=
      (pairwise_firstsBy ParsedPath.raw (ports.flatMap Prod.snd)).filter _
    exact hraw.imp_of_mem fun hpath hother hne => diverge_ownPaths h hpath hother hne
  · rw [List.pairwise_map]
    refine ((nodup_childrenOf ports level).filter _).imp_of_mem fun hc hc' hne => ?_
    exact diverge_children h (List.mem_of_mem_filter hc) (List.mem_of_mem_filter hc') hne
  · intro w hw u hu
    obtain ⟨path, hpath, rfl⟩ := List.mem_map.mp hw
    obtain ⟨child, hchild, rfl⟩ := List.mem_map.mp hu
    exact diverge_ownPath_child h hpath (List.mem_of_mem_filter hchild)

theorem objectWrites_ne_nil (h : ValidPorts ports) (row : Row) (kids : Level → List Value) :
    ∀ w ∈ objectWrites ports level row kids, w.1 ≠ [] := by
  intro w hw
  rcases List.mem_append.mp hw with hw | hw
  · obtain ⟨path, hpath, rfl⟩ := List.mem_map.mp hw
    exact (isOutputPath_of_mem_ownPaths h hpath).ownSubpath_ne_nil
  · obtain ⟨child, hchild, rfl⟩ := List.mem_map.mp hw
    exact childHop_ne_nil (List.mem_of_mem_filter hchild)

/-- The writes read the child arrays of the level's children alone. -/
theorem objectWrites_congr {row : Row} {kids kids' : Level → List Value}
    (h : ∀ child ∈ childrenOf ports level, kids child = kids' child) :
    objectWrites ports level row kids = objectWrites ports level row kids' := by
  rw [objectWrites, objectWrites, List.filter_congr fun child hchild => by rw [h child hchild]]
  refine congrArg _ (List.map_congr_left fun child hchild => ?_)
  rw [h child (List.mem_of_mem_filter hchild)]

/-! ### What the writes keep -/

theorem leaf_mem_objectWrites {path : ParsedPath} (hpath : path ∈ ownPaths ports level) (row : Row)
    (kids : Level → List Value) :
    (path.ownSubpath, row.get path.raw) ∈ objectWrites ports level row kids :=
  List.mem_append_left _
    (List.mem_map_of_mem (f := fun path : ParsedPath => (path.ownSubpath, row.get path.raw)) hpath)

theorem child_mem_objectWrites {child : Level} (hchild : child ∈ childrenOf ports level) (row : Row)
    {kids : Level → List Value} (hkids : kids child ≠ []) :
    (childHop level child, Value.list (kids child)) ∈ objectWrites ports level row kids := by
  have hmem : child ∈ (childrenOf ports level).filter fun child => !(kids child).isEmpty :=
    List.mem_filter.mpr ⟨hchild, by simpa using hkids⟩
  exact List.mem_append_right _
    (List.mem_map_of_mem (f := fun child => (childHop level child, Value.list (kids child))) hmem)

/-- **A validated mapping never loses a value.** Each write of an object finds nothing at its
own path, and steps only through objects that no earlier write put there as its value; and
when all are made every leaf, null or not, and every child array stands at its path. -/
theorem objectWrites_lose_nothing {mapping : List MappingEntry}
    (h : validateV2OutputMapping mapping = .ok ()) {ports : PortPaths}
    (hports : mappingPorts mapping = .ok ports) (level : Level) (row : Row)
    (kids : Level → List Value) :
    (∀ before write after, objectWrites ports level row kids = before ++ write :: after →
      read? (Value.dict (writeAll before)) write.1 = none ∧
      ∀ place v, place <+: write.1 → read? (Value.dict (writeAll before)) place = some v →
        (∃ fields, v = .dict fields) ∧ ∀ earlier ∈ before, ¬ earlier.1 <+: place) ∧
    (∀ path ∈ ownPaths ports level,
      read? (Value.dict (writeAll (objectWrites ports level row kids))) path.ownSubpath
        = some (row.get path.raw)) ∧
    ∀ child ∈ childrenOf ports level, kids child ≠ [] →
      read? (Value.dict (writeAll (objectWrites ports level row kids))) (childHop level child)
        = some (.list (kids child)) := by
  have hvalid := validPorts_of_validate h hports
  have hne := @objectWrites_ne_nil ports level hvalid row kids
  have hdiv := @pairwise_objectWrites ports level hvalid row kids
  refine ⟨fun before write after hsplit => ?_, fun path hpath => ?_, fun child hchild hkids => ?_⟩
  · rw [hsplit] at hne hdiv
    have hbefore : ∀ w ∈ before, Diverge w.1 write.1 := fun w hw =>
      (List.pairwise_append.mp hdiv).2.2 w hw write List.mem_cons_self
    refine ⟨read?_writeAll_of_diverge (hne write (by simp)) hbefore, fun place v hplace hv => ?_⟩
    have hnot : ∀ earlier ∈ before, ¬ earlier.1 <+: place := fun earlier hearlier hp =>
      (hbefore earlier hearlier).1 (hp.trans hplace)
    exact ⟨read?_writeAll_of_apart hnot hv, hnot⟩
  · exact read?_writeAll hne hdiv (leaf_mem_objectWrites hpath row kids)
  · exact read?_writeAll hne hdiv (child_mem_objectWrites hchild row hkids)

/-- A policy with a nested leaf and two child arrays, one of them below an object hop. -/
theorem objectWrites_lose_nothing_policy :
    ∃ ports, mappingPorts
        [⟨"policies", "id", "$[:].id", true⟩, ⟨"policies", "name", "$[:].holder.name", true⟩,
          ⟨"drivers", "id", "$[:].id", true⟩, ⟨"drivers", "age", "$[:].drivers[:].age", true⟩,
          ⟨"vehicles", "id", "$[:].id", true⟩,
          ⟨"vehicles", "reg", "$[:].cover.vehicles[:].reg", true⟩] = .ok ports ∧
      ∀ path ∈ ownPaths ports [],
        read? (Value.dict (writeAll (objectWrites ports []
          [("$[:].id", .int 1), ("$[:].holder.name", .str "Ada")] fun _ => [.dict []])))
            path.ownSubpath
          = some (Row.get [("$[:].id", .int 1), ("$[:].holder.name", .str "Ada")] path.raw) :=
  ⟨_, by rfl, (@objectWrites_lose_nothing
    [⟨"policies", "id", "$[:].id", true⟩, ⟨"policies", "name", "$[:].holder.name", true⟩,
      ⟨"drivers", "id", "$[:].id", true⟩, ⟨"drivers", "age", "$[:].drivers[:].age", true⟩,
      ⟨"vehicles", "id", "$[:].id", true⟩,
      ⟨"vehicles", "reg", "$[:].cover.vehicles[:].reg", true⟩] (by decide +kernel) _ (by rfl)
    [] _ _).2.1⟩

end Haute
