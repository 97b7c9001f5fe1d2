import Haute.Output.Assemble

/-!
# What the structural check gives

`ValidPorts` collects what the assembler relies on in a mapping the validator accepted:
every path is spelled in the grammar and ends at a field, one location of the document
holds one kind, a frame's paths sit on the branch of its emitting level, no two frames
emit at one level, and every frame that takes part in a nesting carries its keys.
`validPorts_of_validate` proves it of every accepted mapping, and
`assembleOutputFromMapping_eq_ok` opens a successful assembly into the walk of a valid
array-prefix tree.
-/

namespace Haute

open NestedDict Grouping

/-! ### Output paths -/

/-- A path as the output grammar reads it. -/
def IsOutputPath (path : ParsedPath) : Prop := parseOutputPath path.raw = .ok path

theorem isOutputPath_of_parse {raw : String} {path : ParsedPath}
    (h : parseOutputPath raw = .ok path) : path.raw = raw ∧ IsOutputPath path := by
  obtain ⟨parsed, hparse, h'⟩ := bind_eq_ok_iff.mp h
  obtain ⟨-, -, hpure⟩ := bind_eq_ok_iff.mp h'
  obtain rfl : parsed = path := by simpa [pure, Except.pure] using hpure
  have hraw := (makeOutputPath_of_parsePath hparse).1
  exact ⟨hraw, by rw [IsOutputPath, hraw, h]⟩

namespace IsOutputPath

variable {path other : ParsedPath}

theorem makeOutputPath_segments (h : IsOutputPath path) :
    makeOutputPath path.segments = path.raw := by
  obtain ⟨parsed, hparse, h'⟩ := bind_eq_ok_iff.mp h
  obtain ⟨-, -, hpure⟩ := bind_eq_ok_iff.mp h'
  obtain rfl : parsed = path := by simpa [pure, Except.pure] using hpure
  exact (makeOutputPath_of_parsePath hparse).2.1

/-- A path is its segments. -/
theorem eq_of_segments (h : IsOutputPath path) (h' : IsOutputPath other)
    (hs : path.segments = other.segments) : path = other := by
  have hraw : path.raw = other.raw := by
    rw [← h.makeOutputPath_segments, ← h'.makeOutputPath_segments, hs]
  have := h.symm.trans ((congrArg parseOutputPath hraw).trans h')
  exact Except.ok.inj this

/-- A path is its text. -/
theorem eq_of_raw (h : IsOutputPath path) (h' : IsOutputPath other)
    (hraw : path.raw = other.raw) : path = other :=
  Except.ok.inj (h.symm.trans ((congrArg parseOutputPath hraw).trans h'))

/-- A path ends at a field of its level. -/
theorem ownSubpath_ne_nil (h : IsOutputPath path) : path.ownSubpath ≠ [] := by
  obtain ⟨parsed, hparse, h'⟩ := bind_eq_ok_iff.mp h
  obtain ⟨⟨⟩, hreq, hpure⟩ := bind_eq_ok_iff.mp h'
  obtain rfl : parsed = path := by simpa [pure, Except.pure] using hpure
  have hlast : parsed.segments.getLast?.map Seg.isArray ≠ some true := by simpa using hreq
  have hne : parsed.segments ≠ [] := by
    rw [parsePath] at hparse
    split_ifs at hparse
    obtain ⟨segments, -, hsegs⟩ := bind_eq_ok_iff.mp hparse
    split_ifs at hsegs with hempty
    have hseg := congrArg ParsedPath.segments (Except.ok.inj hsegs)
    rw [← hseg]
    simpa using hempty
  intro hown
  have hlevel : arrayPrefix parsed.segments = parsed.segments := by
    have := arrayPrefix_append_ownPart parsed.segments
    rwa [List.map_eq_nil_iff.mp hown, List.append_nil] at this
  have harray := isLevel_arrayPrefix parsed.segments
  rw [hlevel] at harray
  obtain ⟨seg, hseg⟩ := List.getLast?_isSome.mpr hne |> Option.isSome_iff_exists.mp
  exact hlast (by rw [hseg, Option.map_some, harray seg hseg])

end IsOutputPath

/-- A path is its level, then its own keys. -/
theorem ParsedPath.level_append_ownSubpath (path : ParsedPath) :
    path.level ++ objectHops path.ownSubpath = path.segments := by
  rw [ParsedPath.level, ParsedPath.ownSubpath, objectHops_ownPart, arrayPrefix_append_ownPart]

/-! ### One kind per location -/

private theorem firstClash_eq_none {claimed : List (List String × Place)} {places : List Place}
    (h : firstClash claimed places = none) :
    (∀ place ∈ places, ∀ first, Assoc.get? claimed place.location = some first →
      first.kind = place.kind) ∧
    ∀ p ∈ places, ∀ q ∈ places, p.location = q.location → p.kind = q.kind := by
  induction places generalizing claimed with
  | nil => simp
  | cons place places ih =>
    rw [firstClash] at h
    split_ifs at h with hkind
    obtain ⟨hclaim, hpair⟩ := ih h
    have hhead : ∀ q ∈ places, place.location = q.location → place.kind = q.kind := by
      intro q hq hloc
      have := hclaim q hq ((Assoc.get? claimed place.location).getD place)
        (by rw [← hloc, Assoc.get?_upsert_self])
      rw [← hkind, this]
    refine ⟨fun p hp first hfirst => ?_, fun p hp q hq hloc => ?_⟩
    · rcases List.mem_cons.mp hp with rfl | hp
      · rw [hfirst, Option.getD_some] at hkind
        exact hkind
      · by_cases hl : p.location = place.location
        · have hg : (Assoc.get? claimed place.location).getD place = first := by
            rw [← hl, hfirst, Option.getD_some]
          rw [hg] at hkind
          rw [hkind, hhead p hp hl.symm]
        · exact hclaim p hp first (by rw [Assoc.get?_upsert_ne hl, hfirst])
    · rcases List.mem_cons.mp hp with rfl | hp'
      · rcases List.mem_cons.mp hq with rfl | hq'
        · rfl
        · exact hhead q hq' hloc
      · rcases List.mem_cons.mp hq with rfl | hq'
        · exact (hhead p hp' hloc.symm).symm
        · exact hpair p hp' q hq' hloc

private theorem mem_inits_tail {segments pre : List Seg} :
    pre ∈ segments.inits.tail ↔ pre <+: segments ∧ pre ≠ [] := by
  cases segments with
  | nil => simp +contextual [List.prefix_nil]
  | cons seg segments =>
    rw [List.inits_cons, List.tail_cons]
    cases pre with
    | nil => simp
    | cons s pre =>
      simp [List.cons_prefix_cons, eq_comm, and_comm]

/-- No location of the document is used as two kinds. -/
theorem kindAt_eq_of_locationConflict {ports : PortPaths} (h : locationConflict ports = none)
    {p q : String × List ParsedPath} (hp : p ∈ ports) (hq : q ∈ ports) {path other : ParsedPath}
    (hpath : path ∈ p.2) (hother : other ∈ q.2) {pre pre' : List Seg}
    (hpre : pre <+: path.segments) (hpre' : pre' <+: other.segments) (hne : pre ≠ [])
    (hnames : pre.map Seg.name = pre'.map Seg.name) :
    kindAt path.segments pre = kindAt other.segments pre' := by
  have hne' : pre' ≠ [] := by
    rintro rfl
    exact hne (List.map_eq_nil_iff.mp hnames)
  rw [locationConflict, Option.map_eq_none_iff] at h
  have hplace : ∀ {p : String × List ParsedPath}, p ∈ ports → ∀ {path : ParsedPath}, path ∈ p.2 →
      ∀ {pre : List Seg}, pre <+: path.segments → pre ≠ [] →
      ∃ place ∈ ports.flatMap fun p => p.2.flatMap (placesOf p.1),
        place.location = pre.map Seg.name ∧ place.kind = kindAt path.segments pre := by
    intro p hp path hpath pre hpre hne
    refine ⟨_, List.mem_flatMap.mpr ⟨p, hp, List.mem_flatMap.mpr ⟨path, hpath,
      List.mem_map_of_mem (mem_inits_tail.mpr ⟨hpre, hne⟩)⟩⟩, rfl, rfl⟩
  obtain ⟨a, ha, haloc, hakind⟩ := hplace hp hpath hpre hne
  obtain ⟨b, hb, hbloc, hbkind⟩ := hplace hq hother hpre' hne'
  rw [← hakind, ← hbkind]
  exact (firstClash_eq_none h).2 a ha b hb (by rw [haloc, hbloc, hnames])

/-! ### Emitting levels -/

theorem emitPath?_mem {paths : List ParsedPath} {path : ParsedPath}
    (h : emitPath? paths = some path) : path ∈ paths := List.argmax_mem h

theorem emitPath?_ne_none {paths : List ParsedPath} (hne : paths ≠ []) :
    ∃ path, emitPath? paths = some path := by
  rcases h : emitPath? paths with _ | path
  · exact absurd (List.argmax_eq_none.mp h) hne
  · exact ⟨path, rfl⟩

/-- A frame's emitting level is the level of one of its paths. -/
theorem exists_level_eq_emitPrefix {paths : List ParsedPath} (hne : paths ≠ []) :
    ∃ path ∈ paths, path.level = emitPrefix paths := by
  obtain ⟨path, hpath⟩ := emitPath?_ne_none hne
  exact ⟨path, emitPath?_mem hpath, by rw [emitPrefix, hpath]; rfl⟩

theorem isLevel_emitPrefix (paths : List ParsedPath) : IsLevel (emitPrefix paths) := by
  rw [emitPrefix]
  rcases emitPath? paths with _ | path
  · exact isLevel_nil
  · exact isLevel_arrayPrefix path.segments

theorem mem_levelsOf {ports : PortPaths} {level : Level} :
    level ∈ levelsOf ports ↔ IsLevel level ∧ ∃ p ∈ ports, level <+: emitPrefix p.2 := by
  have h := @mem_map_firstsBy _ _ _ id
    (ports.flatMap fun p => ancestorLevels (emitPrefix p.2)) level
  rw [List.map_id, List.map_id] at h
  rw [levelsOf, h, List.mem_flatMap]
  simp only [mem_ancestorLevels]
  constructor
  · rintro ⟨p, hp, hpre, hlevel⟩
    exact ⟨hlevel, p, hp, hpre⟩
  · rintro ⟨hlevel, p, hp, hpre⟩
    exact ⟨p, hp, hpre, hlevel⟩

theorem mem_childrenOf {ports : PortPaths} {level child : Level} :
    child ∈ childrenOf ports level ↔
      child ∈ levelsOf ports ∧ child ≠ [] ∧ parentLevel child = level := by
  simp [childrenOf]

private theorem pairwise_prefix_of_checkBranch {port : String} {paths : List ParsedPath}
    (hsorted : paths.Pairwise fun a b => a.level ≤ b.level)
    (h : checkBranch port paths = .ok ()) : paths.Pairwise fun a b => a.level <+: b.level := by
  induction paths with
  | nil => exact List.Pairwise.nil
  | cons a paths ih =>
    obtain ⟨ha, hrest⟩ := List.pairwise_cons.mp hsorted
    cases paths with
    | nil => exact List.pairwise_singleton _ _
    | cons b rest =>
      obtain ⟨⟨⟩, hreq, h⟩ := bind_eq_ok_iff.mp h
      have hcomp : b.level <+: a.level ∨ a.level <+: b.level := by simpa using hreq
      have hab := prefix_of_le (ha b List.mem_cons_self) hcomp
      have htail := ih hrest h
      refine List.pairwise_cons.mpr ⟨fun c hc => ?_, htail⟩
      rcases List.mem_cons.mp hc with rfl | hc
      · exact hab
      · exact hab.trans ((List.pairwise_cons.mp htail).1 c hc)

/-- One branch: the last path by level is below all others. -/
private theorem level_prefix_of_checkBranch {port : String} {paths : List ParsedPath}
    (h : checkBranch port (pathsByLevel paths) = .ok ()) {last : ParsedPath}
    (hlast : (pathsByLevel paths).getLast? = some last) :
    (∀ path ∈ paths, path.level <+: last.level) ∧ emitPrefix paths = last.level := by
  have hpair : (pathsByLevel paths).Pairwise fun a b => a.level <+: b.level :=
    pairwise_prefix_of_checkBranch (List.pairwise_insertionSort _ _) h
  have hmem : ∀ {path}, path ∈ pathsByLevel paths ↔ path ∈ paths := List.mem_insertionSort _
  obtain ⟨init, hinit⟩ := List.getLast?_eq_some_iff.mp hlast
  have hall : ∀ path ∈ paths, path.level <+: last.level := by
    intro path hpath
    have hpath' := hmem.mpr hpath
    rw [hinit] at hpath' hpair
    rcases List.mem_append.mp hpath' with hp | hp
    · exact (List.pairwise_append.mp hpair).2.2 path hp last (by simp)
    · rw [List.mem_singleton.mp hp]
  have hlastmem : last ∈ paths := hmem.mp (List.mem_of_getLast? hlast)
  refine ⟨hall, ?_⟩
  obtain ⟨deepest, hdeepest⟩ := emitPath?_ne_none (List.ne_nil_of_mem hlastmem)
  have hle : last.level.length ≤ deepest.level.length :=
    (List.argmax_eq_some_iff.mp hdeepest).2.1 last hlastmem
  rw [emitPrefix, hdeepest]
  exact (hall deepest (emitPath?_mem hdeepest)).eq_of_length_le hle

private theorem checkLevels_spec {emitting : List (Level × String × String)} {ports : PortPaths}
    (hne : ∀ p ∈ ports, p.2 ≠ []) (h : checkLevels emitting ports = .ok ()) :
    (∀ p ∈ ports, ∀ path ∈ p.2, path.level <+: emitPrefix p.2) ∧
    (∀ p ∈ ports, emitPrefix p.2 ∉ Assoc.keys emitting) ∧
    ports.Pairwise fun p q => emitPrefix p.2 ≠ emitPrefix q.2 := by
  induction ports generalizing emitting with
  | nil => simp
  | cons p ports ih =>
    obtain ⟨port, paths⟩ := p
    obtain ⟨⟨⟩, hbranch, h⟩ := bind_eq_ok_iff.mp h
    rcases hlast : (pathsByLevel paths).getLast? with _ | last
    · have hempty : paths.length = 0 := by
        rw [← List.length_insertionSort (fun a b : ParsedPath => a.level ≤ b.level)]
        exact List.length_eq_zero_iff.mpr (List.getLast?_eq_none_iff.mp hlast)
      exact absurd (List.length_eq_zero_iff.mp hempty) (hne _ List.mem_cons_self)
    · obtain ⟨hall, hemit⟩ := level_prefix_of_checkBranch hbranch hlast
      rw [hlast] at h
      simp only at h
      -- a level another port emits at is refused
      rcases hget : Assoc.get? emitting last.level with _ | other
      · rw [hget] at h
        obtain ⟨hpre, hnot, hpair⟩ := ih (fun q hq => hne q (List.mem_cons_of_mem _ hq)) h
        have hkeys : ∀ q ∈ ports, emitPrefix q.2 ≠ last.level ∧
            emitPrefix q.2 ∉ Assoc.keys emitting := by
          intro q hq
          have := hnot q hq
          rw [Assoc.set, Assoc.mem_keys_upsert, not_or] at this
          exact this
        refine ⟨List.forall_mem_cons.mpr ⟨fun path hpath => ?_, hpre⟩,
          List.forall_mem_cons.mpr ⟨?_, fun q hq => (hkeys q hq).2⟩,
          List.pairwise_cons.mpr ⟨fun q hq => ?_, hpair⟩⟩
        · rw [hemit]
          exact hall path hpath
        · rw [hemit]
          exact Assoc.get?_eq_none_iff.mp hget
        · rw [hemit]
          exact (hkeys q hq).1.symm
      · rw [hget] at h
        simp [throw, throwThe, MonadExceptOf.throw] at h

/-! ### Valid mappings -/

/-- What the structural check gives of a mapping's frames and their paths. -/
structure ValidPorts (ports : PortPaths) : Prop where
  nodup_ports : (ports.map Prod.fst).Nodup
  paths_ne_nil : ∀ p ∈ ports, p.2 ≠ []
  isOutputPath : ∀ p ∈ ports, ∀ path ∈ p.2, IsOutputPath path
  nodup_paths : ∀ p ∈ ports, (p.2.map ParsedPath.raw).Nodup
  locations : locationConflict ports = none
  branch : ∀ p ∈ ports, ∀ path ∈ p.2, path.level <+: emitPrefix p.2
  oneFrame : ports.Pairwise fun p q => emitPrefix p.2 ≠ emitPrefix q.2
  nestingKeys : ∀ child ∈ levelsOf ports, child ≠ [] → ∀ p ∈ ports,
    emitPrefix p.2 = parentLevel child ∨ child <+: emitPrefix p.2 →
    ∀ key ∈ relationKeys ports child, key ∈ p.2.map ParsedPath.raw

/-- Every participant of a nesting carries its keys when no error is found. -/
private theorem nestingKeys_of_nestingKeyError {ports : PortPaths} (hne : ∀ p ∈ ports, p.2 ≠ [])
    (h : nestingKeyError ports = none) {child : Level} (hchild : child ∈ levelsOf ports)
    (hroot : child ≠ []) {p : String × List ParsedPath} (hp : p ∈ ports)
    (hpart : emitPrefix p.2 = parentLevel child ∨ child <+: emitPrefix p.2) {key : String}
    (hkey : key ∈ relationKeys ports child) : key ∈ p.2.map ParsedPath.raw := by
  have hports : ports.filter (fun p => !p.2.isEmpty) = ports :=
    List.filter_eq_self.mpr fun p hp => by simpa using hne p hp
  rw [nestingKeyError, hports, List.findSome?_eq_none_iff] at h
  have hlevel := h child ((List.mem_insertionSort _).mpr hchild)
  rw [if_neg hroot, List.findSome?_eq_none_iff] at hlevel
  have hmem : p ∈ participants ports child := by
    rw [participants, List.mem_append, List.mem_insertionSort, subtreePorts]
    rcases hpart with hpart | hpart
    · exact Or.inl (List.mem_filter.mpr ⟨hp, by simpa using hpart⟩)
    · exact Or.inr (List.mem_filter.mpr ⟨hp, by simpa using hpart⟩)
  have hp' := hlevel p hmem
  rw [Option.map_eq_none_iff, List.head?_eq_none_iff] at hp'
  by_contra hnot
  have hmissing : key ∈ ((relationKeys ports child).filter fun key =>
      decide (key ∉ p.2.map ParsedPath.raw)).insertionSort (· ≤ ·) :=
    (List.mem_insertionSort _).mpr (List.mem_filter.mpr ⟨hkey, by simpa using hnot⟩)
  rw [hp'] at hmissing
  simp at hmissing

theorem raiseSome_eq_ok_iff {o : Option PyError} {u : Unit} : raiseSome o = .ok u ↔ o = none := by
  cases o <;> simp [raiseSome]

/-- Every parsed entry's path is its own output path. -/
theorem parseEntries_spec {mapping : List MappingEntry} {parsed : List (MappingEntry × ParsedPath)}
    (h : parseEntries mapping = .ok parsed) :
    ∀ e ∈ parsed, e.2.raw = e.1.outputPath ∧ IsOutputPath e.2 := by
  induction mapping generalizing parsed with
  | nil =>
    obtain rfl : [] = parsed := by simpa [parseEntries] using h
    simp
  | cons entry mapping ih =>
    rw [parseEntries] at h
    split_ifs at h
    · obtain ⟨path, hpath, h⟩ := bind_eq_ok_iff.mp h
      obtain ⟨rest, hrest, h⟩ := bind_eq_ok_iff.mp h
      obtain rfl : (entry, path) :: rest = parsed := by simpa [pure, Except.pure] using h
      exact List.forall_mem_cons.mpr ⟨isOutputPath_of_parse hpath, ih hrest⟩
    · exact ih h

/-- A frame's entries are the mapping's entries of its port; there is one at least. -/
theorem mem_entriesByPort {parsed : List (MappingEntry × ParsedPath)}
    {p : String × List (MappingEntry × ParsedPath)} (h : p ∈ entriesByPort parsed) :
    p.2 ≠ [] ∧ ∀ e ∈ p.2, e ∈ parsed ∧ e.1.sourcePort = p.1 := by
  rw [entriesByPort, entries_groupBy] at h
  obtain ⟨x, hx, rfl⟩ := List.mem_map.mp h
  refine ⟨List.ne_nil_of_mem (a := x) ?_, fun e he => ?_⟩
  · exact List.mem_filter.mpr ⟨(firstsBy_sublist _ _).subset hx, by simp⟩
  · obtain ⟨hmem, hport⟩ := List.mem_filter.mp he
    exact ⟨hmem, by simpa using hport⟩

theorem nodup_entriesByPort (parsed : List (MappingEntry × ParsedPath)) :
    ((entriesByPort parsed).map Prod.fst).Nodup :=
  (groupBy (fun e : MappingEntry × ParsedPath => e.1.sourcePort) parsed).nodupKeys

/-- **What the validator accepts is valid.** -/
theorem validPorts_of_validate {mapping : List MappingEntry}
    (h : validateV2OutputMapping mapping = .ok ()) {ports : PortPaths}
    (hports : mappingPorts mapping = .ok ports) : ValidPorts ports := by
  obtain ⟨parsed, hparse, rfl⟩ := map_eq_ok_iff.mp hports
  obtain ⟨parsed', hparse', h⟩ := bind_eq_ok_iff.mp h
  obtain rfl : parsed = parsed' := Except.ok.inj (hparse.symm.trans hparse')
  obtain ⟨-, -, h⟩ := bind_eq_ok_iff.mp h
  obtain ⟨⟨⟩, hlocations, h⟩ := bind_eq_ok_iff.mp h
  obtain ⟨⟨⟩, hlevels, hnesting⟩ := bind_eq_ok_iff.mp h
  rw [raiseSome_eq_ok_iff] at hlocations hnesting
  have hmem : ∀ p ∈ distinctByPort parsed, ∃ q ∈ entriesByPort parsed,
      p = (q.1, firstsBy ParsedPath.raw (q.2.map Prod.snd)) := by
    intro p hp
    obtain ⟨q, hq, rfl⟩ := List.mem_map.mp hp
    exact ⟨q, hq, rfl⟩
  have hne : ∀ p ∈ distinctByPort parsed, p.2 ≠ [] := by
    intro p hp
    obtain ⟨q, hq, rfl⟩ := hmem p hp
    obtain ⟨e, es, hes⟩ := List.exists_cons_of_ne_nil (mem_entriesByPort hq).1
    simp [hes, firstsBy]
  have hpaths : ∀ p ∈ distinctByPort parsed, ∀ path ∈ p.2, IsOutputPath path := by
    intro p hp path hpath
    obtain ⟨q, hq, rfl⟩ := hmem p hp
    obtain ⟨e, he, rfl⟩ := List.mem_map.mp ((firstsBy_sublist _ _).subset hpath)
    exact (parseEntries_spec hparse e ((mem_entriesByPort hq).2 e he).1).2
  obtain ⟨hbranch, -, hone⟩ := checkLevels_spec hne hlevels
  exact
    { nodup_ports := by
        have hfst : (distinctByPort parsed).map Prod.fst = (entriesByPort parsed).map Prod.fst := by
          simp [distinctByPort]
        rw [hfst]
        exact nodup_entriesByPort parsed
      paths_ne_nil := hne
      isOutputPath := hpaths
      nodup_paths := fun p hp => by
        obtain ⟨q, hq, rfl⟩ := hmem p hp
        exact nodup_map_firstsBy _ _
      locations := hlocations
      branch := hbranch
      oneFrame := hone
      nestingKeys := fun child hchild hroot p hp hpart key hkey =>
        nestingKeys_of_nestingKeyError hne hnesting hchild hroot hp hpart hkey }

end Haute
