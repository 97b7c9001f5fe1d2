import Haute.Graph.Restricted
import Haute.Lineage.Switches

/-!
# A run of one target

A run of a target takes its nodes in the order in which a run of everything takes them
(`prepareGraph_target`): what the target needs keeps its predecessors, so it is sorted alone as
it stands in the whole (`Haute.Graph.topoSortIds_filter`), with the same parents and names. The
one thing only the run of a target notices is an edge from a node that does not exist: the run
of everything drops it. What the two other walks list from the graph again is the same lineage
(`lineage_agrees`).
-/

namespace Haute.Lineage

open Haute.Data Haute.Graph
open Haute.Fingerprint (GraphNode GraphEdge PipelineGraph)

variable {F : Type} {reported : Sorter String → List String}
  {submodels : String → Option (List String)} {graph : PipelineGraph F} {target : Option String}
  {scenario : String} {edges : List GraphEdge} {prepared whole : PreparedGraph F}

/-! ### What a prepared graph is made of -/

/-- Naming an error does not change what succeeds. -/
theorem mapError_eq_ok {ε ε' α : Type} {x : Except ε α} {f : ε → ε'} {a : α} :
    x.mapError f = .ok a ↔ x = .ok a := by
  cases x <;> simp [Except.mapError]

/-- Pruning leaves edges out. -/
theorem mem_of_prune {nodes : OrdDict String (GraphNode F)} {all : List GraphEdge}
    (h : pruneLiveSwitchEdges submodels nodes all scenario = .ok edges) {e : GraphEdge}
    (he : e ∈ edges) : e ∈ all := by
  obtain ⟨inactive, -, hedges⟩ := bind_eq_ok.mp h
  cases hedges
  exact (List.mem_filter.mp he).1

/-- **What a preparation is**: the pruned edges, a topological order of what is needed, and the
lookups of both. -/
theorem prepareGraph_eq_ok_iff :
    prepareGraph reported submodels graph target scenario = .ok prepared ↔
      ∃ edges order, pruneLiveSwitchEdges submodels (nodeMap graph) graph.edges scenario =
          .ok edges ∧
        topoSortIds reported
          ((nodeMap graph).keys.filter fun x => x ∈ neededFor target (nodeMap graph) edges)
          ((relevantEdges (neededFor target (nodeMap graph) edges) edges).map link) = .ok order ∧
        prepared = lookupsOf (nodeMap graph)
          (relevantEdges (neededFor target (nodeMap graph) edges) edges) order := by
  unfold prepareGraph
  constructor
  · intro h
    obtain ⟨edges, hprune, h⟩ := bind_eq_ok.mp h
    obtain ⟨order, hsort, h⟩ := bind_eq_ok.mp h
    exact ⟨edges, order, mapError_eq_ok.mp hprune, mapError_eq_ok.mp hsort,
      (Except.ok.inj h).symm⟩
  · rintro ⟨edges, order, hprune, hsort, rfl⟩
    exact bind_eq_ok.mpr ⟨edges, mapError_eq_ok.mpr hprune,
      bind_eq_ok.mpr ⟨order, mapError_eq_ok.mpr hsort, rfl⟩⟩

/-- A preparation is refused where what is needed has no order. -/
theorem prepareGraph_eq_error {error : TopoError String}
    (hprune : pruneLiveSwitchEdges submodels (nodeMap graph) graph.edges scenario = .ok edges)
    (hsort : topoSortIds reported
      ((nodeMap graph).keys.filter fun x => x ∈ neededFor target (nodeMap graph) edges)
      ((relevantEdges (neededFor target (nodeMap graph) edges) edges).map link) = .error error) :
    prepareGraph reported submodels graph target scenario = .error (.topo error) := by
  unfold prepareGraph
  simp only [hprune, Except.mapError, bind, Except.bind, hsort]

/-- Only known edges are sorted. -/
theorem known_of_topoSortIds {ι : Type} [LinearOrder ι] {reported : Sorter ι → List ι}
    {nodeIds order : List ι} {edges : List (Graph.GraphEdge ι)}
    (h : topoSortIds reported nodeIds edges = .ok order) :
    ∀ e ∈ edges, e.source ∈ nodeIds ∧ e.target ∈ nodeIds := by
  unfold topoSortIds at h
  dsimp only at h
  split_ifs at h with hnone
  intro e he
  have hdropped := List.filter_eq_nil_iff.mp hnone e he
  simpa using hdropped

/-- An order lists each node it is asked for once, what an edge leads to after its source. -/
theorem isTopological_of_topoSortIds {ι : Type} [LinearOrder ι] {reported : Sorter ι → List ι}
    {nodeIds order : List ι} {edges : List (Graph.GraphEdge ι)}
    (h : topoSortIds reported nodeIds edges = .ok order) :
    IsTopological (Connects nodeIds edges) nodeIds.toFinset order := by
  have hknown := known_of_topoSortIds h
  obtain ⟨hacyclic, -⟩ := (topoSortIds_eq_ok_iff reported hknown).mp h
  obtain ⟨order', hrun, htopological⟩ := (topoSortIds_of_known reported hknown).2 hacyclic
  rw [h] at hrun
  cases hrun
  exact htopological

/-! ### The order of a target's run -/

/-- What of a prepared graph is about needed nodes. -/
def PreparedGraph.restrict (prepared : PreparedGraph F) (needed : Finset String) :
    PreparedGraph F where
  node_map := prepared.node_map
  order := prepared.order.filter fun id => id ∈ needed
  relevant_edges := relevantEdges needed prepared.relevant_edges
  parents_of := prepared.parents_of.filterKeys fun id => id ∈ needed
  id_to_name := prepared.id_to_name.filter fun e => e.1 ∈ needed

/-- The lineage of a target. -/
abbrev lineageOf (graph : PipelineGraph F) (edges : List GraphEdge) (target : String) :
    Finset String := ancestors target (edges.map link) (nodeMap graph).keys

/-- What leads to a node does not change when edges to other nodes are dropped. -/
theorem sourcesInto_filter {ι : Type} [DecidableEq ι] {p : ι → Bool}
    {edges : List (Graph.GraphEdge ι)} {x : ι} (hx : p x = true) :
    sourcesInto (edges.filter fun e => p e.target) x = sourcesInto edges x := by
  unfold sourcesInto
  rw [List.filter_filter]
  congr 1
  refine List.filter_congr fun e _ => ?_
  by_cases he : e.target = x
  · rw [he, hx, Bool.and_true]
  · simp [he]

/-- The lookups of part of an order, with the edges into the part. -/
theorem lookupsOf_filter (nodes : OrdDict String (GraphNode F)) {p : String → Bool}
    {relevant part : List GraphEdge} (order : List String)
    (hpart : part.map link = (relevant.map link).filter fun e => p e.target) :
    (lookupsOf nodes part (order.filter p)).parents_of =
        (lookupsOf nodes relevant order).parents_of.filterKeys p ∧
      (lookupsOf nodes part (order.filter p)).id_to_name =
        (lookupsOf nodes relevant order).id_to_name.filter fun e => p e.1 := by
  constructor
  · dsimp only [lookupsOf]
    rw [hpart]
    refine OrdDict.ext_get? ?_ fun k => ?_
    · rw [OrdDict.keys_filterKeys, keys_buildParentsOf, keys_buildParentsOf, firsts_filter]
    · rw [OrdDict.get?_filterKeys, get?_buildParentsOf, get?_buildParentsOf]
      by_cases hk : p k = true
      · simp only [List.mem_filter, hk, and_true, if_true, sourcesInto_filter hk]
      · simp only [List.mem_filter, hk, and_false, if_false, Bool.false_eq_true]
  · dsimp only [lookupsOf]
    induction order with
    | nil => rfl
    | cons id order ih =>
      by_cases hid : p id = true
      · rw [List.filter_cons_of_pos hid, List.filterMap_cons, List.filterMap_cons]
        cases nodes.get? id with
        | none => exact ih
        | some node => simp only [Option.map_some, List.filter_cons, hid, if_true, ih]
      · rw [List.filter_cons_of_neg hid, List.filterMap_cons]
        cases nodes.get? id with
        | none => exact ih
        | some node =>
          simp only [Option.map_some, List.filter_cons, hid, Bool.false_eq_true, if_false, ih]

/-- The lookups of a part are the lookups restricted to it. -/
theorem lookupsOf_restrict (nodes : OrdDict String (GraphNode F)) {needed : Finset String}
    {relevant : List GraphEdge} (order : List String)
    (hlinks : (relevantEdges needed relevant).map link =
      (relevant.map link).filter fun e => e.target ∈ needed) :
    (lookupsOf nodes relevant order).restrict needed =
      lookupsOf nodes (relevantEdges needed relevant) (order.filter fun id => id ∈ needed) := by
  obtain ⟨hparents, hnames⟩ := lookupsOf_filter nodes (p := fun id => id ∈ needed) order hlinks
  calc (lookupsOf nodes relevant order).restrict needed
      = { lookupsOf nodes (relevantEdges needed relevant) (order.filter fun id => id ∈ needed) with
          parents_of := (lookupsOf nodes relevant order).parents_of.filterKeys fun id => id ∈ needed
          id_to_name := (lookupsOf nodes relevant order).id_to_name.filter
            fun e => e.1 ∈ needed } := rfl
    _ = lookupsOf nodes (relevantEdges needed relevant) (order.filter fun id => id ∈ needed) := by
        rw [← hparents, ← hnames]

/-! ### What a lineage holds -/

/-- An unknown id from which an edge leads into the target's lineage. -/
def StraySource (graph : PipelineGraph F) (edges : List GraphEdge) (target x : String) : Prop :=
  x ∉ (nodeMap graph).keys ∧ ∃ e ∈ edges, e.source = x ∧ e.target ∈ (nodeMap graph).keys ∧
    e.target ∈ lineageOf graph edges target

/-- What feeds a lineage is in it. -/
theorem source_mem_lineage {t : String} {e : GraphEdge} (he : e ∈ edges)
    (hknown : e.target ∈ (nodeMap graph).keys) (h : e.target ∈ lineageOf graph edges t) :
    e.source ∈ lineageOf graph edges t :=
  source_mem_ancestors (e := link e) (List.mem_map.mpr ⟨e, he, rfl⟩) hknown h

/-- A node is in its own lineage. -/
theorem self_mem_lineage (t : String) : t ∈ lineageOf graph edges t :=
  mem_ancestors_iff.mpr Relation.ReflTransGen.refl

/-- Beside the target a lineage holds the sources of the edges into it. -/
theorem exists_edge_of_mem_lineage {t x : String} (hx : x ∈ lineageOf graph edges t)
    (hne : x ≠ t) : ∃ e ∈ edges, e.source = x ∧ e.target ∈ (nodeMap graph).keys ∧
      e.target ∈ lineageOf graph edges t := by
  rcases (mem_ancestors_iff.mp hx).cases_head with rfl | ⟨y, ⟨hy, hedge⟩, hreach⟩
  · exact absurd rfl hne
  · obtain ⟨e, he, hlink⟩ := List.mem_map.mp hedge
    have hsource : e.source = x := congrArg Graph.GraphEdge.source hlink
    have htarget : e.target = y := congrArg Graph.GraphEdge.target hlink
    exact ⟨e, he, hsource, htarget ▸ hy, htarget ▸ mem_ancestors_iff.mpr hreach⟩

/-- What is in the lineage of a node is a node or a stray source. -/
theorem mem_keys_or_stray {t x : String} (ht : t ∈ (nodeMap graph).keys)
    (hx : x ∈ lineageOf graph edges t) :
    x ∈ (nodeMap graph).keys ∨ StraySource graph edges t x := by
  by_cases hk : x ∈ (nodeMap graph).keys
  · exact .inl hk
  · exact .inr ⟨hk, exists_edge_of_mem_lineage hx fun h => hk (h ▸ ht)⟩

/-- For a target with an id, its ancestors are needed. -/
theorem neededFor_some {nodes : OrdDict String (GraphNode F)} {t : String} (hne : t ≠ "") :
    neededFor (some t) nodes edges = ancestors t (edges.map link) nodes.keys := by
  have hempty : t.isEmpty = false := by
    rw [← Bool.not_eq_true, String.isEmpty_iff]
    exact hne
  unfold neededFor
  simp only [hempty, Bool.false_eq_true, if_false]

/-- What leads to a node of a lineage is in the lineage. -/
theorem lineage_subset {s t : String} (hs : s ∈ lineageOf graph edges t) {x : String}
    (hx : x ∈ lineageOf graph edges s) : x ∈ lineageOf graph edges t :=
  mem_ancestors_iff.mpr ((mem_ancestors_iff.mp hx).trans (mem_ancestors_iff.mp hs))

/-- Where a lineage is part of what an order was made for, its edges are those of the order's
that lead into it. -/
theorem relevantEdges_part {t : String} {needed : Finset String}
    (hpart : ∀ x ∈ lineageOf graph edges t, x ∈ needed)
    (hknown : ∀ e ∈ relevantEdges needed edges, e.target ∈ (nodeMap graph).keys) :
    relevantEdges (lineageOf graph edges t) edges =
        relevantEdges (lineageOf graph edges t) (relevantEdges needed edges) ∧
      (relevantEdges (lineageOf graph edges t) edges).map link =
        ((relevantEdges needed edges).map link).filter
          fun e => e.target ∈ lineageOf graph edges t := by
  have hkept : ∀ e ∈ edges, e.source ∈ needed → e.target ∈ needed →
      e.target ∈ lineageOf graph edges t → e.source ∈ lineageOf graph edges t :=
    fun e he hsource htarget h => source_mem_lineage he
      (hknown e (List.mem_filter.mpr ⟨he, decide_eq_true ⟨hsource, htarget⟩⟩)) h
  constructor
  · unfold relevantEdges
    rw [List.filter_filter]
    refine List.filter_congr fun e _ => Bool.eq_iff_iff.mpr ?_
    simp only [Bool.and_eq_true, decide_eq_true_eq]
    exact ⟨fun h => ⟨h, hpart _ h.1, hpart _ h.2⟩, fun h => h.1⟩
  · unfold relevantEdges
    rw [List.filter_map, List.filter_filter]
    congr 1
    refine List.filter_congr fun e he => Bool.eq_iff_iff.mpr ?_
    simp only [Function.comp_apply, link, Bool.and_eq_true, decide_eq_true_eq]
    refine ⟨fun h => ⟨decide_eq_true h.2, hpart _ h.1, hpart _ h.2⟩, fun h => ?_⟩
    have htarget := of_decide_eq_true h.1
    exact ⟨hkept e he h.2.1 h.2.2 htarget, htarget⟩

/-- A run of a target whose lineage is part of another run's is that part of it. -/
theorem prepareGraph_within (h : prepareGraph reported submodels graph target scenario = .ok whole)
    (hprune : pruneLiveSwitchEdges submodels (nodeMap graph) graph.edges scenario = .ok edges)
    {t : String} (hne : t ≠ "")
    (hpart : ∀ x ∈ lineageOf graph edges t, x ∈ neededFor target (nodeMap graph) edges) :
    prepareGraph reported submodels graph (some t) scenario =
      .ok (whole.restrict (lineageOf graph edges t)) := by
  obtain ⟨edges', order, hprune', hsort, rfl⟩ := prepareGraph_eq_ok_iff.mp h
  rw [hprune] at hprune'
  cases hprune'
  have hknown := known_of_topoSortIds hsort
  obtain ⟨hrelevant, hlinks⟩ := relevantEdges_part hpart fun e he =>
    (List.mem_filter.mp (hknown (link e) (List.mem_map.mpr ⟨e, he, rfl⟩)).2).1
  have hnodes : (((nodeMap graph).keys.filter fun x => x ∈ neededFor target (nodeMap graph) edges
      ).filter fun x => x ∈ lineageOf graph edges t) =
        (nodeMap graph).keys.filter fun x => x ∈ lineageOf graph edges t := by
    rw [List.filter_filter]
    refine List.filter_congr fun x _ => Bool.eq_iff_iff.mpr ?_
    simp only [Bool.and_eq_true, decide_eq_true_eq]
    exact ⟨fun hx => hx.1, fun hx => ⟨hx, hpart x hx⟩⟩
  have hsorted := topoSortIds_filter (p := fun x => x ∈ lineageOf graph edges t) reported
    hknown (fun l hl htarget => ?_) hsort
  · refine prepareGraph_eq_ok_iff.mpr ⟨edges, order.filter fun x => x ∈ lineageOf graph edges t,
      hprune, ?_, ?_⟩
    · rw [neededFor_some hne, hlinks, ← hnodes]
      exact hsorted
    · rw [neededFor_some hne, hrelevant]
      exact lookupsOf_restrict (nodeMap graph) order (hrelevant ▸ hlinks)
  · obtain ⟨e, he, rfl⟩ := List.mem_map.mp hl
    exact decide_eq_true (source_mem_lineage (List.mem_filter.mp he).1
      (List.mem_filter.mp (hknown _ hl).2).1 (of_decide_eq_true htarget))

/-- A run of everything sorts all nodes, with the edges between them. -/
theorem topoSortIds_whole {order : List String} :
    topoSortIds reported
        ((nodeMap graph).keys.filter fun x => x ∈ neededFor none (nodeMap graph) edges)
        ((relevantEdges (neededFor none (nodeMap graph) edges) edges).map link) = .ok order ↔
      topoSortIds reported (nodeMap graph).keys
        ((relevantEdges (nodeMap graph).keys.toFinset edges).map link) = .ok order := by
  have hall : ((nodeMap graph).keys.filter fun x => x ∈ neededFor none (nodeMap graph) edges) =
      (nodeMap graph).keys :=
    List.filter_eq_self.mpr fun x hx => decide_eq_true (List.mem_toFinset.mpr hx)
  rw [hall]
  rfl

/-- With a stray source the run of a target is refused, all stray sources named. -/
theorem topoSortIds_stray (reported : Sorter String → List String) {t : String}
    (ht : t ∈ (nodeMap graph).keys) {x : String}
    (hx : StraySource graph edges t x) :
    ∃ unknown dropped, topoSortIds reported
        ((nodeMap graph).keys.filter fun x => x ∈ lineageOf graph edges t)
        ((relevantEdges (lineageOf graph edges t) edges).map link) =
          .error (.unknownEdgeEndpoint unknown dropped) ∧
      ∀ y, y ∈ unknown ↔ StraySource graph edges t y := by
  set nodeIds := (nodeMap graph).keys.filter fun x => x ∈ lineageOf graph edges t
  set links := (relevantEdges (lineageOf graph edges t) edges).map link
  have hlink : ∀ y, StraySource graph edges t y → ∃ l ∈ links, l.source = y ∧ y ∉ nodeIds := by
    rintro y ⟨hy, e, he, rfl, hknown, htarget⟩
    have hrelevant : e ∈ relevantEdges (lineageOf graph edges t) edges :=
      List.mem_filter.mpr ⟨he, decide_eq_true ⟨source_mem_lineage he hknown htarget, htarget⟩⟩
    exact ⟨link e, List.mem_map.mpr ⟨e, hrelevant, rfl⟩, rfl, fun h => hy (List.mem_filter.mp h).1⟩
  have hmem : ∀ y, y ∈ (partitionEdges nodeIds links).2.2 ↔ StraySource graph edges t y := by
    intro y
    unfold partitionEdges
    simp only [Finset.mem_sort, Finset.mem_sdiff, List.mem_toFinset, List.mem_flatMap,
      List.mem_filter, Bool.not_eq_true', decide_eq_false_iff_not, List.mem_cons,
      List.not_mem_nil, or_false]
    constructor
    · rintro ⟨⟨l, ⟨hl, -⟩, hy⟩, hnot⟩
      obtain ⟨e, he, rfl⟩ := List.mem_map.mp hl
      have hends := of_decide_eq_true (List.mem_filter.mp he).2
      have hlineage : y ∈ lineageOf graph edges t := by
        rcases hy with rfl | rfl
        · exact hends.1
        · exact hends.2
      exact (mem_keys_or_stray ht hlineage).resolve_left fun hk =>
        hnot (List.mem_filter.mpr ⟨hk, decide_eq_true hlineage⟩)
    · intro hy
      obtain ⟨l, hl, rfl, hnot⟩ := hlink y hy
      exact ⟨⟨l, ⟨hl, fun h => hnot h.1⟩, .inl rfl⟩, hnot⟩
  refine ⟨_, (partitionEdges nodeIds links).2.1, ?_, hmem⟩
  unfold topoSortIds
  dsimp only
  rw [if_neg]
  intro hnone
  obtain ⟨l, hl, hsource, hnot⟩ := hlink x hx
  have hdropped := List.filter_eq_nil_iff.mp hnone l hl
  simp [hsource, hnot] at hdropped

/-- When everything can be prepared, a target's run is what the whole run does for its lineage,
in the same order, unless an edge from an unknown id leads into the lineage: the run of
everything leaves such an edge out, and that of the target refuses it. -/
theorem prepareGraph_target
    (hwhole : prepareGraph reported submodels graph none scenario = .ok whole) {t : String}
    (ht : t ∈ (nodeMap graph).keys) (hne : t ≠ "") :
    ∃ edges, pruneLiveSwitchEdges submodels (nodeMap graph) graph.edges scenario = .ok edges ∧
      ((∀ x, ¬ StraySource graph edges t x) →
        prepareGraph reported submodels graph (some t) scenario =
          .ok (whole.restrict (lineageOf graph edges t))) ∧
      ((∃ x, StraySource graph edges t x) → ∃ unknown dropped,
        prepareGraph reported submodels graph (some t) scenario =
            .error (.topo (.unknownEdgeEndpoint unknown dropped)) ∧
          ∀ x, x ∈ unknown ↔ StraySource graph edges t x) := by
  obtain ⟨edges, -, hprune, -, -⟩ := prepareGraph_eq_ok_iff.mp hwhole
  refine ⟨edges, hprune, fun hstray => ?_, fun ⟨x, hx⟩ => ?_⟩
  · exact prepareGraph_within hwhole hprune hne fun x hx =>
      List.mem_toFinset.mpr ((mem_keys_or_stray ht hx).resolve_right (hstray x))
  · obtain ⟨unknown, dropped, hsorted, hunknown⟩ := topoSortIds_stray reported ht hx
    refine ⟨unknown, dropped, prepareGraph_eq_error hprune ?_, hunknown⟩
    rw [neededFor_some hne]
    exact hsorted

/-- Without stray sources, what leads to a node of the lineage is connected to it there. -/
theorem connects_of_feeds {t : String} (ht : t ∈ (nodeMap graph).keys)
    (hstray : ∀ x, ¬ StraySource graph edges t x) {a b : String}
    (h : Relation.TransGen (Feeds (edges.map link) (nodeMap graph).keys) a b)
    (hb : b ∈ lineageOf graph edges t) :
    Relation.TransGen (Connects
        ((nodeMap graph).keys.filter fun x => x ∈ lineageOf graph edges t)
        ((relevantEdges (lineageOf graph edges t) edges).map link)) a b := by
  have hknown : ∀ x ∈ lineageOf graph edges t,
      x ∈ (nodeMap graph).keys.filter fun x => x ∈ lineageOf graph edges t := fun x hx =>
    List.mem_filter.mpr ⟨(mem_keys_or_stray ht hx).resolve_right (hstray x), decide_eq_true hx⟩
  have hstep : ∀ x y, Feeds (edges.map link) (nodeMap graph).keys x y →
      y ∈ lineageOf graph edges t → x ∈ lineageOf graph edges t ∧
        Connects ((nodeMap graph).keys.filter fun x => x ∈ lineageOf graph edges t)
          ((relevantEdges (lineageOf graph edges t) edges).map link) x y := by
    rintro x y ⟨hy, hedge⟩ hlineage
    obtain ⟨e, he, hlink⟩ := List.mem_map.mp hedge
    have hsource : e.source = x := congrArg Graph.GraphEdge.source hlink
    have htarget : e.target = y := congrArg Graph.GraphEdge.target hlink
    subst hsource htarget
    have hx := source_mem_lineage he hy hlineage
    exact ⟨hx, hknown _ hx, hknown _ hlineage,
      List.mem_map.mpr ⟨e, List.mem_filter.mpr ⟨he, decide_eq_true ⟨hx, hlineage⟩⟩, rfl⟩⟩
  have hpath : a ∈ lineageOf graph edges t ∧ Relation.TransGen (Connects
        ((nodeMap graph).keys.filter fun x => x ∈ lineageOf graph edges t)
        ((relevantEdges (lineageOf graph edges t) edges).map link)) a b := by
    induction h using Relation.TransGen.head_induction_on with
    | single hab =>
      obtain ⟨hx, hconnects⟩ := hstep _ _ hab hb
      exact ⟨hx, .single hconnects⟩
    | head hac _ ih =>
      obtain ⟨hx, hconnects⟩ := hstep _ _ hac ih.1
      exact ⟨hx, .head hconnects ih.2⟩
  exact hpath.2

/-- A target that can be prepared has no stray source upstream. -/
theorem not_stray_of_prepared {t : String} (ht : t ∈ (nodeMap graph).keys) (hne : t ≠ "")
    (h : prepareGraph reported submodels graph (some t) scenario = .ok prepared)
    (hprune : pruneLiveSwitchEdges submodels (nodeMap graph) graph.edges scenario = .ok edges)
    (x : String) : ¬ StraySource graph edges t x := by
  intro hx
  obtain ⟨edges', order, hprune', hsort, rfl⟩ := prepareGraph_eq_ok_iff.mp h
  rw [hprune] at hprune'
  cases hprune'
  rw [neededFor_some hne] at hsort
  obtain ⟨unknown, dropped, hrefused, -⟩ := topoSortIds_stray reported ht hx
  rw [hsort] at hrefused
  cases hrefused

/-- A node can be run when, of the edges the scenario leaves, none from an unknown id leads to it
and none of what leads to it is on a cycle; what cannot be run elsewhere does not matter. -/
theorem prepareGraph_target_isOk_iff
    (hprune : pruneLiveSwitchEdges submodels (nodeMap graph) graph.edges scenario = .ok edges)
    {t : String} (ht : t ∈ (nodeMap graph).keys) (hne : t ≠ "") :
    (∃ prepared, prepareGraph reported submodels graph (some t) scenario = .ok prepared) ↔
      (∀ x, ¬ StraySource graph edges t x) ∧ ∀ x ∈ lineageOf graph edges t,
        ¬ Relation.TransGen (Feeds (edges.map link) (nodeMap graph).keys) x x := by
  constructor
  · rintro ⟨prepared, h⟩
    have hstray := not_stray_of_prepared ht hne h hprune
    obtain ⟨edges', order, hprune', hsort, rfl⟩ := prepareGraph_eq_ok_iff.mp h
    rw [hprune] at hprune'
    cases hprune'
    rw [neededFor_some hne] at hsort
    have hacyclic := ((topoSortIds_eq_ok_iff reported (known_of_topoSortIds hsort)).mp hsort).1
    exact ⟨hstray, fun x hx hcycle => hacyclic x (connects_of_feeds ht hstray hcycle hx)⟩
  · rintro ⟨hstray, hacyclic⟩
    have hknown : ∀ l ∈ (relevantEdges (lineageOf graph edges t) edges).map link,
        l.source ∈ ((nodeMap graph).keys.filter fun x => x ∈ lineageOf graph edges t) ∧
          l.target ∈ (nodeMap graph).keys.filter fun x => x ∈ lineageOf graph edges t := by
      intro l hl
      obtain ⟨e, he, rfl⟩ := List.mem_map.mp hl
      obtain ⟨hsource, htarget⟩ := of_decide_eq_true (List.mem_filter.mp he).2
      exact ⟨List.mem_filter.mpr ⟨(mem_keys_or_stray ht hsource).resolve_right (hstray _),
          decide_eq_true hsource⟩,
        List.mem_filter.mpr ⟨(mem_keys_or_stray ht htarget).resolve_right (hstray _),
          decide_eq_true htarget⟩⟩
    have hfeeds : Connects ((nodeMap graph).keys.filter fun x => x ∈ lineageOf graph edges t)
        ((relevantEdges (lineageOf graph edges t) edges).map link) ≤
          Feeds (edges.map link) (nodeMap graph).keys := by
      rintro a b ⟨-, hb, hedge⟩
      obtain ⟨e, he, hlink⟩ := List.mem_map.mp hedge
      exact ⟨(List.mem_filter.mp hb).1, List.mem_map.mpr ⟨e, (List.mem_filter.mp he).1, hlink⟩⟩
    have hsort := (topoSortIds_eq_ok_iff reported hknown).mpr ⟨fun x hcycle => ?_, rfl⟩
    · exact ⟨_, prepareGraph_eq_ok_iff.mpr
        ⟨edges, _, hprune, by rw [neededFor_some hne]; exact hsort,
        rfl⟩⟩
    · obtain ⟨y, hy, -⟩ := Relation.TransGen.head'_iff.mp hcycle
      exact hacyclic x (of_decide_eq_true (List.mem_filter.mp hy.1).2)
        (Relation.TransGen.mono hfeeds x x hcycle)

/-- The run of a scenario's switch beside the run of everything. -/
theorem prepareGraph_switched : ∃ whole,
    prepareGraph (fun _ => []) (fun _ => none) switched none "live" = .ok whole ∧
    ∃ edges, pruneLiveSwitchEdges (fun _ => none) (nodeMap switched) switched.edges "live" =
        .ok edges ∧
      ((∀ x, ¬ StraySource switched edges "switch" x) →
        prepareGraph (fun _ => []) (fun _ => none) switched (some "switch") "live" =
          .ok (whole.restrict (lineageOf switched edges "switch"))) ∧
      ((∃ x, StraySource switched edges "switch" x) → ∃ unknown dropped,
        prepareGraph (fun _ => []) (fun _ => none) switched (some "switch") "live" =
            .error (.topo (.unknownEdgeEndpoint unknown dropped)) ∧
          ∀ x, x ∈ unknown ↔ StraySource switched edges "switch" x) :=
  have h : prepareGraph (fun _ => []) (fun _ => none) switched none "live" = .ok _ := rfl
  ⟨_, h, prepareGraph_target h (by decide) (by decide)⟩

/-- The switch can be prepared exactly if no stray edge and no cycle leads to it. -/
theorem prepareGraph_isOk_switched :
    ∃ edges, pruneLiveSwitchEdges (fun _ => none) (nodeMap switched) switched.edges "live" =
        .ok edges ∧
      ((∃ prepared, prepareGraph (fun _ => []) (fun _ => none) switched (some "switch") "live" =
          .ok prepared) ↔
        (∀ x, ¬ StraySource switched edges "switch" x) ∧ ∀ x ∈ lineageOf switched edges "switch",
          ¬ Relation.TransGen (Feeds (edges.map link) (nodeMap switched).keys) x x) :=
  have h : pruneLiveSwitchEdges (fun _ => none) (nodeMap switched) switched.edges "live" =
    .ok _ := rfl
  ⟨_, h, prepareGraph_target_isOk_iff h (by decide) (by decide)⟩

/-! ### What a run computes -/

/-- The order of a prepared graph lists the needed nodes, each once. -/
theorem order_spec (h : prepareGraph reported submodels graph target scenario = .ok prepared)
    (hprune : pruneLiveSwitchEdges submodels (nodeMap graph) graph.edges scenario = .ok edges) :
    prepared.order.Nodup ∧ ∀ x, x ∈ prepared.order ↔
      x ∈ (nodeMap graph).keys ∧ x ∈ neededFor target (nodeMap graph) edges := by
  obtain ⟨edges', order, hprune', hsort, rfl⟩ := prepareGraph_eq_ok_iff.mp h
  rw [hprune] at hprune'
  cases hprune'
  have htopological := isTopological_of_topoSortIds hsort
  refine ⟨htopological.nodup, fun x => (htopological.mem_iff x).trans ?_⟩
  rw [List.mem_toFinset, List.mem_filter, decide_eq_true_eq]

/-- An edge to an ordered node is kept for the run, if its source is a node. -/
theorem mem_relevant_of_mem_order
    (h : prepareGraph reported submodels graph target scenario = .ok prepared)
    (hprune : pruneLiveSwitchEdges submodels (nodeMap graph) graph.edges scenario = .ok edges)
    {e : GraphEdge} (he : e ∈ edges) (hsource : e.source ∈ (nodeMap graph).keys)
    (htarget : e.target ∈ prepared.order) : e ∈ prepared.relevant_edges := by
  have hmem := (order_spec h hprune).2
  obtain ⟨hkey, hneeded⟩ := (hmem e.target).mp htarget
  obtain ⟨edges', order, hprune', -, rfl⟩ := prepareGraph_eq_ok_iff.mp h
  rw [hprune] at hprune'
  cases hprune'
  refine List.mem_filter.mpr ⟨he, decide_eq_true ⟨?_, hneeded⟩⟩
  unfold neededFor at hneeded ⊢
  rcases target with _ | t
  · exact List.mem_toFinset.mpr hsource
  · dsimp only at hneeded ⊢
    split_ifs at hneeded ⊢
    · exact List.mem_toFinset.mpr hsource
    · exact source_mem_lineage he hkey hneeded

/-- A run lists its nodes once, each after all that it reads; it reads every edge that the
scenario leaves it, and each node's parents are the sources of its edges, in their order. -/
theorem prepareGraph_runs
    (h : prepareGraph reported submodels graph target scenario = .ok prepared) :
    ∃ edges, pruneLiveSwitchEdges submodels (nodeMap graph) graph.edges scenario = .ok edges ∧
      prepared.order.Nodup ∧
      (∀ e ∈ edges, e.source ∈ (nodeMap graph).keys → e.target ∈ prepared.order →
        e ∈ prepared.relevant_edges) ∧
      (∀ e ∈ prepared.relevant_edges, e ∈ edges ∧ e.target ∈ prepared.order ∧
        prepared.order.idxOf e.source < prepared.order.idxOf e.target) ∧
      ∀ x ∈ prepared.order, prepared.parents_of.get? x =
        some ((prepared.relevant_edges.filter fun e => e.target = x).map fun e => e.source) := by
  obtain ⟨edges, order, hprune, hsort, rfl⟩ := prepareGraph_eq_ok_iff.mp h
  have htopological := isTopological_of_topoSortIds hsort
  refine ⟨edges, hprune, htopological.nodup,
    fun e he hsource htarget => mem_relevant_of_mem_order h hprune he hsource htarget,
    fun e he => ?_, fun x hx => ?_⟩
  · dsimp only [lookupsOf] at he
    have hlink := List.mem_map_of_mem (f := link) he
    obtain ⟨hsource, htarget⟩ := known_of_topoSortIds hsort (link e) hlink
    exact ⟨(List.mem_filter.mp he).1,
      (htopological.mem_iff _).mpr (List.mem_toFinset.mpr htarget),
      htopological.before _ _ ⟨hsource, htarget, hlink⟩⟩
  · dsimp only [lookupsOf] at hx ⊢
    rw [get?_buildParentsOf, if_pos hx]
    unfold sourcesInto
    rw [List.filter_map, List.map_map]
    rfl

/-- The switch's preparation lists each node once, after what it reads. -/
theorem prepareGraph_runs_switched : ∃ prepared,
    prepareGraph (fun _ => []) (fun _ => none) switched (some "switch") "live" = .ok prepared ∧
    ∃ edges, pruneLiveSwitchEdges (fun _ => none) (nodeMap switched) switched.edges "live" =
        .ok edges ∧
      prepared.order.Nodup ∧
      (∀ e ∈ edges, e.source ∈ (nodeMap switched).keys → e.target ∈ prepared.order →
        e ∈ prepared.relevant_edges) ∧
      (∀ e ∈ prepared.relevant_edges, e ∈ edges ∧ e.target ∈ prepared.order ∧
        prepared.order.idxOf e.source < prepared.order.idxOf e.target) ∧
      ∀ x ∈ prepared.order, prepared.parents_of.get? x =
        some ((prepared.relevant_edges.filter fun e => e.target = x).map fun e => e.source) :=
  have h : prepareGraph (fun _ => []) (fun _ => none) switched (some "switch") "live" = .ok _ := rfl
  ⟨_, h, prepareGraph_runs h⟩

/-! ### The other walks -/

/-- Of a prepared target, the nodes whose inputs are prepared are those of the run, and in the
order of any run that has the target in it, its own run is its lineage as it stands there, which
is what results are reported for. -/
theorem lineage_agrees {t : String} (hne : t ≠ "")
    (h : prepareGraph reported submodels graph (some t) scenario = .ok prepared)
    (ht : t ∈ (nodeMap graph).keys) :
    ∃ edges, pruneLiveSwitchEdges submodels (nodeMap graph) graph.edges scenario = .ok edges ∧
      (∃ ids, lineagePreparationOrder submodels graph (some t) scenario = .ok ids ∧
        ids.Perm prepared.order) ∧
      ∀ outer whole, prepareGraph reported submodels graph outer scenario = .ok whole →
        t ∈ whole.order →
          prepared = whole.restrict (lineageOf graph edges t) ∧
            resultOrderForTarget submodels graph whole.order (some t) scenario =
              .ok prepared.order := by
  obtain ⟨edges, order, hprune, -, -⟩ := prepareGraph_eq_ok_iff.mp h
  obtain ⟨hnodup, hmem⟩ := order_spec h hprune
  have hkeys : ∀ x ∈ lineageOf graph edges t, x ∈ (nodeMap graph).keys := fun x hx =>
    (mem_keys_or_stray ht hx).resolve_right (not_stray_of_prepared ht hne h hprune x)
  refine ⟨edges, hprune, ⟨sortedIds (lineageOf graph edges t), ?_, ?_⟩,
    fun outer whole hwhole hin => ?_⟩
  · unfold lineagePreparationOrder
    simp only [ht, not_true_eq_false, if_false, hprune, Except.mapError, bind, Except.bind]
  · refine (List.perm_ext_iff_of_nodup (Finset.sort_nodup _ _) hnodup).mpr fun x => ?_
    rw [Finset.mem_sort, hmem, neededFor_some hne]
    exact ⟨fun hx => ⟨hkeys x hx, hx⟩, fun hx => hx.2⟩
  · have hneeded := (((order_spec hwhole hprune).2 t).mp hin).2
    have hpart : ∀ x ∈ lineageOf graph edges t, x ∈ neededFor outer (nodeMap graph) edges := by
      intro x hx
      have hkey := List.mem_toFinset.mpr (hkeys x hx)
      unfold neededFor at hneeded ⊢
      rcases outer with _ | s
      · exact hkey
      · dsimp only at hneeded ⊢
        split_ifs at hneeded ⊢
        · exact hkey
        · exact lineage_subset hneeded hx
    have hwithin := prepareGraph_within hwhole hprune hne hpart
    rw [h] at hwithin
    have heq := Except.ok.inj hwithin
    refine ⟨heq, ?_⟩
    unfold resultOrderForTarget
    simp only [ht, not_true_eq_false, if_false, hprune, Except.mapError, bind, Except.bind]
    rw [heq]
    rfl

/-- The switch's preparation is its part of any other that has it. -/
theorem lineage_agrees_switched : ∃ prepared,
    prepareGraph (fun _ => []) (fun _ => none) switched (some "switch") "live" = .ok prepared ∧
    ∃ edges, pruneLiveSwitchEdges (fun _ => none) (nodeMap switched) switched.edges "live" =
        .ok edges ∧
      (∃ ids, lineagePreparationOrder (fun _ => none) switched (some "switch") "live" = .ok ids ∧
        ids.Perm prepared.order) ∧
      ∀ outer whole, prepareGraph (fun _ => []) (fun _ => none) switched outer "live" =
          .ok whole → "switch" ∈ whole.order →
        prepared = whole.restrict (lineageOf switched edges "switch") ∧
          resultOrderForTarget (fun _ => none) switched whole.order (some "switch") "live" =
            .ok prepared.order :=
  have h : prepareGraph (fun _ => []) (fun _ => none) switched (some "switch") "live" = .ok _ := rfl
  ⟨_, h, lineage_agrees (by decide) h (by decide)⟩

end Haute.Lineage
