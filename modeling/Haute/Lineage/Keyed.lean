import Haute.Fingerprint.Identity
import Haute.Lineage.Targets

/-!
# What is keyed for a lineage

The lineage that a run takes, as a graph of its own, is prepared as it was in the graph it came
from (`prepareGraph_sourceLineageGraph`): nothing is pruned from it again (`prune_kept`), and the
same nodes and edges are sorted. And
a prepared graph never fails the checks under which a cache key is made for it, but for a target
that is no node (`validateLineageRequest_prepareGraph`).
-/

namespace Haute.Lineage

open Haute.Data Haute.Graph
open Haute.Fingerprint (GraphNode GraphEdge PipelineGraph LineageCacheKeyRequest)

variable {F : Type} {reported : Sorter String → List String}
  {submodels : String → Option (List String)} {graph : PipelineGraph F} {target : Option String}
  {scenario : String} {edges : List GraphEdge} {prepared : PreparedGraph F}

/-! ### Nodes by their ids -/

theorem get?_nodeMap (graph : PipelineGraph F) (id : String) :
    (nodeMap graph).get? id = graph.node_map id := by
  have hfold : ∀ nodes : OrdDict String (GraphNode F),
      (graph.nodes.foldl (fun nodes n => nodes.insert n.id n) nodes).get? id =
        (graph.nodes.reverse.find? fun n => n.id == id).or (nodes.get? id) := by
    induction graph.nodes with
    | nil => exact fun nodes => rfl
    | cons n rest ih =>
      intro nodes
      rw [List.foldl_cons, ih, List.reverse_cons, List.find?_append, Option.or_assoc]
      congr 1
      unfold OrdDict.insert
      rw [OrdDict.get?_upsert]
      by_cases hid : id = n.id
      · simp [hid]
      · simp [hid, Ne.symm hid]
  exact (hfold .empty).trans (Option.or_none)

theorem keys_nodeMap (graph : PipelineGraph F) :
    (nodeMap graph).keys = firsts (graph.nodes.map fun n => n.id) := by
  have hfold : ∀ nodes : OrdDict String (GraphNode F),
      (graph.nodes.foldl (fun nodes n => nodes.insert n.id n) nodes).keys =
        (graph.nodes.map fun n => n.id).foldl register nodes.keys := by
    induction graph.nodes with
    | nil => exact fun nodes => rfl
    | cons n rest ih =>
      intro nodes
      rw [List.foldl_cons, ih, List.map_cons, List.foldl_cons]
      congr 1
      exact OrdDict.keys_upsert ..
  exact hfold .empty

/-- Nodes left out by their ids are left out of the map. -/
theorem nodeMap_filter (graph : PipelineGraph F) (edges : List GraphEdge) (p : String → Bool) :
    nodeMap { graph with nodes := graph.nodes.filter fun n => p n.id, edges := edges } =
      (nodeMap graph).filterKeys p := by
  refine OrdDict.ext_get? ?_ fun id => ?_
  · rw [OrdDict.keys_filterKeys, keys_nodeMap, keys_nodeMap, ← firsts_filter, List.filter_map]
    rfl
  · rw [OrdDict.get?_filterKeys, get?_nodeMap, get?_nodeMap]
    unfold PipelineGraph.node_map
    rw [← List.filter_reverse, List.find?_filter]
    split_ifs with hid
    · congr 1
      funext n
      by_cases hn : n.id = id
      · simp [hn, hid]
      · simp [hn]
    · refine List.find?_eq_none.mpr fun n _ => ?_
      by_cases hn : n.id = id
      · simp [hn, hid]
      · simp [hn]

/-! ### Preparing a lineage again -/

/-- The lookups of an order read only the nodes of the order. -/
theorem lookupsOf_filterKeys (nodes : OrdDict String (GraphNode F)) (relevant : List GraphEdge)
    {order : List String} {p : String → Bool} (h : ∀ id ∈ order, p id = true) :
    lookupsOf (nodes.filterKeys p) relevant order =
      { lookupsOf nodes relevant order with node_map := nodes.entries.filter fun e => p e.1 } := by
  have hnames : (order.filterMap fun id =>
      ((nodes.filterKeys p).get? id).map fun node => (id, sanitizeFuncName node.data.label)) =
        order.filterMap fun id =>
          (nodes.get? id).map fun node => (id, sanitizeFuncName node.data.label) := by
    refine List.filterMap_congr fun id hid => ?_
    rw [OrdDict.get?_filterKeys, if_pos (h id hid)]
  unfold lookupsOf
  rw [hnames]
  rfl

/-- The lineage of a run, as a graph of its own, is prepared as it was in the whole graph. -/
theorem prepareGraph_sourceLineageGraph
    (h : prepareGraph reported submodels graph target scenario = .ok prepared) :
    ∃ lineage, sourceLineageGraph reported submodels graph target scenario = .ok lineage ∧
      prepareGraph reported submodels lineage none scenario =
        .ok { prepared with
          node_map := prepared.node_map.filter fun e => e.1 ∈ prepared.order } := by
  obtain ⟨edges, order, hprune, hsort, rfl⟩ := prepareGraph_eq_ok_iff.mp h
  obtain ⟨-, hmem⟩ := order_spec h hprune
  have hknown := known_of_topoSortIds hsort
  set relevant := relevantEdges (neededFor target (nodeMap graph) edges) edges with hrelevant
  have hends : ∀ e ∈ relevant, e.source ∈ order ∧ e.target ∈ order := by
    intro e he
    obtain ⟨hsource, htarget⟩ := hknown (link e) (List.mem_map.mpr ⟨e, he, rfl⟩)
    rw [List.mem_filter, decide_eq_true_eq] at hsource htarget
    exact ⟨(hmem _).mpr hsource, (hmem _).mpr htarget⟩
  have hmap := nodeMap_filter graph relevant fun id => id ∈ order
  have hkeys : (nodeMap graph).keys.filter (fun x => x ∈ order) =
      (nodeMap graph).keys.filter fun x => x ∈ neededFor target (nodeMap graph) edges := by
    refine List.filter_congr fun x hx => decide_eq_decide.mpr ((hmem x).trans ?_)
    exact ⟨fun h => h.2, fun h => ⟨hx, h⟩⟩
  refine ⟨{ graph with nodes := graph.nodes.filter fun n => n.id ∈ order, edges := relevant },
    ?_, ?_⟩
  · unfold sourceLineageGraph
    rw [h]
    rfl
  have hall : relevantEdges (nodeMap
      { graph with nodes := graph.nodes.filter fun n => n.id ∈ order, edges := relevant }
        ).keys.toFinset relevant = relevant := by
    refine List.filter_eq_self.mpr fun e he => decide_eq_true ?_
    rw [hmap, OrdDict.keys_filterKeys, List.mem_toFinset, List.mem_toFinset, List.mem_filter,
      List.mem_filter, decide_eq_true_eq, decide_eq_true_eq]
    obtain ⟨hsource, htarget⟩ := hends e he
    exact ⟨⟨((hmem _).mp hsource).1, hsource⟩, ((hmem _).mp htarget).1, htarget⟩
  refine prepareGraph_eq_ok_iff.mpr ⟨relevant, order, ?_, ?_, ?_⟩
  · rw [hmap]
    exact prune_kept hprune (fun e he => (List.mem_filter.mp he).1)
      fun e he => decide_eq_true (hends e he).1
  · rw [topoSortIds_whole, hall, hmap, OrdDict.keys_filterKeys, hkeys]
    exact hsort
  · rw [neededFor, hall, hmap]
    exact (lookupsOf_filterKeys (nodeMap graph) relevant fun id hid => decide_eq_true hid).symm

theorem sourceLineageGraph_switched : ∃ prepared,
    prepareGraph (fun _ => []) (fun _ => none) switched (some "switch") "live" = .ok prepared ∧
    ∃ lineage, sourceLineageGraph (fun _ => []) (fun _ => none) switched (some "switch") "live" =
        .ok lineage ∧
      prepareGraph (fun _ => []) (fun _ => none) lineage none "live" =
        .ok { prepared with
          node_map := prepared.node_map.filter fun e => e.1 ∈ prepared.order } :=
  have h : prepareGraph (fun _ => []) (fun _ => none) switched (some "switch") "live" = .ok _ := rfl
  ⟨_, h, prepareGraph_sourceLineageGraph h⟩

/-! ### The checks of a cache key -/

theorem lookup_entries (nodes : OrdDict String (GraphNode F)) (id : String) :
    nodes.entries.lookup id = nodes.get? id := by
  unfold OrdDict.get?
  induction nodes.entries with
  | nil => rfl
  | cons e entries ih =>
    rw [List.lookup_cons, Assoc.get?_cons]
    by_cases hid : e.1 = id
    · rw [if_pos hid, hid, beq_self_eq_true]
    · rw [if_neg hid, beq_false_of_ne (Ne.symm hid)]
      exact ih

section Checks

variable (S : Fingerprint.Setting F) {req : LineageCacheKeyRequest F}

/-- The nodes of a prepared graph are the graph's own. -/
theorem relevantNodes_nodeMap (hmap : req.prepared.node_map = (nodeMap req.graph).entries)
    {ids : List String} (hids : ∀ id ∈ ids, id ∈ (nodeMap req.graph).keys) :
    Fingerprint.relevantNodes S req ids = .ok (ids.filterMap req.graph.node_map) := by
  induction ids with
  | nil => rfl
  | cons id ids ih =>
    obtain ⟨node, hnode⟩ := OrdDict.mem_keys_iff.mp (hids id List.mem_cons_self)
    have hgraph := hnode
    rw [get?_nodeMap] at hgraph
    have hrest := ih fun id' hid' => hids id' (List.mem_cons_of_mem id hid')
    unfold Fingerprint.relevantNodes
    rw [hmap, lookup_entries, hnode, hgraph, List.filterMap_cons, hgraph]
    simp only [ne_eq, not_true_eq_false, if_false, hrest]
    rfl

/-- Edges of the graph between ordered nodes pass their checks. -/
theorem checkRelevantEdges_eq_ok {relevant : List GraphEdge}
    (hin : ∀ e ∈ relevant, e ∈ req.graph.edges)
    (hends : ∀ e ∈ relevant, e.source ∈ req.prepared.order ∧ e.target ∈ req.prepared.order) :
    Fingerprint.checkRelevantEdges S req relevant = .ok () := by
  induction relevant with
  | nil => rfl
  | cons e relevant ih =>
    obtain ⟨hsource, htarget⟩ := hends e List.mem_cons_self
    have hcontains : (req.graph.edges.map fun e => Fingerprint.canonicalJson S
        (Fingerprint.lineageEdgeIdentity e)).contains
          (Fingerprint.canonicalJson S (Fingerprint.lineageEdgeIdentity e)) = true :=
      List.contains_iff_mem.mpr (List.mem_map.mpr ⟨e, hin e List.mem_cons_self, rfl⟩)
    unfold Fingerprint.checkRelevantEdges
    rw [if_neg (by rw [hcontains]; decide), if_neg fun h =>
      h.elim (absurd hsource) (absurd htarget)]
    exact ih (fun e' he' => hin e' (List.mem_cons_of_mem e he'))
      fun e' he' => hends e' (List.mem_cons_of_mem e he')

/-- What is prepared for a target is never refused its cache key by the checks on a lineage,
unless the target is no node. -/
theorem validateLineageRequest_prepareGraph
    (h : prepareGraph reported submodels req.graph req.target_node_id req.source = .ok prepared)
    (hreq : req.prepared = prepared.toPreparedGraph) :
    Fingerprint.validateLineageRequest S req =
      if ∃ t ∈ req.target_node_id, t ∉ (nodeMap req.graph).keys then .error .targetNotRelevant
      else .ok (prepared.order.filterMap req.graph.node_map, prepared.relevant_edges) := by
  obtain ⟨edges, order, hprune, hsort, rfl⟩ := prepareGraph_eq_ok_iff.mp h
  obtain ⟨hnodup, hmem⟩ := order_spec h hprune
  dsimp only [lookupsOf] at hnodup hmem
  have hknown := known_of_topoSortIds hsort
  set relevant := relevantEdges (neededFor req.target_node_id (nodeMap req.graph) edges) edges
  have horder : req.prepared.order = order := congrArg (fun q => q.order) hreq
  have hrelevant : req.prepared.relevant_edges = relevant :=
    congrArg (fun q => q.relevant_edges) hreq
  have hmap : req.prepared.node_map = (nodeMap req.graph).entries :=
    congrArg (fun q => q.node_map) hreq
  have hnodes := relevantNodes_nodeMap S hmap fun id hid => ((hmem id).mp hid).1
  have hedges : Fingerprint.checkRelevantEdges S req relevant = .ok () := by
    refine checkRelevantEdges_eq_ok S
      (fun e he => mem_of_prune hprune (List.mem_filter.mp he).1) fun e he => ?_
    obtain ⟨hsource, htarget⟩ := hknown (link e) (List.mem_map.mpr ⟨e, he, rfl⟩)
    rw [List.mem_filter, decide_eq_true_eq] at hsource htarget
    rw [horder]
    exact ⟨(hmem _).mpr hsource, (hmem _).mpr htarget⟩
  have htarget : (∃ t ∈ req.target_node_id, t ∉ order) ↔
      ∃ t ∈ req.target_node_id, t ∉ (nodeMap req.graph).keys := by
    refine exists_congr fun t => and_congr_right fun ht => not_congr ((hmem t).trans ?_)
    refine ⟨fun h => h.1, fun hkey => ⟨hkey, ?_⟩⟩
    rw [Option.mem_def] at ht
    rw [ht]
    by_cases hempty : t = ""
    · rw [hempty]
      exact List.mem_toFinset.mpr (hempty ▸ hkey)
    · rw [neededFor_some hempty]
      exact self_mem_lineage t
  unfold Fingerprint.validateLineageRequest
  rw [horder, hrelevant, hnodup.dedup, if_neg (not_not.mpr rfl), hnodes, hedges]
  simp only [htarget]
  rfl

/-- The preview of the switch, of what is prepared for it. -/
def previewSwitch : Fingerprint.LineageCacheKeyRequest ℤ where
  graph := switched
  prepared :=
    ⟨(nodeMap switched).entries, ["live", "switch"], [⟨"e1", "live", "switch", none, none⟩]⟩
  target_node_id := some "switch"
  source := "live"
  requested_columns := none
  initial_column_limit := none
  row_limit := some 100
  port_label := none
  contract_fingerprint := ""
  selected_live_switch_path := []
  runtime_input_fingerprint := ""
  execution_semantics_version := "1"

theorem validateLineageRequest_switched : ∃ prepared,
    prepareGraph (fun _ => []) (fun _ => none) switched (some "switch") "live" = .ok prepared ∧
    previewSwitch.prepared = prepared.toPreparedGraph ∧
    Fingerprint.validateLineageRequest Fingerprint.plainSetting previewSwitch =
      if ∃ t ∈ previewSwitch.target_node_id, t ∉ (nodeMap previewSwitch.graph).keys then
        .error .targetNotRelevant
      else .ok (prepared.order.filterMap previewSwitch.graph.node_map, prepared.relevant_edges) :=
  have h : prepareGraph (fun _ => []) (fun _ => none) previewSwitch.graph
      previewSwitch.target_node_id previewSwitch.source = .ok _ := rfl
  ⟨_, h, rfl, validateLineageRequest_prepareGraph Fingerprint.plainSetting h rfl⟩

end Checks

end Haute.Lineage
