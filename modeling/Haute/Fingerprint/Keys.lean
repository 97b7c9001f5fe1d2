import Haute.Fingerprint.Records

/-!
# Cache keys

`graph_fingerprint` and `lineage_cache_key`: the payload of records, its canonical JSON, and
the hash of its bytes. A memo keeps the record of each node and edge object it has seen, and
serves it again for the same object only (`Memo.Sound`), so a key is the same with a memo as
without one (`graphFingerprint_eq`).

The hash, the texts of floats, the installed Polars and the files of the project's `utility`
package are parameters, read anew by each call.
-/

namespace Haute.Fingerprint

open Data

variable {F : Type}

/-- What a call reads outside the graph. -/
structure Surroundings (F : Type) where
  /-- The hashes of the `utility` package the graph's preamble imports. -/
  utilityEntries : PipelineGraph F → List (Json F)
  /-- `polars_version()`. -/
  polarsVersion : String

/-- Python's `is` on node and edge objects: one object is one value. -/
structure ObjectIdentity (F : Type) where
  node : GraphNode F → GraphNode F → Bool
  node_eq : ∀ {m n}, node m n = true → m = n
  edge : GraphEdge → GraphEdge → Bool
  edge_eq : ∀ {d e}, edge d e = true → d = e

/-- What a key is computed with. -/
structure Setting (F : Type) where
  /-- `float.__repr__`, and JSON's tokens for the floats it has none for. -/
  floats : FloatText F
  /-- `content_hash_bytes`. -/
  contentHashBytes : ByteArray → String
  analysis : SourceAnalysis F
  identity : ObjectIdentity F

variable (S : Setting F)

/-- `canonical_json`. -/
def canonicalJson (v : Json F) : String := v.dumps S.floats

/-- The hash of a document's canonical bytes. -/
def digest (v : Json F) : String := S.contentHashBytes (canonicalJson S v).toUTF8

/-- `GraphFingerprintMemo`, its records of nodes and edges. -/
structure Memo (F : Type) where
  graph_node_records : String → Option (GraphNode F × Json F)
  graph_edge_records : String → Option (GraphEdge × Json F × String)

/-- `GraphFingerprintMemo()`. -/
def Memo.empty : Memo F := ⟨fun _ => none, fun _ => none⟩

/-- Keeps the record of a node. -/
def Memo.keepNode (memo : Memo F) (node : GraphNode F) (record : Json F) : Memo F :=
  { memo with graph_node_records :=
      Function.update memo.graph_node_records node.id (some (node, record)) }

/-- Keeps the record of an edge and its text. -/
def Memo.keepEdge (memo : Memo F) (edge : GraphEdge) (record : Json F) (text : String) : Memo F :=
  { memo with graph_edge_records :=
      Function.update memo.graph_edge_records edge.id (some (edge, record, text)) }

/-- `_canonical_node_record`. -/
def canonicalNodeRecord (node : GraphNode F) : Option (Memo F) → Json F × Option (Memo F)
  | none => (lineageNodeIdentity node, none)
  | some memo =>
    match (memo.graph_node_records node.id).filter fun known => S.identity.node known.1 node with
    | some known => (known.2, some memo)
    | none => (lineageNodeIdentity node, some (memo.keepNode node (lineageNodeIdentity node)))

/-- `_canonical_edge_record`. -/
def canonicalEdgeRecord (edge : GraphEdge) : Option (Memo F) → (Json F × String) × Option (Memo F)
  | none => ((lineageEdgeIdentity edge, canonicalJson S (lineageEdgeIdentity edge)), none)
  | some memo =>
    match (memo.graph_edge_records edge.id).filter fun known => S.identity.edge known.1 edge with
    | some known => ((known.2.1, known.2.2), some memo)
    | none =>
      let record := lineageEdgeIdentity edge
      let text := canonicalJson S record
      ((record, text), some (memo.keepEdge edge record text))

/-- A record for each element, the memo passed along. -/
def recordAll {α β : Type} (record : α → Option (Memo F) → β × Option (Memo F)) :
    List α → Option (Memo F) → List β × Option (Memo F)
  | [], memo => ([], memo)
  | x :: xs, memo =>
    let (first, memo) := record x memo
    let (rest, memo) := recordAll record xs memo
    (first :: rest, memo)

/-- `sorted(graph.nodes, key=lambda n: n.id)`. -/
def sortedNodes (nodes : List (GraphNode F)) : List (GraphNode F) :=
  nodes.mergeSort fun a b => decide (a.id ≤ b.id)

/-- Edge records in the order of their texts. -/
def sortedRecords (records : List (Json F × String)) : List (Json F) :=
  (records.mergeSort fun a b => decide (a.2 ≤ b.2)).map Prod.fst

/-- The payload of a graph's structure. -/
def structurePayload (nodes edges : List (Json F)) : Json F :=
  checkedCacheInputs .graphStructure [("nodes", .arr nodes), ("edges", .arr edges)] rfl

/-- `_graph_base_fingerprint`. -/
def graphBaseFingerprint (graph : PipelineGraph F) (memo : Option (Memo F)) :
    String × Option (Memo F) :=
  let (nodes, memo) := recordAll (canonicalNodeRecord S) (sortedNodes graph.nodes) memo
  let (edges, memo) := recordAll (canonicalEdgeRecord S) graph.edges memo
  (digest S (structurePayload nodes (sortedRecords edges)), memo)

/-- `preamble_execution_fingerprint`. -/
def preambleExecutionFingerprint (around : Surroundings F) (graph : PipelineGraph F) :
    Option String :=
  let preamble := graph.preamble.getD ""
  if pyStrip preamble = "" then none
  else
    let text : Json F := .obj
      [("kind", .str "preamble"), ("hash", .str (S.contentHashBytes preamble.toUTF8))]
    let utility : List (Json F) :=
      if S.analysis.preambleImportsUtility preamble then
        [.obj [("kind", .str "utility"), ("entries", .arr (around.utilityEntries graph))]]
      else []
    some (digest S (.arr (text :: utility)))

/-- The payload of a graph's execution. -/
def executionPayload (around : Surroundings F) (graph : PipelineGraph F) (base : String)
    (extra_keys : List String) : Json F :=
  checkedCacheInputs .graphExecution
    [("base_fingerprint", .str base),
      ("preamble_fingerprint", optional (preambleExecutionFingerprint S around graph)),
      ("global_constants", globalConstantsIdentity graph
        (graphConstantReads S.analysis graph.nodes)),
      ("source_file", optional graph.source_file),
      ("extra_keys", .arr (extra_keys.map .str))] rfl

/-- `graph_fingerprint`. -/
def graphFingerprint (around : Surroundings F) (graph : PipelineGraph F) (extra_keys : List String)
    (memo : Option (Memo F)) : String × Option (Memo F) :=
  let (base, memo) := graphBaseFingerprint S graph memo
  ("v" ++ toString algoVersion ++ ":" ++ digest S (executionPayload S around graph base extra_keys),
    memo)

/-! ### What a memo keeps -/

/-- A memo holds the record of each object it has seen, under whichever id. -/
structure Memo.Sound (memo : Memo F) : Prop where
  nodes : ∀ id node record, memo.graph_node_records id = some (node, record) →
    record = lineageNodeIdentity node
  edges : ∀ id edge record text, memo.graph_edge_records id = some (edge, record, text) →
    record = lineageEdgeIdentity edge ∧ text = canonicalJson S (lineageEdgeIdentity edge)

variable {S}

theorem Memo.Sound.empty : (Memo.empty : Memo F).Sound S where
  nodes _ _ _ h := by cases h
  edges _ _ _ _ h := by cases h

theorem Memo.Sound.keepNode {memo : Memo F} (h : memo.Sound S) (node : GraphNode F) :
    (memo.keepNode node (lineageNodeIdentity node)).Sound S where
  nodes id known record hget := by
    by_cases hid : id = node.id
    · subst hid
      simp only [Memo.keepNode, Function.update_self] at hget
      cases hget
      rfl
    · simp only [Memo.keepNode, Function.update_of_ne hid] at hget
      exact h.nodes id known record hget
  edges := h.edges

theorem Memo.Sound.keepEdge {memo : Memo F} (h : memo.Sound S) (edge : GraphEdge) :
    (memo.keepEdge edge (lineageEdgeIdentity edge)
      (canonicalJson S (lineageEdgeIdentity edge))).Sound S where
  nodes := h.nodes
  edges id known record text hget := by
    by_cases hid : id = edge.id
    · subst hid
      simp only [Memo.keepEdge, Function.update_self] at hget
      cases hget
      exact ⟨rfl, rfl⟩
    · simp only [Memo.keepEdge, Function.update_of_ne hid] at hget
      exact h.edges id known record text hget

/-- Whatever memo is at hand is sound. -/
def SoundMemo (S : Setting F) (memo : Option (Memo F)) : Prop := ∀ m ∈ memo, m.Sound S

theorem canonicalNodeRecord_spec {memo : Option (Memo F)} (h : SoundMemo S memo)
    (node : GraphNode F) :
    (canonicalNodeRecord S node memo).1 = lineageNodeIdentity node ∧
      SoundMemo S (canonicalNodeRecord S node memo).2 := by
  cases memo with
  | none => exact ⟨rfl, h⟩
  | some m =>
    have hm : m.Sound S := h m rfl
    unfold canonicalNodeRecord
    dsimp only
    cases hget : (m.graph_node_records node.id).filter fun known =>
      S.identity.node known.1 node with
    | none =>
      refine ⟨rfl, fun m' hm' => ?_⟩
      cases hm'
      exact hm.keepNode node
    | some known =>
      obtain ⟨hknown, hsame⟩ := Option.filter_eq_some_iff.mp hget
      refine ⟨?_, h⟩
      dsimp only
      rw [hm.nodes node.id known.1 known.2 hknown, S.identity.node_eq hsame]

theorem canonicalEdgeRecord_spec {memo : Option (Memo F)} (h : SoundMemo S memo)
    (edge : GraphEdge) :
    (canonicalEdgeRecord S edge memo).1
        = (lineageEdgeIdentity edge, canonicalJson S (lineageEdgeIdentity edge)) ∧
      SoundMemo S (canonicalEdgeRecord S edge memo).2 := by
  cases memo with
  | none => exact ⟨rfl, h⟩
  | some m =>
    have hm : m.Sound S := h m rfl
    unfold canonicalEdgeRecord
    dsimp only
    cases hget : (m.graph_edge_records edge.id).filter fun known =>
      S.identity.edge known.1 edge with
    | none =>
      refine ⟨rfl, fun m' hm' => ?_⟩
      cases hm'
      exact hm.keepEdge edge
    | some known =>
      obtain ⟨hknown, hsame⟩ := Option.filter_eq_some_iff.mp hget
      obtain ⟨hrecord, htext⟩ := hm.edges edge.id known.1 known.2.1 known.2.2 hknown
      refine ⟨?_, h⟩
      dsimp only
      rw [hrecord, htext, S.identity.edge_eq hsame]

theorem recordAll_spec {α β : Type} {record : α → Option (Memo F) → β × Option (Memo F)} {f : α → β}
    (hrecord : ∀ x memo, SoundMemo S memo → (record x memo).1 = f x ∧
      SoundMemo S (record x memo).2) :
    ∀ (xs : List α) {memo : Option (Memo F)}, SoundMemo S memo →
      (recordAll record xs memo).1 = xs.map f ∧ SoundMemo S (recordAll record xs memo).2
  | [], _, h => ⟨rfl, h⟩
  | x :: xs, memo, h => by
    obtain ⟨hx, hmemo⟩ := hrecord x memo h
    obtain ⟨hxs, hmemo⟩ := recordAll_spec hrecord xs hmemo
    exact ⟨by simp only [recordAll, hx, hxs, List.map_cons], hmemo⟩

/-- The edges' records in the order of their texts. -/
def sortedEdgeRecords (S : Setting F) (edges : List GraphEdge) : List (Json F) :=
  sortedRecords
    (edges.map fun e => (lineageEdgeIdentity e, canonicalJson S (lineageEdgeIdentity e)))

/-- The structure's payload as the graph alone determines it. -/
def basePayload (S : Setting F) (graph : PipelineGraph F) : Json F :=
  structurePayload ((sortedNodes graph.nodes).map lineageNodeIdentity)
    (sortedEdgeRecords S graph.edges)

theorem graphBaseFingerprint_spec {memo : Option (Memo F)} (h : SoundMemo S memo)
    (graph : PipelineGraph F) :
    (graphBaseFingerprint S graph memo).1 = digest S (basePayload S graph) ∧
      SoundMemo S (graphBaseFingerprint S graph memo).2 := by
  obtain ⟨hnodes, hmemo⟩ := recordAll_spec (fun node _ hm => canonicalNodeRecord_spec hm node)
    (sortedNodes graph.nodes) h
  obtain ⟨hedges, hmemo⟩ := recordAll_spec (fun edge _ hm => canonicalEdgeRecord_spec hm edge)
    graph.edges hmemo
  exact ⟨by simp only [graphBaseFingerprint, hnodes, hedges]; rfl, hmemo⟩

/-- **A memo changes no key**, and what it keeps stays right for the next graph. -/
theorem graphFingerprint_spec {memo : Option (Memo F)} (h : SoundMemo S memo)
    (around : Surroundings F) (graph : PipelineGraph F) (extra_keys : List String) :
    (graphFingerprint S around graph extra_keys memo).1 = "v" ++ toString algoVersion ++ ":" ++
        digest S (executionPayload S around graph (digest S (basePayload S graph)) extra_keys) ∧
      SoundMemo S (graphFingerprint S around graph extra_keys memo).2 := by
  obtain ⟨hbase, hmemo⟩ := graphBaseFingerprint_spec h graph
  exact ⟨by simp only [graphFingerprint, hbase], hmemo⟩

/-- The memos that calls leave, from a fresh one. -/
inductive Reached (S : Setting F) : Option (Memo F) → Prop where
  | none : Reached S none
  | fresh : Reached S (some Memo.empty)
  | call {memo : Option (Memo F)} (around : Surroundings F) (graph : PipelineGraph F)
      (extra_keys : List String) (h : Reached S memo) :
      Reached S (graphFingerprint S around graph extra_keys memo).2

theorem Reached.sound {memo : Option (Memo F)} (h : Reached S memo) : SoundMemo S memo := by
  induction h with
  | none => exact fun _ hm => by cases hm
  | fresh =>
    intro m hm
    cases hm
    exact Memo.Sound.empty
  | call around graph extra_keys _ ih => exact (graphFingerprint_spec ih around graph extra_keys).2

/-! ### Lineage keys -/

/-- `PreparedGraph`, its public shape. -/
structure PreparedGraph (F : Type) where
  node_map : List (String × GraphNode F)
  order : List String
  relevant_edges : List GraphEdge

/-- A live switch and its incoming edges, as a request carries them. -/
structure LiveSwitchSelection (F : Type) where
  switch_id : String
  incoming_edges : List (Json F)

/-- `LineageCacheKeyRequest`. -/
structure LineageCacheKeyRequest (F : Type) where
  graph : PipelineGraph F
  prepared : PreparedGraph F
  target_node_id : Option String
  source : String
  requested_columns : Option (List String)
  initial_column_limit : Option ℕ
  row_limit : Option ℕ
  port_label : Option String
  contract_fingerprint : String
  selected_live_switch_path : List (LiveSwitchSelection F)
  runtime_input_fingerprint : String
  execution_semantics_version : String

/-- What a request is refused for. -/
inductive LineageError where
  | duplicateNodeId | missingRelevantNode | relevantNodeDiffers | relevantEdgeDiffers
  | edgeLeavesLineage | targetNotRelevant | emptyColumn
  deriving DecidableEq

/-- The text of a `ValueError`. -/
def LineageError.message : LineageError → String
  | duplicateNodeId => "prepared graph does not match: duplicate node id"
  | missingRelevantNode => "prepared graph does not match: missing relevant node"
  | relevantNodeDiffers => "prepared graph does not match: relevant node differs"
  | relevantEdgeDiffers => "prepared graph does not match: relevant edge differs"
  | edgeLeavesLineage => "prepared graph does not match: edge leaves lineage"
  | targetNotRelevant => "prepared graph does not match: target is not relevant"
  | emptyColumn => "requested_columns must contain only non-empty strings"

variable (S)

/-- The relevant nodes, each the graph's own, in the prepared order. -/
def relevantNodes (req : LineageCacheKeyRequest F) :
    List String → Except LineageError (List (GraphNode F))
  | [] => .ok []
  | id :: ids =>
    match req.prepared.node_map.lookup id, req.graph.node_map id with
    | some prepared, some node =>
      if canonicalJson S (lineageNodeIdentity prepared) ≠ canonicalJson S (lineageNodeIdentity node)
      then .error .relevantNodeDiffers
      else (relevantNodes req ids).map (node :: ·)
    | _, _ => .error .missingRelevantNode

/-- The checks of the relevant edges. -/
def checkRelevantEdges (req : LineageCacheKeyRequest F) : List GraphEdge → Except LineageError Unit
  | [] => .ok ()
  | edge :: edges =>
    if (req.graph.edges.map fun e => canonicalJson S (lineageEdgeIdentity e)).contains
        (canonicalJson S (lineageEdgeIdentity edge)) = false then .error .relevantEdgeDiffers
    else if edge.source ∉ req.prepared.order ∨ edge.target ∉ req.prepared.order then
      .error .edgeLeavesLineage
    else checkRelevantEdges req edges

/-- `_validate_lineage_request`. -/
def validateLineageRequest (req : LineageCacheKeyRequest F) :
    Except LineageError (List (GraphNode F) × List GraphEdge) :=
  if req.prepared.order.dedup.length ≠ req.prepared.order.length then .error .duplicateNodeId
  else
    match relevantNodes S req req.prepared.order,
      checkRelevantEdges S req req.prepared.relevant_edges with
    | .error e, _ => .error e
    | .ok _, .error e => .error e
    | .ok nodes, .ok () =>
      if ∃ target ∈ req.target_node_id, target ∉ req.prepared.order then .error .targetNotRelevant
      else .ok (nodes, req.prepared.relevant_edges)

/-- `_normalise_requested_columns`: the columns, each where it first stands. -/
def normaliseRequestedColumns : Option (List String) → Except LineageError (Option (List String))
  | none => .ok none
  | some columns =>
    if "" ∈ columns then .error .emptyColumn else .ok (some columns.reverse.dedup.reverse)

/-- `None` or a number, as JSON. -/
def optionalNat : Option ℕ → Json F
  | none => .scalar .null
  | some n => .scalar (.int n)

/-- The record of a live switch's selection. -/
def liveSwitchRecord (selection : LiveSwitchSelection F) : Json F :=
  checkedCacheIdentityRecord .liveSwitchSelection
    [("switch_id", .str selection.switch_id), ("incoming_edges", .arr selection.incoming_edges)] rfl

/-- `None` or columns, as JSON. -/
def optionalColumns : Option (List String) → Json F
  | none => .scalar .null
  | some columns => .arr (columns.map .str)

/-- The payload of a lineage key. -/
def lineagePayload (around : Surroundings F) (req : LineageCacheKeyRequest F)
    (nodes : List (GraphNode F)) (edges : List GraphEdge)
    (columns : Option (List String)) : Json F :=
  checkedCacheInputs .previewTrace
    [("preamble", optional req.graph.preamble),
      ("global_constants", globalConstantValuesIdentity req.graph
        (graphConstantReads S.analysis (sortedNodes nodes)) req.source),
      ("source_file", optional req.graph.source_file),
      ("nodes", .arr ((sortedNodes nodes).map lineageNodeIdentity)),
      ("edges", .arr (sortedEdgeRecords S edges)),
      ("target_node_id", optional req.target_node_id),
      ("source", .str req.source),
      ("requested_columns", optionalColumns columns),
      ("initial_column_limit", optionalNat req.initial_column_limit),
      ("row_limit", optionalNat req.row_limit),
      ("port_label", optional req.port_label),
      ("contract_fingerprint", .str req.contract_fingerprint),
      ("selected_live_switch_path", .arr (req.selected_live_switch_path.map liveSwitchRecord)),
      ("runtime_input_fingerprint", .str req.runtime_input_fingerprint),
      ("execution_semantics_version", .str req.execution_semantics_version),
      ("polars_version", .str around.polarsVersion)] rfl

/-- `lineage_cache_key`. -/
def lineageCacheKey (around : Surroundings F) (req : LineageCacheKeyRequest F) :
    Except LineageError String :=
  match validateLineageRequest S req, normaliseRequestedColumns req.requested_columns with
  | .error e, _ => .error e
  | .ok _, .error e => .error e
  | .ok (nodes, edges), .ok columns =>
    .ok ("lineage-preview:v" ++ toString CacheConsumer.previewTrace.version ++ ":" ++
      digest S (lineagePayload S around req nodes edges columns))

end Haute.Fingerprint
