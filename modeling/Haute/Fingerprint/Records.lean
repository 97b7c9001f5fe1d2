import Haute.Data.JsonText
import Haute.Schema.Labels
import Mathlib.Data.Finset.Sort

/-!
# The records a cache key is made of

A pipeline graph, and the JSON records that stand for its nodes, its edges and the global
constants its code reads. Each record has a closed shape (`checkedCacheIdentityRecord`), and
each key's payload another (`checkedCacheInputs`), both checked where they are built.

A config is plain JSON, which `_canonicalise` leaves as it is. What the analyses of node code
find (`SourceAnalysis`) is a parameter: the keys are right whatever they find.
-/

namespace Haute.Fingerprint

open Data

variable {F : Type}

/-! ### The graph -/

/-- `NodeType`. -/
inductive NodeType where
  | apiInput | workbenchInput | workbenchOutput | dataInput | dataOutput | polars | edgeJoin
  | modelScore | banding | ratingStep | output | explore | externalFile | liveSwitch | modelling
  | optimiser | scenarioExpander | optimiserApply | constant | submodel | submodelPort
  deriving DecidableEq

/-- `str(node_type)`. -/
def NodeType.value : NodeType → String
  | apiInput => "apiInput"
  | workbenchInput => "workbenchInput"
  | workbenchOutput => "workbenchOutput"
  | dataInput => "dataInput"
  | dataOutput => "dataOutput"
  | polars => "polars"
  | edgeJoin => "edgeJoin"
  | modelScore => "modelScore"
  | banding => "banding"
  | ratingStep => "ratingStep"
  | output => "output"
  | explore => "explore"
  | externalFile => "externalFile"
  | liveSwitch => "liveSwitch"
  | modelling => "modelling"
  | optimiser => "optimiser"
  | scenarioExpander => "scenarioExpander"
  | optimiserApply => "optimiserApply"
  | constant => "constant"
  | submodel => "submodel"
  | submodelPort => "submodelPort"

/-- The node types, to read one back from its value. -/
def NodeType.all : List NodeType :=
  [apiInput, workbenchInput, workbenchOutput, dataInput, dataOutput, polars, edgeJoin, modelScore,
    banding, ratingStep, output, explore, externalFile, liveSwitch, modelling, optimiser,
    scenarioExpander, optimiserApply, constant, submodel, submodelPort]

theorem NodeType.value_injective : Function.Injective NodeType.value := by
  have hread : ∀ t : NodeType, NodeType.all.find? (fun u => u.value == t.value) = some t := by
    intro t
    cases t <;> rfl
  intro s t h
  have hs := hread s
  rw [h, hread t] at hs
  exact (Option.some.inj hs).symm

/-- `NodeData`, but for what no key reads. -/
structure NodeData (F : Type) where
  label : String
  nodeType : NodeType
  config : List (String × Json F)

/-- `GraphNode`. -/
structure GraphNode (F : Type) where
  id : String
  data : NodeData F

/-- `GraphEdge`. -/
structure GraphEdge where
  id : String
  source : String
  target : String
  sourceHandle : Option String
  targetHandle : Option String

/-- `GlobalConstantType`. -/
inductive GlobalConstantType where
  | integer | float | text | boolean | date
  deriving DecidableEq

/-- The literal a type is written as. -/
def GlobalConstantType.value : GlobalConstantType → String
  | integer => "integer"
  | float => "float"
  | text => "text"
  | boolean => "boolean"
  | date => "date"

theorem GlobalConstantType.value_injective : Function.Injective GlobalConstantType.value := by
  intro s t h
  cases s <;> cases t <;> first | rfl | exact absurd h (by decide)

/-- `GlobalConstantValue`. -/
inductive GlobalConstantValue (F : Type) where
  | bool (b : Bool)
  | int (n : ℤ)
  | float (x : F)
  | str (s : String)

/-- The value as the payload holds it. -/
def GlobalConstantValue.toJson : GlobalConstantValue F → Json F
  | bool b => .scalar (.bool b)
  | int n => .scalar (.int n)
  | float x => .scalar (.float x)
  | str s => .str s

/-- `GlobalConstant`. -/
structure GlobalConstant (F : Type) where
  name : String
  type : GlobalConstantType
  value : Option (GlobalConstantValue F)
  by_source : Option (List (String × GlobalConstantValue F))

/-- `PipelineGraph`, but for what no key reads. -/
structure PipelineGraph (F : Type) where
  nodes : List (GraphNode F)
  edges : List GraphEdge
  preamble : Option String
  global_constants : List (GlobalConstant F)
  global_constants_error : Option String
  source_file : Option String

/-- `PipelineGraph.node_map`: the last node of an id. -/
def PipelineGraph.node_map (graph : PipelineGraph F) (id : String) : Option (GraphNode F) :=
  graph.nodes.reverse.find? fun n => n.id == id

/-! ### Checked shapes -/

/-- `CacheIdentityRecord`. -/
inductive CacheIdentityRecord where
  | graphNode | graphEdge | liveSwitchSelection | globalConstant | globalConstantValue

/-- `record.value`. -/
def CacheIdentityRecord.value : CacheIdentityRecord → String
  | graphNode => "graph_node"
  | graphEdge => "graph_edge"
  | liveSwitchSelection => "live_switch_selection"
  | globalConstant => "global_constant"
  | globalConstantValue => "global_constant_value"

/-- The fields of `CACHE_IDENTITY_RECORD_CONTRACTS`; every version is 1. -/
def CacheIdentityRecord.fields : CacheIdentityRecord → List String
  | graphNode => ["id", "label", "nodeType", "config"]
  | graphEdge => ["source", "sourceHandle", "target", "targetHandle"]
  | liveSwitchSelection => ["switch_id", "incoming_edges"]
  | globalConstant => ["name", "type", "value", "by_source"]
  | globalConstantValue => ["name", "type", "value", "state"]

/-- `checked_cache_identity_record`, with the check as an argument. -/
def checkedCacheIdentityRecord (record : CacheIdentityRecord) (values : List (String × Json F))
    (_exact : values.map Prod.fst = record.fields) : Json F :=
  .obj (("cache_record_schema",
    .obj [("record", .str record.value), ("version", .scalar (.int 1))]) ::
    values)

theorem CacheIdentityRecord.fields_nodup (record : CacheIdentityRecord) :
    ("cache_record_schema" :: record.fields).Nodup := by
  cases record <;> decide

/-- Records that are equal but for the order of keys agree on each field. -/
theorem checkedCacheIdentityRecord_entry {record : CacheIdentityRecord}
    {vs ws : List (String × Json F)} {hv : vs.map Prod.fst = record.fields}
    {hw : ws.map Prod.fst = record.fields}
    (h : (checkedCacheIdentityRecord record vs hv).sortKeys
      = (checkedCacheIdentityRecord record ws hw).sortKeys)
    {i : ℕ} {k : String} {v w : Json F} (hkv : vs[i]? = some (k, v)) (hkw : ws[i]? = some (k, w)) :
    v.sortKeys = w.sortKeys := by
  refine Json.sortKeys_obj_entry (i := i + 1) (j := i + 1) h ?_ hkv hkw
  rw [List.map_cons, hw]
  exact record.fields_nodup

/-- `CacheConsumer`, those whose keys are built here. -/
inductive CacheConsumer where
  | graphStructure | graphExecution | previewTrace

/-- `consumer.value`. -/
def CacheConsumer.value : CacheConsumer → String
  | graphStructure => "graph_structure"
  | graphExecution => "graph_execution"
  | previewTrace => "preview_trace"

/-- `ALGO_VERSION`. -/
def algoVersion : ℕ := 9

/-- The versions of `CACHE_CONSUMER_CONTRACTS`. -/
def CacheConsumer.version : CacheConsumer → ℕ
  | graphStructure => 2
  | graphExecution => algoVersion
  | previewTrace => 5

/-- The fields of `CACHE_CONSUMER_CONTRACTS`. -/
def CacheConsumer.fields : CacheConsumer → List String
  | graphStructure => ["nodes", "edges"]
  | graphExecution =>
    ["base_fingerprint", "preamble_fingerprint", "global_constants", "source_file", "extra_keys"]
  | previewTrace =>
    ["preamble", "global_constants", "source_file", "nodes", "edges", "target_node_id", "source",
      "requested_columns", "initial_column_limit", "row_limit", "port_label",
        "contract_fingerprint",
      "selected_live_switch_path", "runtime_input_fingerprint", "execution_semantics_version",
      "polars_version"]

/-- `checked_cache_inputs(...).payload`, with the check as an argument. -/
def checkedCacheInputs (consumer : CacheConsumer) (values : List (String × Json F))
    (_exact : values.map Prod.fst = consumer.fields) : Json F :=
  .obj [("consumer", .str consumer.value), ("schema_version", .scalar (.int consumer.version)),
    ("inputs", .obj values)]

theorem CacheConsumer.fields_nodup (consumer : CacheConsumer) : consumer.fields.Nodup := by
  cases consumer <;> decide

/-- Payloads that are equal but for the order of keys agree on each field. -/
theorem checkedCacheInputs_entry {consumer : CacheConsumer} {vs ws : List (String × Json F)}
    {hv : vs.map Prod.fst = consumer.fields} {hw : ws.map Prod.fst = consumer.fields}
    (h : (checkedCacheInputs consumer vs hv).sortKeys =
      (checkedCacheInputs consumer ws hw).sortKeys)
    {i : ℕ} {k : String} {v w : Json F} (hkv : vs[i]? = some (k, v)) (hkw : ws[i]? = some (k, w)) :
    v.sortKeys = w.sortKeys := by
  have hnodup : (["consumer", "schema_version", "inputs"] : List String).Nodup := by decide
  have hinputs : (Json.obj vs).sortKeys = (Json.obj ws).sortKeys :=
    Json.sortKeys_obj_entry (i := 2) (j := 2) h hnodup rfl rfl
  exact Json.sortKeys_obj_entry hinputs (hw ▸ consumer.fields_nodup) hkv hkw

/-! ### Nodes and edges -/

/-- `PRESENTATION_CONFIG_FIELDS`. -/
def presentationConfigFields : NodeType → List String
  | .modelScore | .optimiserApply => ["experiment_id", "experiment_name", "run_name"]
  | .explore => ["overview", "pivot_formulas", "pivots", "charts"]
  | _ => []

/-- `_node_config_for_execution_fingerprint`. -/
def nodeConfigForExecutionFingerprint (node : GraphNode F) : List (String × Json F) :=
  node.data.config.filter fun e => decide (e.1 ∉ presentationConfigFields node.data.nodeType)

/-- `_lineage_node_identity`, the record of a node in every key. -/
def lineageNodeIdentity (node : GraphNode F) : Json F :=
  checkedCacheIdentityRecord .graphNode
    [("id", .str node.id), ("label", .str node.data.label),
      ("nodeType", .str node.data.nodeType.value),
      ("config", .obj (nodeConfigForExecutionFingerprint node))] rfl

/-- `None` or a string, as JSON. -/
def optional : Option String → Json F
  | none => .scalar .null
  | some s => .str s

/-- `_lineage_edge_identity`, the record of an edge in every key. -/
def lineageEdgeIdentity (edge : GraphEdge) : Json F :=
  checkedCacheIdentityRecord .graphEdge
    [("source", .str edge.source), ("sourceHandle", optional edge.sourceHandle),
      ("target", .str edge.target), ("targetHandle", optional edge.targetHandle)] rfl

theorem optional_inj {a b : Option String}
    (h : (optional a : Json F).sortKeys = (optional b).sortKeys) : a = b := by
  cases a <;> cases b <;> simp [optional] at h ⊢
  exact h

/-- A node as execution sees it: its config without what only the editor presents, up to the
order of keys. -/
def GraphNode.execution (node : GraphNode F) : String × String × NodeType × Json F :=
  (node.id, node.data.label, node.data.nodeType,
    (Json.obj (nodeConfigForExecutionFingerprint node)).sortKeys)

/-- An edge as execution sees it. -/
def GraphEdge.wiring (edge : GraphEdge) : String × Option String × String × Option String :=
  (edge.source, edge.sourceHandle, edge.target, edge.targetHandle)

theorem execution_of_identity {m n : GraphNode F}
    (h : (lineageNodeIdentity m).sortKeys = (lineageNodeIdentity n).sortKeys) :
    m.execution = n.execution := by
  have hid := checkedCacheIdentityRecord_entry (i := 0) h rfl rfl
  have hlabel := checkedCacheIdentityRecord_entry (i := 1) h rfl rfl
  have htype := checkedCacheIdentityRecord_entry (i := 2) h rfl rfl
  have hconfig := checkedCacheIdentityRecord_entry (i := 3) h rfl rfl
  rw [Json.sortKeys_str_inj] at hid hlabel htype
  rw [GraphNode.execution, GraphNode.execution, hid, hlabel,
    NodeType.value_injective htype, hconfig]

theorem wiring_of_identity {d e : GraphEdge}
    (h : (lineageEdgeIdentity d : Json F).sortKeys = (lineageEdgeIdentity e).sortKeys) :
    d.wiring = e.wiring := by
  have hsource := checkedCacheIdentityRecord_entry (i := 0) h rfl rfl
  have hfrom := checkedCacheIdentityRecord_entry (i := 1) h rfl rfl
  have htarget := checkedCacheIdentityRecord_entry (i := 2) h rfl rfl
  have hto := checkedCacheIdentityRecord_entry (i := 3) h rfl rfl
  rw [Json.sortKeys_str_inj] at hsource htarget
  rw [GraphEdge.wiring, GraphEdge.wiring, hsource, htarget, optional_inj hfrom, optional_inj hto]

theorem identity_of_wiring {d e : GraphEdge} (h : d.wiring = e.wiring) :
    (lineageEdgeIdentity d : Json F) = lineageEdgeIdentity e := by
  simp only [GraphEdge.wiring, Prod.mk.injEq] at h
  obtain ⟨hsource, hfrom, htarget, hto⟩ := h
  simp only [lineageEdgeIdentity, hsource, hfrom, htarget, hto]

/-! ### Global constants -/

/-- `ConstantReads`: a `frozenset` of names, or `EVERY_CONSTANT`. -/
inductive ConstantReads where
  | names (ns : Finset String)
  | every
  deriving DecidableEq

/-- What the analyses of Python text find in it. -/
structure SourceAnalysis (F : Type) where
  /-- `preamble_imports_utility`. -/
  preambleImportsUtility : String → Bool
  /-- `node_constant_reads`. -/
  nodeConstantReads : List (String × Json F) → ConstantReads

/-- `graph_constant_reads`. -/
def graphConstantReads (analysis : SourceAnalysis F) : List (GraphNode F) → ConstantReads
  | [] => .names ∅
  | node :: nodes =>
    match analysis.nodeConstantReads node.data.config, graphConstantReads analysis nodes with
    | .names ns, .names ms => .names (ns ∪ ms)
    | _, _ => .every

/-- `_read_constant_names`. -/
def readConstantNames (graph : PipelineGraph F) : ConstantReads → List String
  | .names ns => ns.sort (· ≤ ·)
  | .every => (graph.global_constants.map (·.name)).mergeSort fun a b => decide (a ≤ b)

/-- `by_name.get(name)`. -/
def PipelineGraph.constant (graph : PipelineGraph F) (name : String) : Option (GlobalConstant F) :=
  graph.global_constants.reverse.find? fun c => c.name == name

/-- `None` or a value, as JSON. -/
def optionalValue : Option (GlobalConstantValue F) → Json F
  | none => .scalar .null
  | some v => v.toJson

/-- `None` or the values by source, as JSON. -/
def optionalBySource : Option (List (String × GlobalConstantValue F)) → Json F
  | none => .scalar .null
  | some m => .obj (m.map fun e => (e.1, e.2.toJson))

/-- The record of a read constant as declared. -/
def globalConstantRecord (name : String) (constant : Option (GlobalConstant F)) : Json F :=
  checkedCacheIdentityRecord .globalConstant
    [("name", .str name), ("type", optional (constant.map (·.type.value))),
      ("value", optionalValue (constant.bind (·.value))),
      ("by_source", optionalBySource (constant.bind (·.by_source)))] rfl

/-- What a constant holds for a source: its value, and whether it has one. -/
def resolveConstant (source : String) : Option (GlobalConstant F) →
    Option (GlobalConstantValue F) × String
  | none => (none, "undefined")
  | some c =>
    match c.by_source with
    | none => (c.value, "set")
    | some m =>
      match m.find? fun e => e.1 == source with
      | some e => (some e.2, "set")
      | none => (none, "missing")

/-- The record of a read constant as one source sees it. -/
def globalConstantValueRecord (source name : String) (constant : Option (GlobalConstant F)) :
    Json F :=
  checkedCacheIdentityRecord .globalConstantValue
    [("name", .str name), ("type", optional (constant.map (·.type.value))),
      ("value", optionalValue (resolveConstant source constant).1),
      ("state", .str (resolveConstant source constant).2)] rfl

/-- The two identities of the constants that are read, by their record: `None` where nothing is. -/
def constantsIdentity (record : String → Option (GlobalConstant F) → Json F)
    (graph : PipelineGraph F) (reads : ConstantReads) : Json F :=
  if reads = .names ∅ then .scalar .null
  else .obj [("load_error", optional graph.global_constants_error),
    ("constants", .arr ((readConstantNames graph reads).map fun n => record n (graph.constant n)))]

/-- `_global_constants_identity`. -/
def globalConstantsIdentity (graph : PipelineGraph F) (reads : ConstantReads) : Json F :=
  constantsIdentity globalConstantRecord graph reads

/-- `_global_constant_values_identity`. -/
def globalConstantValuesIdentity (graph : PipelineGraph F) (reads : ConstantReads)
    (source : String) :
    Json F :=
  constantsIdentity (globalConstantValueRecord source) graph reads

/-- What execution sees of the constants read, each through `see`: nothing where none is read. -/
def PipelineGraph.constantsRead {α : Type} (see : Option (GlobalConstant F) → α)
    (graph : PipelineGraph F) (reads : ConstantReads) : Option
    (Option String × List (String × α)) :=
  if reads = .names ∅ then none
  else some (graph.global_constants_error,
    (readConstantNames graph reads).map fun n => (n, see (graph.constant n)))

/-- A constant as declared, the order of its sources apart. -/
def declared (constant : Option (GlobalConstant F)) :
    Option GlobalConstantType × Option (GlobalConstantValue F) × Json F :=
  (constant.map (·.type), constant.bind (·.value),
    (optionalBySource (constant.bind (·.by_source))).sortKeys)

/-- A constant as one source sees it. -/
def resolved (source : String) (constant : Option (GlobalConstant F)) :
    Option GlobalConstantType × Option (GlobalConstantValue F) × String :=
  (constant.map (·.type), resolveConstant source constant)

theorem toJson_inj {v w : GlobalConstantValue F} (h : v.toJson.sortKeys = w.toJson.sortKeys) :
    v = w := by
  cases v <;> cases w <;> simp [GlobalConstantValue.toJson] at h ⊢ <;> exact h

theorem optionalValue_inj {a b : Option (GlobalConstantValue F)}
    (h : (optionalValue a).sortKeys = (optionalValue b).sortKeys) : a = b := by
  match a, b with
  | none, none => rfl
  | some v, some w => rw [toJson_inj h]
  | none, some w => cases w <;> simp [optionalValue, GlobalConstantValue.toJson] at h
  | some v, none => cases v <;> simp [optionalValue, GlobalConstantValue.toJson] at h

theorem type_of_optional {a b : Option (GlobalConstant F)}
    (h : (optional (a.map (·.type.value)) : Json F).sortKeys
      = (optional (b.map (·.type.value))).sortKeys) : a.map (·.type) = b.map (·.type) := by
  refine Option.map_injective GlobalConstantType.value_injective ?_
  simpa [Option.map_map, Function.comp_def] using optional_inj h

theorem declared_of_record {m n : String} {a b : Option (GlobalConstant F)}
    (h : (globalConstantRecord m a).sortKeys = (globalConstantRecord n b).sortKeys) :
    (m, declared a) = (n, declared b) := by
  have hname := checkedCacheIdentityRecord_entry (i := 0) h rfl rfl
  have htype := checkedCacheIdentityRecord_entry (i := 1) h rfl rfl
  have hvalue := checkedCacheIdentityRecord_entry (i := 2) h rfl rfl
  have hsource := checkedCacheIdentityRecord_entry (i := 3) h rfl rfl
  rw [declared, declared, Json.sortKeys_str_inj.mp hname, type_of_optional htype,
    optionalValue_inj hvalue, hsource]

theorem resolved_of_record {source source' m n : String} {a b : Option (GlobalConstant F)}
    (h : (globalConstantValueRecord source m a).sortKeys
      = (globalConstantValueRecord source' n b).sortKeys) :
    (m, resolved source a) = (n, resolved source' b) := by
  have hname := checkedCacheIdentityRecord_entry (i := 0) h rfl rfl
  have htype := checkedCacheIdentityRecord_entry (i := 1) h rfl rfl
  have hvalue := checkedCacheIdentityRecord_entry (i := 2) h rfl rfl
  have hstate := checkedCacheIdentityRecord_entry (i := 3) h rfl rfl
  rw [resolved, resolved, Json.sortKeys_str_inj.mp hname, type_of_optional htype,
    Prod.ext (optionalValue_inj hvalue) (Json.sortKeys_str_inj.mp hstate)]

/-- What two lists of records tell apart, two lists of what they record do not. -/
theorem map_eq_of_map_eq {α α' β γ : Type} {f : α → β} {f' : α' → β} {g : α → γ} {g' : α' → γ}
    (hfg : ∀ x y, f x = f' y → g x = g' y) :
    ∀ {l : List α} {l' : List α'}, l.map f = l'.map f' → l.map g = l'.map g'
  | [], [], _ => rfl
  | [], _ :: _, h => by cases h
  | _ :: _, [], h => by cases h
  | x :: l, y :: l', h => by
    obtain ⟨hxy, h⟩ := List.cons.inj h
    rw [List.map_cons, List.map_cons, hfg x y hxy, map_eq_of_map_eq hfg h]

/-- Equal identities, equal constants. -/
theorem constantsRead_eq {α : Type} {record record' : String → Option (GlobalConstant F) → Json F}
    {see see' : Option (GlobalConstant F) → α} {g h : PipelineGraph F}
    {reads reads' : ConstantReads}
    (hsee : ∀ m n a b, (record m a).sortKeys = (record' n b).sortKeys → (m, see a) = (n, see' b))
    (heq : (constantsIdentity record g reads).sortKeys
      = (constantsIdentity record' h reads').sortKeys) :
    g.constantsRead see reads = h.constantsRead see' reads' := by
  unfold constantsIdentity at heq
  unfold PipelineGraph.constantsRead
  split_ifs at heq ⊢ with hg hh hh
  · rfl
  · exact absurd heq Json.sortKeys_scalar_ne_obj
  · exact absurd heq Json.sortKeys_obj_ne_scalar
  · have hnodup : (["load_error", "constants"] : List String).Nodup := by decide
    have herror := Json.sortKeys_obj_entry (i := 0) (j := 0) heq hnodup rfl rfl
    have hconstants := Json.sortKeys_obj_entry (i := 1) (j := 1) heq hnodup rfl rfl
    rw [Json.sortKeys_arr_inj, List.map_map, List.map_map] at hconstants
    rw [optional_inj herror, map_eq_of_map_eq (fun m n => hsee m n _ _) hconstants]

end Haute.Fingerprint
