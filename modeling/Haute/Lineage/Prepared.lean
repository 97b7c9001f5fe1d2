import Haute.Fingerprint.Keys
import Haute.Graph.Upstream
import Haute.Json.Errors

/-!
# Graphs prepared for a run

`prepareGraph` turns a pipeline graph into what a run of it reads: the edges that the scenario
leaves (`pruneLiveSwitchEdges`), the nodes in topological order, their parents and the edges
between them; with a target, of the target and what is upstream of it. The list of nodes whose
inputs are prepared (`lineagePreparationOrder`) and of those whose results are reported
(`resultOrderForTarget`) are each made on their own, from the graph again. What is signed for a
cache key is prepared from the lineage as a graph of its own (`sourceLineageGraph`).
-/

namespace Haute.Lineage

open Haute.Data Haute.Graph
open Haute.Fingerprint (NodeType GraphNode GraphEdge PipelineGraph)

variable {F : Type}

/-! ### The names of inputs -/

/-- A label as a Python function name. -/
def sanitizeFuncName (label : String) : String :=
  let name := sanitizeIdentifierCharacters label
  let name := if (name.toList.head?.map Char.isDigit).getD false then "node_" ++ name else name
  let name := if isKeyword name then "node_" ++ name else name
  if name.isEmpty then "unnamed_node" else name

/-- The part of a submodel that a structural node type is. -/
inductive StructuralRole where
  | occurrence | port
  deriving DecidableEq

/-- `node_spec(node_type).structural_role`. -/
def structuralRole : NodeType → Option StructuralRole
  | .submodel => some .occurrence
  | .submodelPort => some .port
  | _ => none

/-- `node_type in REQUEST_INPUT_KINDS`. -/
def isRequestInput : NodeType → Bool
  | .apiInput | .workbenchInput => true
  | _ => false

/-- `node_spec(node_type).scenario_router`. -/
def isScenarioRouter : NodeType → Bool
  | .liveSwitch => true
  | _ => false

/-- `config.get(key)`, `None` where it is null. -/
def configValue (node : GraphNode F) (key : String) : Option (Json F) :=
  match Assoc.get? node.data.config key with
  | some (.scalar .null) => none
  | held => held

/-- The port of a handle `out__<name>`. -/
def outputPort (handle : String) : Option String :=
  if handle.startsWith "out__" && handle.length ≠ 5 then some (String.ofList (handle.toList.drop 5))
  else none

/-- The input name of an edge out of a node with these facts, or the text of a `ValueError`. -/
def executableInputName (nodeType : NodeType) (label : String) (sourceHandle : Option String)
    (isInstance : Bool) (sourceHandles : Option (List String)) : Except String String :=
  if isRequestInput nodeType then
    match sourceHandle with
    | none => .error "Request input handles are required for executable identities."
    | some handle => .ok handle
  else match structuralRole nodeType with
    | some .occurrence =>
      match sourceHandle.bind fun handle => (outputPort handle).map fun port => (handle, port) with
      | none => .error "Submodel output handles must use the canonical 'out__<name>' form."
      | some (handle, port) =>
        if !isInstance then .ok (sanitizeFuncName port)
        else if handle ∉ sourceHandles.getD [] then
          .error ("Submodel instance " ++ pyRepr label ++
            " requires every declared output handle, including " ++ pyRepr handle ++ ".")
        else if (sourceHandles.getD []).length = 1 then .ok (sanitizeFuncName label)
        else .ok (sanitizeFuncName label ++ "_" ++ sanitizeFuncName port)
    | some .port =>
      match sourceHandle with
      | none => .error "Submodel input identities require a source handle."
      | some handle =>
        if handle.isEmpty then .error "Submodel input identities require a source handle."
        else .ok (sanitizeFuncName handle)
    | none => .ok (sanitizeFuncName label)

/-- The output handles that a submodel's instance may use; `submodels` gives the output ports of
each definition by its id. -/
def instanceHandles (submodels : String → Option (List String)) (node : GraphNode F) :
    Except String (List String) :=
  match configValue node "definition_id" with
  | some (.str definitionId) =>
    match submodels definitionId with
    | none => .error ("Submodel instance " ++ pyRepr node.id ++ " has no definition " ++
        pyRepr definitionId ++ ".")
    | some ports => .ok (ports.map ("out__" ++ ·))
  | _ => .error ("Submodel instance " ++ pyRepr node.id ++ " requires a definitionId.")

/-- The one input name that an incoming edge contributes. -/
def edgeInputName (submodels : String → Option (List String)) (edge : GraphEdge)
    (source : GraphNode F) : Except String String :=
  let nodeType := source.data.nodeType
  if isRequestInput nodeType && edge.sourceHandle.isNone then
    .error (nodeType.value ++ " edge " ++ pyRepr edge.id ++ " has no sourceHandle/frame label")
  else if structuralRole nodeType = some .occurrence &&
      (configValue source "instance_of").isSome then do
    let handles ← instanceHandles submodels source
    executableInputName nodeType source.data.label edge.sourceHandle true (some handles)
  else executableInputName nodeType source.data.label edge.sourceHandle false none

/-! ### Edges of other scenarios -/

/-- `{n.id: n for n in nodes}`: each id where it is first, with the last node of it. -/
def nodeMap (graph : PipelineGraph F) : OrdDict String (GraphNode F) :=
  graph.nodes.foldl (fun nodes n => nodes.insert n.id n) .empty

/-- The scenario that each input of a switch serves. -/
def inputScenarioMap (node : GraphNode F) : List (String × Json F) :=
  match Assoc.get? node.data.config "input_scenario_map" with
  | some (.obj entries) => entries
  | _ => []

/-- Whether a setting is this text. -/
def isText (text : String) : Json F → Bool
  | .str s => s == text
  | _ => false

/-- Whether a setting is null. -/
def isNull : Json F → Bool
  | .scalar .null => true
  | _ => false

/-- Whether an edge into the switch comes from an input that another scenario uses. -/
def isInactive (submodels : String → Option (List String)) (nodes : OrdDict String (GraphNode F))
    (scenario : String) (switch : String × GraphNode F) (edge : GraphEdge) : Except String Bool :=
  if edge.target ≠ switch.1 then .ok false
  else match nodes.get? edge.source with
    | none => .ok false
    | some parent => do
      let inputName ← edgeInputName submodels edge parent
      .ok (match Assoc.get? (inputScenarioMap switch.2) inputName with
        | none => false
        | some mapped => !isNull mapped && !isText scenario mapped)

/-- The elements of which the question is answered with yes, asked one after another. -/
def keepWhere {α ε : Type} (ask : α → Except ε Bool) : List α → Except ε (List α)
  | [] => .ok []
  | x :: xs => do
    let keep ← ask x
    let rest ← keepWhere ask xs
    .ok (if keep then x :: rest else rest)

/-- The inactive edges into a switch, none where no input is mapped to the scenario. -/
def inactiveInto (submodels : String → Option (List String))
    (nodes : OrdDict String (GraphNode F)) (edges : List GraphEdge) (scenario : String)
    (switch : String × GraphNode F) : Except String (List GraphEdge) :=
  if (inputScenarioMap switch.2).any fun e => isText scenario e.2 then
    keepWhere (isInactive submodels nodes scenario switch) edges
  else .ok []

/-- The inactive edges into all switches. -/
def inactiveEdges (submodels : String → Option (List String))
    (nodes : OrdDict String (GraphNode F)) (edges : List GraphEdge) (scenario : String) :
    List (String × GraphNode F) → Except String (List GraphEdge)
  | [] => .ok []
  | switch :: switches => do
    let here ← inactiveInto submodels nodes edges scenario switch
    let later ← inactiveEdges submodels nodes edges scenario switches
    .ok (here ++ later)

/-- The edges but those to live switches from inputs inactive for the scenario, by their ids. -/
def pruneLiveSwitchEdges (submodels : String → Option (List String))
    (nodes : OrdDict String (GraphNode F)) (edges : List GraphEdge) (scenario : String) :
    Except String (List GraphEdge) := do
  let inactive ← inactiveEdges submodels nodes edges scenario
    (nodes.entries.filter fun e => isScenarioRouter e.2.data.nodeType)
  .ok (edges.filter fun e => e.id ∉ inactive.map fun e => e.id)

/-! ### Preparing -/

/-- Why a graph is not prepared. -/
inductive PrepareError where
  /-- A `ValueError` with its text. -/
  | value (message : String)
  | topo (error : TopoError String)

/-- `PreparedGraph`, but for the submodels, which are a parameter. -/
structure PreparedGraph (F : Type) extends Fingerprint.PreparedGraph F where
  parents_of : OrdDict String (List String)
  id_to_name : List (String × String)

/-- An edge as its endpoints. -/
def link (edge : GraphEdge) : Graph.GraphEdge String := ⟨edge.source, edge.target⟩

/-- The nodes a run needs: the target's ancestors, or all where there is no target. -/
def neededFor (target : Option String) (nodes : OrdDict String (GraphNode F))
    (edges : List GraphEdge) : Finset String :=
  match target with
  | none => nodes.keys.toFinset
  -- an empty target is none
  | some t => if t.isEmpty then nodes.keys.toFinset else ancestors t (edges.map link) nodes.keys

/-- The edges between needed nodes. -/
def relevantEdges (needed : Finset String) (edges : List GraphEdge) : List GraphEdge :=
  edges.filter fun e => e.source ∈ needed ∧ e.target ∈ needed

/-- The lookups of nodes in their order and the edges between them. -/
def lookupsOf (nodes : OrdDict String (GraphNode F)) (relevant : List GraphEdge)
    (order : List String) : PreparedGraph F where
  node_map := nodes.entries
  order := order
  relevant_edges := relevant
  parents_of := buildParentsOf (relevant.map link) (some order)
  -- the order lists nodes of the map, each once
  id_to_name := order.filterMap fun id =>
    (nodes.get? id).map fun node => (id, sanitizeFuncName node.data.label)

/-- The graph lookups of a run, of the target's lineage where there is a target. -/
def prepareGraph (reported : Sorter String → List String)
    (submodels : String → Option (List String)) (graph : PipelineGraph F)
    (target : Option String) (scenario : String) : Except PrepareError (PreparedGraph F) := do
  let nodes := nodeMap graph
  let edges ← (pruneLiveSwitchEdges submodels nodes graph.edges scenario).mapError .value
  let needed := neededFor target nodes edges
  let relevant := relevantEdges needed edges
  let order ← (topoSortIds reported (nodes.keys.filter fun x => x ∈ needed)
    (relevant.map link)).mapError .topo
  .ok (lookupsOf nodes relevant order)

/-- The nodes whose inputs a preview or trace prepares. -/
def lineagePreparationOrder (submodels : String → Option (List String)) (graph : PipelineGraph F)
    (target : Option String) (scenario : String) : Except PrepareError (List String) :=
  let nodes := nodeMap graph
  match target with
  | none => .ok (graph.nodes.map fun n => n.id)
  | some t =>
    if t ∉ nodes.keys then .ok (graph.nodes.map fun n => n.id)
    else do
      let edges ← (pruneLiveSwitchEdges submodels nodes graph.edges scenario).mapError .value
      .ok (sortedIds (ancestors t (edges.map link) nodes.keys))

/-- The nodes of an order whose results a request reports. -/
def resultOrderForTarget (submodels : String → Option (List String)) (graph : PipelineGraph F)
    (order : List String) (target : Option String) (scenario : String) :
    Except PrepareError (List String) :=
  let nodes := nodeMap graph
  match target with
  | none => .ok order
  | some t =>
    if t ∉ nodes.keys then .ok []
    else do
      let edges ← (pruneLiveSwitchEdges submodels nodes graph.edges scenario).mapError .value
      let needed := ancestors t (edges.map link) nodes.keys
      .ok (order.filter fun id => id ∈ needed)

/-- The target and its lineage as a run of the scenario takes them, as a graph. -/
def sourceLineageGraph (reported : Sorter String → List String)
    (submodels : String → Option (List String)) (graph : PipelineGraph F)
    (target : Option String) (scenario : String) : Except PrepareError (PipelineGraph F) := do
  let prepared ← prepareGraph reported submodels graph target scenario
  .ok { graph with
    nodes := graph.nodes.filter fun n => n.id ∈ prepared.order
    edges := prepared.relevant_edges }

end Haute.Lineage
