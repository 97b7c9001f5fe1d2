import Mathlib.Data.Finset.Sort
import Haute.Graph.Sorter

/-!
# Topological orders of a pipeline's nodes

`topoSortIds` orders the nodes as they come, and refuses edges to unknown nodes and cycles, with
the nodes that are on one or downstream (`findCycleNodes`). `canonicalTopologicalOrder` takes the
smallest ready node each time: of all topological orders it is the lexically smallest, whatever
order the nodes and edges came in.
-/

namespace Haute.Graph

open Haute.Data

variable {ι : Type}

/-- An edge of the graph, by its endpoints. -/
structure GraphEdge (ι : Type) where
  source : ι
  target : ι
  deriving DecidableEq

/-- Why there is no order. -/
inductive TopoError (ι : Type) where
  /-- The nodes of a cycle, or those that cycles keep from being placed. -/
  | cycle (cycleNodes : List ι)
  /-- The ids that no node has, and the edges that name them. -/
  | unknownEdgeEndpoint (unknownNodeIds : List ι) (droppedEdges : List (GraphEdge ι))

/-- `b` waits for `a`: both are nodes, and an edge leads from `a` to `b`. -/
def Connects (nodeIds : List ι) (edges : List (GraphEdge ι)) (a b : ι) : Prop :=
  a ∈ nodeIds ∧ b ∈ nodeIds ∧ ⟨a, b⟩ ∈ edges

/-- `b` waits for `a`: both are nodes, and `b` is a child of `a`. -/
def ChildOf (nodeIds : List ι) (childrenOf : ι → List ι) (a b : ι) : Prop :=
  a ∈ nodeIds ∧ b ∈ nodeIds ∧ b ∈ childrenOf a

/-! ### The nodes that cycles keep from being placed -/

section Peeling

variable [DecidableEq ι]

/-- The ids of `node_ids` as keys, each where it is first. -/
def keysOf (nodeIds : List ι) : List ι := firsts nodeIds

/-- The links that the edges between known nodes make, repeated edges counted again. -/
def countEdges (nodeIds : List ι) (edges : List (GraphEdge ι)) : Links ι :=
  edges.foldl (fun l e => if e.source ∉ nodeIds ∨ e.target ∉ nodeIds then l
    else l.link e.source e.target) .empty

/-- The nodes that are peeled off, each when no edge from an unpeeled one leads to it. -/
def peeled (nodeIds : List ι) (edges : List (GraphEdge ι)) : List ι :=
  let links := countEdges nodeIds edges
  kahn (· ++ ·) links.children ((keysOf nodeIds).length + 1) links.inDegree
    ((keysOf nodeIds).filter fun x => decide (links.inDegree x = 0)) []

/-- Every node on a cycle or downstream of one. -/
def findCycleNodes (nodeIds : List ι) (edges : List (GraphEdge ι)) : List ι :=
  nodeIds.filter fun x => decide (x ∉ peeled nodeIds edges)

theorem mem_keysOf {nodeIds : List ι} {x : ι} : x ∈ keysOf nodeIds ↔ x ∈ nodeIds := mem_firsts

theorem nodup_keysOf (nodeIds : List ι) : (keysOf nodeIds).Nodup := nodup_firsts nodeIds

theorem countEdges_spec (nodeIds : List ι) (edges : List (GraphEdge ι)) :
    (countEdges nodeIds edges).Counted (keysOf nodeIds).toFinset ∧
      ∀ a b, b ∈ (countEdges nodeIds edges).children a ↔ Connects nodeIds edges a b := by
  have hfold : ∀ l : Links ι, l.Counted (keysOf nodeIds).toFinset →
      (edges.foldl (fun l e => if e.source ∉ nodeIds ∨ e.target ∉ nodeIds then l
        else l.link e.source e.target) l).Counted (keysOf nodeIds).toFinset ∧
      ∀ a b, b ∈ (edges.foldl (fun l e => if e.source ∉ nodeIds ∨ e.target ∉ nodeIds then l
        else l.link e.source e.target) l).children a ↔
          b ∈ l.children a ∨ Connects nodeIds edges a b := by
    induction edges with
    | nil => exact fun l h => ⟨h, fun a b => by simp [Connects]⟩
    | cons e edges ih =>
      intro l hl
      rw [List.foldl_cons]
      -- an edge to or from an unknown node is left out
      by_cases he : e.source ∉ nodeIds ∨ e.target ∉ nodeIds
      · rw [if_pos he]
        refine ⟨(ih l hl).1, fun a b => ?_⟩
        rw [(ih l hl).2]
        refine or_congr_right ⟨fun ⟨ha, hb, hm⟩ => ⟨ha, hb, List.mem_cons_of_mem e hm⟩, ?_⟩
        rintro ⟨ha, hb, hm⟩
        rcases List.mem_cons.mp hm with rfl | hm
        · exact absurd he (not_or.mpr ⟨not_not.mpr ha, not_not.mpr hb⟩)
        · exact ⟨ha, hb, hm⟩
      · rw [if_neg he]
        rw [not_or, not_not, not_not] at he
        have hlink := hl.link (List.mem_toFinset.mpr (mem_keysOf.mpr he.1))
          (List.mem_toFinset.mpr (mem_keysOf.mpr he.2))
        refine ⟨(ih _ hlink).1, fun a b => ?_⟩
        rw [(ih _ hlink).2, Links.mem_children_link, or_assoc]
        refine or_congr_right ⟨?_, ?_⟩
        · rintro (⟨rfl, rfl⟩ | ⟨ha, hb, hm⟩)
          · exact ⟨he.1, he.2, List.mem_cons_self⟩
          · exact ⟨ha, hb, List.mem_cons_of_mem e hm⟩
        · rintro ⟨ha, hb, hm⟩
          rcases List.mem_cons.mp hm with rfl | hm
          · exact .inl ⟨rfl, rfl⟩
          · exact .inr ⟨ha, hb, hm⟩
  obtain ⟨hcounted, hmem⟩ := hfold .empty (Links.counted_empty _)
  exact ⟨hcounted, fun a b => by rw [countEdges, hmem]; simp [Links.empty]⟩

/-- What is peeled off is neither on a cycle nor downstream of one. -/
theorem mem_peeled_iff {nodeIds : List ι} {edges : List (GraphEdge ι)} {x : ι}
    (hx : x ∈ nodeIds) : x ∈ peeled nodeIds edges ↔ ¬ Downstream (Connects nodeIds edges) x := by
  obtain ⟨hcounted, hmem⟩ := countEdges_spec nodeIds edges
  have hrel : WaitsFor (keysOf nodeIds).toFinset (countEdges nodeIds edges).children =
      Connects nodeIds edges := by
    funext a b
    refine propext ⟨fun h => (hmem a b).mp h.2, fun h => ⟨?_, (hmem a b).mpr h⟩⟩
    exact List.mem_toFinset.mpr (mem_keysOf.mpr h.1)
  have hV : x ∈ (keysOf nodeIds).toFinset := List.mem_toFinset.mpr (mem_keysOf.mpr hx)
  have hcard : (keysOf nodeIds).toFinset.card < (keysOf nodeIds).length + 1 := by
    rw [List.toFinset_card_of_nodup (nodup_keysOf nodeIds)]
    omega
  unfold peeled
  rw [mem_kahn_iff_acc (fun a _ b hb => hcounted.closed a b hb) (fun _ _ => List.Perm.refl _)
    (waiting_nil (nodup_keysOf nodeIds) hcounted.inDegree_eq (List.Perm.refl _)) hcard hV, hrel]
  exact acc_iff_not_downstream (V := (keysOf nodeIds).toFinset)
    (fun a b h => List.mem_toFinset.mpr (mem_keysOf.mpr h.1)) hV

end Peeling

/-! ### Orders of the nodes as they come -/

section Sorting

variable [LinearOrder ι]

/-- The edges between known nodes, the others, and the unknown ids the others name. -/
def partitionEdges (nodeIds : List ι) (edges : List (GraphEdge ι)) :
    List (GraphEdge ι) × List (GraphEdge ι) × List ι :=
  let known := fun e : GraphEdge ι => decide (e.source ∈ nodeIds ∧ e.target ∈ nodeIds)
  let dropped := edges.filter fun e => !known e
  (edges.filter known, dropped,
    ((dropped.flatMap fun e => [e.source, e.target]).toFinset \ nodeIds.toFinset).sort (· ≤ ·))

/-- The nodes of a set, from the smallest. -/
def sortedIds (ids : Finset ι) : List ι := ids.sort (· ≤ ·)

/-- The sorter of the nodes and the edges, the nodes in their order. -/
def sorterOf (nodeIds : List ι) (edges : List (GraphEdge ι)) : Sorter ι :=
  Sorter.empty.addAll (nodeIds.map (fun x => (x, [])) ++ edges.map fun e => (e.target, [e.source]))

/-- The nodes sorted by edges between them, or those on or downstream of a cycle. -/
def topoSortKnownIds (reported : Sorter ι → List ι) (nodeIds : List ι)
    (edges : List (GraphEdge ι)) : Except (TopoError ι) (List ι) :=
  ((sorterOf nodeIds edges).staticOrder reported).mapError fun _ =>
    .cycle (findCycleNodes nodeIds edges)

/-- The nodes sorted topologically; edges with unknown endpoints are refused. -/
def topoSortIds (reported : Sorter ι → List ι) (nodeIds : List ι) (edges : List (GraphEdge ι)) :
    Except (TopoError ι) (List ι) :=
  let parts := partitionEdges nodeIds edges
  if parts.2.1 = [] then topoSortKnownIds reported nodeIds parts.1
  else .error (.unknownEdgeEndpoint parts.2.2 parts.2.1)

theorem mem_nodes_sorterOf {nodeIds : List ι} {edges : List (GraphEdge ι)}
    (hknown : ∀ e ∈ edges, e.source ∈ nodeIds ∧ e.target ∈ nodeIds) {x : ι} :
    x ∈ (sorterOf nodeIds edges).nodes ↔ x ∈ nodeIds := by
  unfold sorterOf
  rw [Sorter.mem_nodes_addAll]
  constructor
  · rintro (hx | ⟨e, he, hx⟩)
    · exact absurd hx List.not_mem_nil
    · rcases List.mem_append.mp he with he | he
      · obtain ⟨y, hy, rfl⟩ := List.mem_map.mp he
        rcases hx with rfl | hx
        · exact hy
        · exact absurd hx List.not_mem_nil
      · obtain ⟨edge, hedge, rfl⟩ := List.mem_map.mp he
        rcases hx with rfl | hx
        · exact (hknown edge hedge).2
        · exact List.mem_singleton.mp hx ▸ (hknown edge hedge).1
  · intro hx
    exact .inr ⟨(x, []), List.mem_append_left _ (List.mem_map.mpr ⟨x, hx, rfl⟩), .inl rfl⟩

theorem waits_sorterOf {nodeIds : List ι} {edges : List (GraphEdge ι)}
    (hknown : ∀ e ∈ edges, e.source ∈ nodeIds ∧ e.target ∈ nodeIds) :
    (sorterOf nodeIds edges).Waits = Connects nodeIds edges := by
  funext a b
  refine propext (Sorter.waits_iff.trans ?_)
  unfold sorterOf
  rw [Sorter.mem_children_addAll]
  constructor
  · rintro (hb | ⟨e, he, ha, hb⟩)
    · exact absurd hb List.not_mem_nil
    · rcases List.mem_append.mp he with he | he
      · obtain ⟨y, -, rfl⟩ := List.mem_map.mp he
        exact absurd ha List.not_mem_nil
      · obtain ⟨edge, hedge, rfl⟩ := List.mem_map.mp he
        rw [List.mem_singleton] at ha
        dsimp only at hb
        subst ha hb
        exact ⟨(hknown edge hedge).1, (hknown edge hedge).2, hedge⟩
  · rintro ⟨-, -, hedge⟩
    refine .inr ⟨(b, [a]), List.mem_append_right _ ?_, List.mem_singleton_self a, rfl⟩
    exact List.mem_map.mpr ⟨⟨a, b⟩, hedge, rfl⟩

/-- What a sorter without a cycle hands out is a topological order. -/
theorem Sorter.isTopological_handedOut (s : Sorter ι) (h : ∀ x, ¬ Relation.TransGen s.Waits x x) :
    IsTopological s.Waits s.nodes.toFinset s.handedOut := by
  obtain ⟨rest, degree', hrun, hsteps, hend⟩ := kahn_steps (P := Open s.Waits s.nodes.toFinset)
    (Q := fun _ => True) (fun a _ b hb => s.counted.closed a b hb) (fun _ _ => List.Perm.refl _)
    (fun _ _ _ _ => trivial) (fun done y rest _ hopen => (hopen y).mp List.mem_cons_self)
    (s.waiting (List.Perm.refl _)) trivial s.card_nodes_lt
  have hall : ∀ x ∈ s.nodes.toFinset, x ∈ s.handedOut := by
    intro x hx
    rw [s.mem_handedOut_iff (List.mem_toFinset.mp hx)]
    rintro ⟨c, hc, -⟩
    exact h c hc
  have heq : s.handedOut = rest := hrun
  rw [← heq] at hsteps
  exact isTopological_of_steps hsteps hall fun a b hab =>
    s.counted.closed a b hab.2

/-- Where every edge is between known nodes, `topoSortIds` gives a topological order, or refuses
with the nodes on or downstream of a cycle. -/
theorem topoSortIds_of_known (reported : Sorter ι → List ι) {nodeIds : List ι}
    {edges : List (GraphEdge ι)} (hknown : ∀ e ∈ edges, e.source ∈ nodeIds ∧ e.target ∈ nodeIds) :
    ((∃ x, Relation.TransGen (Connects nodeIds edges) x x) →
      topoSortIds reported nodeIds edges = .error (.cycle (findCycleNodes nodeIds edges))) ∧
    ((∀ x, ¬ Relation.TransGen (Connects nodeIds edges) x x) →
      ∃ order, topoSortIds reported nodeIds edges = .ok order ∧
        IsTopological (Connects nodeIds edges) nodeIds.toFinset order) := by
  have hall : edges.filter (fun e => decide (e.source ∈ nodeIds ∧ e.target ∈ nodeIds)) = edges :=
    List.filter_eq_self.mpr fun e he => decide_eq_true (hknown e he)
  have hnone : edges.filter (fun e => !decide (e.source ∈ nodeIds ∧ e.target ∈ nodeIds)) = [] :=
    List.filter_eq_nil_iff.mpr fun e he => by simp [hknown e he]
  have hsort : topoSortIds reported nodeIds edges = topoSortKnownIds reported nodeIds edges := by
    unfold topoSortIds partitionEdges
    dsimp only
    rw [if_pos hnone, hall]
  have hcycle := (sorterOf nodeIds edges).hasCycle_iff
  rw [waits_sorterOf hknown] at hcycle
  have hset : (sorterOf nodeIds edges).nodes.toFinset = nodeIds.toFinset := by
    ext x
    rw [List.mem_toFinset, List.mem_toFinset, mem_nodes_sorterOf hknown]
  rw [hsort]
  unfold topoSortKnownIds Sorter.staticOrder Sorter.prepare
  constructor
  · intro h
    rw [if_pos (hcycle.mpr h)]
    rfl
  · intro h
    have hno : ¬ (sorterOf nodeIds edges).hasCycle = true := fun hc =>
      (hcycle.mp hc).elim fun x hx => h x hx
    rw [if_neg hno]
    refine ⟨_, rfl, ?_⟩
    have htop := (sorterOf nodeIds edges).isTopological_handedOut
    rw [waits_sorterOf hknown, hset] at htop
    exact htop h

/-! ### The canonical order -/

/-- What the canonical order tells its sorter: each node, in order, and then its children. -/
def canonicalEntries (nodeIds : List ι) (childrenOf : ι → List ι) : List (ι × List ι) :=
  (nodeIds.toFinset.sort (· ≤ ·)).flatMap fun parent =>
    (parent, []) :: (((childrenOf parent).toFinset ∩ nodeIds.toFinset).sort (· ≤ ·)).map
      fun child => (child, [parent])

/-- Puts the newly ready on the heap, which is kept as the list of its nodes from the smallest. -/
def heapPushAll (heap newlyReady : List ι) : List ι :=
  newlyReady.foldl (fun heap x => heap.orderedInsert (· ≤ ·) x) heap

/-- A topological order that takes the smallest ready node next; children that are no nodes are
ignored, and a cycle is refused. -/
def canonicalTopologicalOrder (reported : Sorter ι → List ι) (nodeIds : List ι)
    (childrenOf : ι → List ι) : Except (TopoError ι) (List ι) :=
  let sorter := Sorter.empty.addAll (canonicalEntries nodeIds childrenOf)
  match sorter.prepare reported with
  | .error cycleNodes => .error (.cycle (cycleNodes.toFinset.sort (· ≤ ·)))
  | .ok ready => .ok (kahn heapPushAll sorter.links.children (sorter.nodes.length + 1)
      sorter.links.inDegree (ready.insertionSort (· ≤ ·)) [])

/-- The entries depend on which the nodes and the children are, and on nothing else. -/
theorem canonicalEntries_congr {nodeIds nodeIds' : List ι} {childrenOf childrenOf' : ι → List ι}
    (hnodes : ∀ x, x ∈ nodeIds ↔ x ∈ nodeIds')
    (hchildren : ∀ a b, b ∈ childrenOf a ↔ b ∈ childrenOf' a) :
    canonicalEntries nodeIds childrenOf = canonicalEntries nodeIds' childrenOf' := by
  have hset : nodeIds.toFinset = nodeIds'.toFinset := by
    ext x
    rw [List.mem_toFinset, List.mem_toFinset, hnodes]
  have hsets : ∀ a, (childrenOf a).toFinset = (childrenOf' a).toFinset := by
    intro a
    ext b
    rw [List.mem_toFinset, List.mem_toFinset, hchildren]
  unfold canonicalEntries
  rw [hset]
  refine List.flatMap_congr fun parent _ => ?_
  rw [hsets]

theorem mem_canonicalEntries {nodeIds : List ι} {childrenOf : ι → List ι} {e : ι × List ι} :
    e ∈ canonicalEntries nodeIds childrenOf ↔
      (∃ a ∈ nodeIds, e = (a, [])) ∨ ∃ a b, ChildOf nodeIds childrenOf a b ∧ e = (b, [a]) := by
  unfold canonicalEntries
  simp only [List.mem_flatMap, Finset.mem_sort, List.mem_toFinset, List.mem_cons, List.mem_map,
    Finset.mem_inter, ChildOf]
  constructor
  · rintro ⟨a, ha, rfl | ⟨b, ⟨hb, hn⟩, rfl⟩⟩
    · exact .inl ⟨a, ha, rfl⟩
    · exact .inr ⟨a, b, ⟨ha, hn, hb⟩, rfl⟩
  · rintro (⟨a, ha, rfl⟩ | ⟨a, b, ⟨ha, hn, hb⟩, rfl⟩)
    · exact ⟨a, ha, .inl rfl⟩
    · exact ⟨a, ha, .inr ⟨b, ⟨hb, hn⟩, rfl⟩⟩

/-- The sorter that the canonical order asks. -/
theorem canonicalSorter_spec (nodeIds : List ι) (childrenOf : ι → List ι) :
    (Sorter.empty.addAll (canonicalEntries nodeIds childrenOf)).nodes.toFinset = nodeIds.toFinset ∧
      (Sorter.empty.addAll (canonicalEntries nodeIds childrenOf)).Waits =
        ChildOf nodeIds childrenOf := by
  constructor
  · ext x
    rw [List.mem_toFinset, List.mem_toFinset, Sorter.mem_nodes_addAll]
    constructor
    · rintro (hx | ⟨e, he, hx⟩)
      · exact absurd hx List.not_mem_nil
      · rcases mem_canonicalEntries.mp he with ⟨a, ha, rfl⟩ | ⟨a, b, ⟨ha, hb, -⟩, rfl⟩
        · rcases hx with rfl | hx
          · exact ha
          · exact absurd hx List.not_mem_nil
        · rcases hx with rfl | hx
          · exact hb
          · exact List.mem_singleton.mp hx ▸ ha
    · exact fun hx => .inr ⟨(x, []), mem_canonicalEntries.mpr (.inl ⟨x, hx, rfl⟩), .inl rfl⟩
  · funext a b
    refine propext (Sorter.waits_iff.trans ?_)
    rw [Sorter.mem_children_addAll]
    constructor
    · rintro (hb | ⟨e, he, ha, hb⟩)
      · exact absurd hb List.not_mem_nil
      · rcases mem_canonicalEntries.mp he with ⟨c, -, rfl⟩ | ⟨c, d, hcd, rfl⟩
        · exact absurd ha List.not_mem_nil
        · rw [List.mem_singleton] at ha
          dsimp only at hb
          subst ha hb
          exact hcd
    · exact fun h => .inr ⟨(b, [a]), mem_canonicalEntries.mpr (.inr ⟨a, b, h, rfl⟩),
        List.mem_singleton_self a, rfl⟩

theorem perm_heapPushAll (heap newlyReady : List ι) :
    (heapPushAll heap newlyReady).Perm (heap ++ newlyReady) := by
  unfold heapPushAll
  induction newlyReady generalizing heap with
  | nil => rw [List.append_nil]; exact List.Perm.refl heap
  | cons x newlyReady ih =>
    refine (ih _).trans ?_
    refine ((List.perm_orderedInsert (· ≤ ·) x heap).append_right newlyReady).trans ?_
    exact List.perm_middle.symm

theorem pairwise_heapPushAll {heap : List ι} (h : heap.Pairwise (· ≤ ·)) (newlyReady : List ι) :
    (heapPushAll heap newlyReady).Pairwise (· ≤ ·) := by
  unfold heapPushAll
  induction newlyReady generalizing heap with
  | nil => exact h
  | cons x newlyReady ih => exact ih (h.orderedInsert x heap)

/-- Taking the heap's first each time takes the least of the nodes that wait for nothing more. -/
theorem canonicalTopologicalOrder_of_acyclic (reported : Sorter ι → List ι) {nodeIds : List ι}
    {childrenOf : ι → List ι} (h : ∀ x, ¬ Relation.TransGen (ChildOf nodeIds childrenOf) x x) :
    ∃ order, canonicalTopologicalOrder reported nodeIds childrenOf = .ok order ∧
      Steps (LeastOpen (ChildOf nodeIds childrenOf) nodeIds.toFinset) [] order ∧
      IsTopological (ChildOf nodeIds childrenOf) nodeIds.toFinset order := by
  obtain ⟨hnodes, hwaits⟩ := canonicalSorter_spec nodeIds childrenOf
  unfold canonicalTopologicalOrder
  generalize Sorter.empty.addAll (canonicalEntries nodeIds childrenOf) = s at hnodes hwaits
  rw [← hnodes, ← hwaits]
  rw [← hwaits] at h
  have hno : ¬ s.hasCycle = true := fun hc => (s.hasCycle_iff.mp hc).elim fun x hx => h x hx
  obtain ⟨rest, degree', hrun, hsteps, hend⟩ :=
    kahn_steps (P := LeastOpen s.Waits s.nodes.toFinset) (Q := fun heap => heap.Pairwise (· ≤ ·))
      (fun a _ b hb => s.counted.closed a b hb) perm_heapPushAll
      (fun x rest new hq => pairwise_heapPushAll (List.pairwise_cons.mp hq).2 new)
      (fun done x rest hq hopen => ⟨(hopen x).mp List.mem_cons_self, fun y hy => by
        rcases List.mem_cons.mp ((hopen y).mpr hy) with rfl | hr
        · exact le_refl y
        · exact (List.pairwise_cons.mp hq).1 y hr⟩)
      (s.waiting (List.perm_insertionSort (· ≤ ·) s.ready))
      (List.pairwise_insertionSort (· ≤ ·) s.ready) s.card_nodes_lt
  rw [List.nil_append] at hrun hend
  refine ⟨rest, ?_, hsteps, ?_⟩
  · dsimp only [Sorter.prepare]
    rw [if_neg hno]
    exact congrArg Except.ok hrun
  · refine isTopological_of_steps (hsteps.imp fun done x hx => hx.1) (fun x hx => ?_)
      fun a b hab => s.counted.closed a b hab.2
    refine hend.mem_of_acc (acc_of_not_downstream (fun a b hab => hab.1) hx ?_) hx
    rintro ⟨c, hc, -⟩
    exact h c hc

/-- On an acyclic graph the canonical order is the lexically smallest topological order; it is the
same for every order of the nodes and edges; and what keeps `topoSortIds` from sorting a cyclic
graph is what `findCycleNodes` lists, the nodes that are on or downstream of a cycle. -/
theorem canonicalTopologicalOrder_spec (reported : Sorter ι → List ι) :
    (∀ nodeIds childrenOf, (∀ x, ¬ Relation.TransGen (ChildOf nodeIds childrenOf) x x) →
      ∃ order, canonicalTopologicalOrder reported nodeIds childrenOf = .ok order ∧
        IsTopological (ChildOf nodeIds childrenOf) nodeIds.toFinset order ∧
        ∀ other, IsTopological (ChildOf nodeIds childrenOf) nodeIds.toFinset other →
          order = other ∨ List.Lex (· < ·) order other) ∧
    (∀ nodeIds nodeIds' childrenOf childrenOf', (∀ x, x ∈ nodeIds ↔ x ∈ nodeIds') →
      (∀ a b, b ∈ childrenOf a ↔ b ∈ childrenOf' a) →
        canonicalTopologicalOrder reported nodeIds childrenOf =
          canonicalTopologicalOrder reported nodeIds' childrenOf') ∧
    (∀ nodeIds edges, ∃ keep : ι → Bool, findCycleNodes nodeIds edges = nodeIds.filter keep ∧
      ∀ x ∈ nodeIds, keep x = true ↔ Downstream (Connects nodeIds edges) x) ∧
    (∀ nodeIds edges, (∀ e ∈ edges, e.source ∈ nodeIds ∧ e.target ∈ nodeIds) →
      ((∃ x, Relation.TransGen (Connects nodeIds edges) x x) →
        topoSortIds reported nodeIds edges = .error (.cycle (findCycleNodes nodeIds edges))) ∧
      ((∀ x, ¬ Relation.TransGen (Connects nodeIds edges) x x) →
        ∃ order, topoSortIds reported nodeIds edges = .ok order ∧
          IsTopological (Connects nodeIds edges) nodeIds.toFinset order)) := by
  refine ⟨fun nodeIds childrenOf h => ?_, fun nodeIds nodeIds' childrenOf childrenOf' hn hc => ?_,
    fun nodeIds edges => ⟨fun x => decide (x ∉ peeled nodeIds edges), rfl, fun x hx => ?_⟩,
    fun nodeIds edges => topoSortIds_of_known reported⟩
  · obtain ⟨order, hrun, hsteps, htop⟩ := canonicalTopologicalOrder_of_acyclic reported h
    exact ⟨order, hrun, htop, fun other => eq_or_lex_of_steps_leastOpen hsteps⟩
  · unfold canonicalTopologicalOrder
    rw [canonicalEntries_congr hn hc]
  · rw [decide_eq_true_eq, mem_peeled_iff hx, not_not]

/-- Node 2 is read by 1, and 3 is apart. -/
def readBy (x : ℕ) : List ℕ := if x = 2 then [1] else []

theorem eq_of_childOf_readBy {nodeIds : List ℕ} {a b : ℕ} (h : ChildOf nodeIds readBy a b) :
    a = 2 ∧ b = 1 := by
  obtain ⟨-, -, hb⟩ := h
  unfold readBy at hb
  split_ifs at hb with ha
  · exact ⟨ha, List.mem_singleton.mp hb⟩
  · exact absurd hb List.not_mem_nil

theorem not_transGen_readBy (nodeIds : List ℕ) (x : ℕ) :
    ¬ Relation.TransGen (ChildOf nodeIds readBy) x x := by
  intro hcycle
  obtain ⟨b, hfirst, -⟩ := Relation.TransGen.head'_iff.mp hcycle
  obtain ⟨c, -, hlast⟩ := Relation.TransGen.tail'_iff.mp hcycle
  obtain ⟨rfl, -⟩ := eq_of_childOf_readBy hfirst
  exact absurd (eq_of_childOf_readBy hlast).2 (by decide)

/-- Three nodes of which one reads another have their least order, from either listing; and of two
nodes on a cycle and one downstream of it all three are reported. -/
theorem topoSortIds_cyclic :
    (∃ order, canonicalTopologicalOrder (fun _ => []) [3, 1, 2] readBy = .ok order ∧
      (order = [2, 1, 3] ∨ List.Lex (· < ·) order [2, 1, 3]) ∧
      canonicalTopologicalOrder (fun _ => []) [2, 3, 1] readBy = .ok order) ∧
    (∃ keep : ℕ → Bool, findCycleNodes [1, 2, 3] [⟨1, 2⟩, ⟨2, 1⟩, ⟨2, 3⟩] =
        [1, 2, 3].filter keep ∧ (keep 3 = true ↔
          Downstream (Connects [1, 2, 3] [⟨1, 2⟩, ⟨2, 1⟩, ⟨2, 3⟩]) 3)) ∧
    topoSortIds (fun _ => []) [1, 2, 3] [⟨1, 2⟩, ⟨2, 1⟩, ⟨2, 3⟩] =
        .error (.cycle (findCycleNodes [1, 2, 3] [⟨1, 2⟩, ⟨2, 1⟩, ⟨2, 3⟩])) ∧
      findCycleNodes [1, 2, 3] [⟨1, 2⟩, ⟨2, 1⟩, ⟨2, 3⟩] = [1, 2, 3] := by
  obtain ⟨hleast, hsame, hfound, hsort⟩ :=
    @canonicalTopologicalOrder_spec ℕ _ fun _ => []
  refine ⟨?_, ?_, (hsort _ _ (by decide)).1 ⟨1, ?_⟩, by decide⟩
  · obtain ⟨order, horder, -, hbefore⟩ := hleast [3, 1, 2] readBy (not_transGen_readBy _)
    refine ⟨order, horder, hbefore [2, 1, 3] ⟨by decide, fun x => ?_, fun a b hab => ?_⟩, ?_⟩
    · simp only [List.mem_toFinset, List.mem_cons, List.not_mem_nil, or_false]
      omega
    · obtain ⟨rfl, rfl⟩ := eq_of_childOf_readBy hab
      decide
    · rw [← horder]
      refine hsame _ _ _ _ (fun x => ?_) fun _ _ => Iff.rfl
      simp only [List.mem_cons, List.not_mem_nil, or_false]
      omega
  · obtain ⟨keep, hkeep, hdownstream⟩ := hfound [1, 2, 3] [⟨1, 2⟩, ⟨2, 1⟩, ⟨2, 3⟩]
    exact ⟨keep, hkeep, hdownstream 3 (by decide)⟩
  · have hout : Connects [1, 2, 3] [⟨1, 2⟩, ⟨2, 1⟩, ⟨2, 3⟩] 1 2 := by simp [Connects]
    have hback : Connects [1, 2, 3] [⟨1, 2⟩, ⟨2, 1⟩, ⟨2, 3⟩] 2 1 := by simp [Connects]
    exact (Relation.TransGen.single hout).tail hback

end Sorting

end Haute.Graph
