import Haute.Data.OrdDict
import Haute.Data.Visit
import Haute.Graph.Topo

/-!
# What is upstream of a node

`buildParentsOf` lists the sources of the edges into each node, in the order of the edges
(`get?_buildParentsOf`). `upstreamNodeIds` walks them from a node back, its stack popped once for
each parent at most, and lists the nodes that lead to it, each once, on a cyclic graph too
(`mem_upstreamNodeIds_iff`, `nodup_upstreamNodeIds`); `ancestors` adds the node itself
(`mem_ancestors_iff`).
-/

namespace Haute.Graph

open Haute.Data Relation

variable {ι : Type} [DecidableEq ι]

/-! ### Parents -/

/-- One more parent of the edge's target. -/
def addParent (parents : OrdDict ι (List ι)) (e : GraphEdge ι) : OrdDict ι (List ι) :=
  parents.upsert e.target fun held => held.getD [] ++ [e.source]

/-- The parents of each node, by edges; of the nodes given, if any are, edges into others being
left out. -/
def buildParentsOf (edges : List (GraphEdge ι)) : Option (List ι) → OrdDict ι (List ι)
  | none => edges.foldl addParent .empty
  | some nodeIds =>
    edges.foldl (fun parents e => if e.target ∈ parents.keys then addParent parents e else parents)
      (nodeIds.foldl (fun parents x => parents.insert x []) .empty)

/-- `parents.get(x, [])`. -/
def parentsIn (parents : OrdDict ι (List ι)) (x : ι) : List ι := (parents.get? x).getD []

/-- The sources of the edges into a node. -/
def sourcesInto (edges : List (GraphEdge ι)) (x : ι) : List ι :=
  (edges.filter fun e => e.target = x).map GraphEdge.source

theorem mem_sourcesInto {edges : List (GraphEdge ι)} {a x : ι} :
    a ∈ sourcesInto edges x ↔ ⟨a, x⟩ ∈ edges := by
  simp only [sourcesInto, List.mem_map, List.mem_filter, decide_eq_true_eq]
  constructor
  · rintro ⟨e, ⟨he, rfl⟩, rfl⟩
    exact he
  · exact fun he => ⟨_, ⟨he, rfl⟩, rfl⟩

theorem sourcesInto_cons (e : GraphEdge ι) (edges : List (GraphEdge ι)) (x : ι) :
    sourcesInto (e :: edges) x =
      (if e.target = x then [e.source] else []) ++ sourcesInto edges x := by
  unfold sourcesInto
  by_cases he : e.target = x <;> simp [he]

theorem parentsIn_addParent (parents : OrdDict ι (List ι)) (e : GraphEdge ι) (x : ι) :
    parentsIn (addParent parents e) x =
      parentsIn parents x ++ if e.target = x then [e.source] else [] := by
  unfold parentsIn addParent
  rw [OrdDict.get?_upsert]
  by_cases hx : x = e.target
  · simp [hx]
  · simp [hx, Ne.symm hx]

theorem keys_addParent_of_mem {parents : OrdDict ι (List ι)} {e : GraphEdge ι}
    (h : e.target ∈ parents.keys) : (addParent parents e).keys = parents.keys := by
  unfold addParent
  rw [OrdDict.keys_upsert, if_pos h]

/-- The edges leave the nodes given as they are, and add the sources of those into them. -/
theorem foldl_addParent_spec (edges : List (GraphEdge ι)) (parents : OrdDict ι (List ι)) :
    (edges.foldl (fun parents e => if e.target ∈ parents.keys then addParent parents e
        else parents) parents).keys = parents.keys ∧
      ∀ x ∈ parents.keys, parentsIn (edges.foldl (fun parents e =>
        if e.target ∈ parents.keys then addParent parents e else parents) parents) x =
          parentsIn parents x ++ sourcesInto edges x := by
  induction edges generalizing parents with
  | nil => exact ⟨rfl, fun x _ => (List.append_nil _).symm⟩
  | cons e edges ih =>
    rw [List.foldl_cons]
    by_cases he : e.target ∈ parents.keys
    · rw [if_pos he]
      obtain ⟨hkeys, hparents⟩ := ih (addParent parents e)
      rw [keys_addParent_of_mem he] at hkeys hparents
      refine ⟨hkeys, fun x hx => ?_⟩
      rw [hparents x hx, parentsIn_addParent, sourcesInto_cons, List.append_assoc]
    · rw [if_neg he]
      obtain ⟨hkeys, hparents⟩ := ih parents
      refine ⟨hkeys, fun x hx => ?_⟩
      have hne : e.target ≠ x := fun h => he (h ▸ hx)
      rw [hparents x hx, sourcesInto_cons, if_neg hne, List.nil_append]

theorem foldl_insert_nil_spec (nodeIds : List ι) :
    (nodeIds.foldl (fun parents x => parents.insert x []) (.empty : OrdDict ι (List ι))).keys =
        firsts nodeIds ∧
      ∀ x, parentsIn (nodeIds.foldl (fun parents x => parents.insert x [])
        (.empty : OrdDict ι (List ι))) x = [] := by
  have hfold : ∀ parents : OrdDict ι (List ι), (∀ x, parentsIn parents x = []) →
      (nodeIds.foldl (fun parents x => parents.insert x []) parents).keys =
          nodeIds.foldl register parents.keys ∧
        ∀ x, parentsIn (nodeIds.foldl (fun parents x => parents.insert x []) parents) x = [] := by
    induction nodeIds with
    | nil => exact fun parents h => ⟨rfl, h⟩
    | cons y nodeIds ih =>
      intro parents h
      have hinsert : ∀ x, parentsIn (parents.insert y []) x = [] := by
        intro x
        have hx := h x
        unfold parentsIn OrdDict.insert at *
        rw [OrdDict.get?_upsert]
        split_ifs
        · rfl
        · exact hx
      have hkeys : (parents.insert y []).keys = register parents.keys y :=
        OrdDict.keys_upsert ..
      obtain ⟨hk, hp⟩ := ih (parents.insert y []) hinsert
      rw [hkeys] at hk
      exact ⟨hk, hp⟩
  exact hfold .empty fun _ => rfl

theorem keys_buildParentsOf (edges : List (GraphEdge ι)) (nodeIds : List ι) :
    (buildParentsOf edges (some nodeIds)).keys = firsts nodeIds := by
  unfold buildParentsOf
  rw [(foldl_addParent_spec edges _).1, (foldl_insert_nil_spec nodeIds).1]

/-- Of the nodes given, the parents are the sources of the edges into them. -/
theorem get?_buildParentsOf (edges : List (GraphEdge ι)) (nodeIds : List ι) (x : ι) :
    (buildParentsOf edges (some nodeIds)).get? x =
      if x ∈ nodeIds then some (sourcesInto edges x) else none := by
  have hkeys := keys_buildParentsOf edges nodeIds
  by_cases hx : x ∈ nodeIds
  · rw [if_pos hx]
    have hmem : x ∈ (buildParentsOf edges (some nodeIds)).keys := hkeys ▸ mem_firsts.mpr hx
    obtain ⟨held, hheld⟩ := OrdDict.mem_keys_iff.mp hmem
    have hnil := foldl_insert_nil_spec nodeIds
    have hparents := (foldl_addParent_spec edges _).2 x (hnil.1 ▸ mem_firsts.mpr hx)
    rw [hnil.2, List.nil_append] at hparents
    have hin : parentsIn (buildParentsOf edges (some nodeIds)) x = sourcesInto edges x := hparents
    unfold parentsIn at hin
    rw [hheld] at hin ⊢
    exact congrArg some hin
  · rw [if_neg hx]
    refine OrdDict.get?_eq_none_iff.mpr fun hmem => hx ?_
    rw [hkeys] at hmem
    exact mem_firsts.mp hmem

/-! ### The walk upstream -/

/-- All nodes upstream of `nodeId`, in depth-first preorder from its parents. -/
def upstreamNodeIds (nodeId : ι) (parents : OrdDict ι (List ι)) : List ι :=
  visit (parentsIn parents)
    ((parentsIn parents nodeId).length + (parents.entries.map fun e => e.2.length).sum) []
    (parentsIn parents nodeId)

/-- The stack is popped for each parent at most. -/
theorem pending_parentsIn (parents : OrdDict ι (List ι)) (start : List ι) :
    pending parents.keys.toFinset (parentsIn parents) [] start =
      start.length + (parents.entries.map fun e => e.2.length).sum := by
  unfold pending
  rw [List.toFinset_nil, Finset.sdiff_empty, List.sum_toFinset _ parents.nodup_keys]
  unfold OrdDict.keys Assoc.keys
  rw [List.map_map]
  congr 2
  refine List.map_congr_left fun e he => ?_
  have hget : parents.get? e.1 = some e.2 := OrdDict.mem_entries_iff.mp he
  unfold parentsIn
  rw [Function.comp_apply, hget]
  rfl

theorem parentsIn_of_notMem {parents : OrdDict ι (List ι)} {x : ι}
    (hx : x ∉ parents.keys.toFinset) : parentsIn parents x = [] := by
  rw [List.mem_toFinset] at hx
  unfold parentsIn
  rw [OrdDict.get?_eq_none_iff.mpr hx]
  rfl

/-- Upstream are the nodes that lead to the node by one edge or more. -/
theorem mem_upstreamNodeIds_iff {nodeId x : ι} {parents : OrdDict ι (List ι)} :
    x ∈ upstreamNodeIds nodeId parents ↔
      TransGen (fun a b => a ∈ parentsIn parents b) x nodeId := by
  unfold upstreamNodeIds
  rw [mem_visit_iff (fun _ => parentsIn_of_notMem) (pending_parentsIn parents _).le,
    TransGen.tail'_iff]
  constructor
  · rintro ⟨s, hs, hreach⟩
    exact ⟨s, reflTransGen_swap.mp hreach, hs⟩
  · rintro ⟨s, hreach, hs⟩
    exact ⟨s, hs, reflTransGen_swap.mpr hreach⟩

/-- An edge from `a` leads to the node `b`. -/
def Feeds (edges : List (GraphEdge ι)) (allIds : List ι) (a b : ι) : Prop :=
  b ∈ allIds ∧ ⟨a, b⟩ ∈ edges

/-- The node and all upstream of it, by edges into nodes of `allIds`. -/
def ancestors (targetId : ι) (edges : List (GraphEdge ι)) (allIds : List ι) : Finset ι :=
  insert targetId (upstreamNodeIds targetId (buildParentsOf edges (some allIds))).toFinset

theorem mem_parentsIn_iff {edges : List (GraphEdge ι)} {allIds : List ι} {a b : ι} :
    a ∈ parentsIn (buildParentsOf edges (some allIds)) b ↔ Feeds edges allIds a b := by
  unfold parentsIn Feeds
  rw [get?_buildParentsOf]
  split_ifs with hb
  · exact ⟨fun ha => ⟨hb, mem_sourcesInto.mp ha⟩, fun h => mem_sourcesInto.mpr h.2⟩
  · exact ⟨fun ha => absurd ha List.not_mem_nil, fun h => absurd h.1 hb⟩

/-- The ancestors are what leads to the node, itself included. -/
theorem mem_ancestors_iff {targetId x : ι} {edges : List (GraphEdge ι)} {allIds : List ι} :
    x ∈ ancestors targetId edges allIds ↔ ReflTransGen (Feeds edges allIds) x targetId := by
  unfold ancestors
  rw [Finset.mem_insert, List.mem_toFinset, mem_upstreamNodeIds_iff,
    reflTransGen_iff_eq_or_transGen,
    show (fun a b => a ∈ parentsIn (buildParentsOf edges (some allIds)) b) = Feeds edges allIds from
      funext fun a => funext fun b => propext mem_parentsIn_iff]
  exact or_congr_left ⟨fun h => h.symm, fun h => h.symm⟩

/-- What leads into an ancestor is one. -/
theorem source_mem_ancestors {targetId : ι} {edges : List (GraphEdge ι)} {allIds : List ι}
    {e : GraphEdge ι} (he : e ∈ edges) (hknown : e.target ∈ allIds)
    (h : e.target ∈ ancestors targetId edges allIds) :
    e.source ∈ ancestors targetId edges allIds :=
  mem_ancestors_iff.mpr ((mem_ancestors_iff.mp h).head ⟨hknown, he⟩)

end Haute.Graph
