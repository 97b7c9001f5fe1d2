import Haute.Data.Restriction
import Haute.Graph.Topo

/-!
# Sorting what is upstream

`p` keeps the sources of its edges when an edge into `p` comes from `p`. Sorted alone, the nodes
of `p` with the edges into them come out as they stand in the sorted whole
(`topoSortIds_filter`): the sorter of the part holds the part of what the sorter of the whole
holds (`Restricts`), and no node outside releases one inside.
-/

namespace Haute.Graph

open Haute.Data

variable {ι : Type} [LinearOrder ι] {p : ι → Bool} {nodeIds : List ι} {edges : List (GraphEdge ι)}

/-! ### The sorter of known nodes and edges -/

theorem firsts_filter (p : ι → Bool) (xs : List ι) :
    firsts (xs.filter p) = (firsts xs).filter p := by
  have hfold : ∀ keys : List ι,
      (xs.filter p).foldl register (keys.filter p) = (xs.foldl register keys).filter p := by
    induction xs with
    | nil => exact fun keys => rfl
    | cons x xs ih =>
      intro keys
      rw [List.foldl_cons, ← ih]
      by_cases hx : p x = true
      · rw [List.filter_cons_of_pos hx, List.foldl_cons]
        congr 1
        unfold register
        by_cases hk : x ∈ keys
        · rw [if_pos hk, if_pos (List.mem_filter.mpr ⟨hk, hx⟩)]
        · rw [if_neg hk, if_neg fun h => hk (List.mem_filter.mp h).1, List.filter_append,
            List.filter_cons_of_pos hx, List.filter_nil]
      · rw [List.filter_cons_of_neg hx]
        congr 1
        unfold register
        split_ifs
        · rfl
        · rw [List.filter_append, List.filter_cons_of_neg hx, List.filter_nil, List.append_nil]
  exact hfold []

/-- The links of edges, each counted. -/
def linkAll (l : Links ι) (edges : List (GraphEdge ι)) : Links ι :=
  edges.foldl (fun l e => l.link e.source e.target) l

/-- A sorter of known nodes and edges holds the nodes where they are first, and the edges. -/
theorem sorterOf_spec (hknown : ∀ e ∈ edges, e.source ∈ nodeIds ∧ e.target ∈ nodeIds) :
    (sorterOf nodeIds edges).nodes = firsts nodeIds ∧
      (sorterOf nodeIds edges).links = linkAll .empty edges := by
  have hnodes : ∀ s : Sorter ι, (s.addAll (nodeIds.map fun x => (x, []))).nodes =
      nodeIds.foldl register s.nodes ∧
      (s.addAll (nodeIds.map fun x => (x, []))).links = s.links := by
    clear hknown
    induction nodeIds with
    | nil => exact fun s => ⟨rfl, rfl⟩
    | cons x nodeIds ih => exact fun s => ih (s.register x)
  have hedges : ∀ s : Sorter ι, (∀ e ∈ edges, e.source ∈ s.nodes ∧ e.target ∈ s.nodes) →
      (s.addAll (edges.map fun e => (e.target, [e.source]))).nodes = s.nodes ∧
      (s.addAll (edges.map fun e => (e.target, [e.source]))).links = linkAll s.links edges := by
    clear hknown
    induction edges with
    | nil => exact fun s _ => ⟨rfl, rfl⟩
    | cons e edges ih =>
      intro s hs
      obtain ⟨hsource, htarget⟩ := hs e List.mem_cons_self
      have hadd : (s.add e.target [e.source]).nodes = s.nodes := by
        change register (register (register s.nodes e.target) e.target) e.source = s.nodes
        rw [register_of_mem htarget, register_of_mem htarget, register_of_mem hsource]
      obtain ⟨hn, hl⟩ := ih (s.add e.target [e.source]) fun e' he' =>
        hadd ▸ hs e' (List.mem_cons_of_mem e he')
      exact ⟨hn.trans hadd, hl⟩
  have hfirst := hnodes .empty
  have hrest := hedges (Sorter.empty.addAll (nodeIds.map fun x => (x, []))) (by
    intro e he
    rw [hfirst.1]
    exact ⟨mem_firsts.mpr (hknown e he).1, mem_firsts.mpr (hknown e he).2⟩)
  have hsplit : sorterOf nodeIds edges =
      (Sorter.empty.addAll (nodeIds.map fun x => (x, []))).addAll
        (edges.map fun e => (e.target, [e.source])) := List.foldl_append
  rw [hsplit]
  refine ⟨hrest.1.trans hfirst.1, ?_⟩
  rw [hrest.2, hfirst.2]
  rfl

/-! ### The part of a sorter -/

/-- The links `part` are what `whole` holds of `p`. -/
structure Restricts (p : ι → Bool) (part whole : Links ι) : Prop where
  inDegree : ∀ x, p x = true → part.inDegree x = whole.inDegree x
  children : ∀ a, p a = true → part.children a = (whole.children a).filter p
  outside : ∀ a, p a = false → ∀ b ∈ whole.children a, p b = false

theorem Restricts.link {part whole : Links ι} (h : Restricts p part whole) {e : GraphEdge ι}
    (hsource : p e.source = true) (htarget : p e.target = true) :
    Restricts p (part.link e.source e.target) (whole.link e.source e.target) where
  inDegree x hx := by
    by_cases hxt : x = e.target
    · simp only [hxt, Links.link, Function.update_self, h.inDegree _ htarget]
    · simp only [Links.link, Function.update_of_ne hxt, h.inDegree x hx]
  children a ha := by
    by_cases has : a = e.source
    · simp only [has, Links.link, Function.update_self, h.children _ hsource, List.filter_append,
        List.filter_cons_of_pos htarget, List.filter_nil]
    · simp only [Links.link, Function.update_of_ne has, h.children a ha]
  outside a ha b hb := by
    rcases Links.mem_children_link.mp hb with hb | ⟨rfl, -⟩
    · exact h.outside a ha b hb
    · rw [hsource] at ha
      exact absurd ha (by decide)

theorem Restricts.skip {part whole : Links ι} (h : Restricts p part whole) {e : GraphEdge ι}
    (htarget : p e.target = false) :
    Restricts p part (whole.link e.source e.target) where
  inDegree x hx := by
    have hne : x ≠ e.target := fun hxt => by
      rw [hxt, htarget] at hx
      exact Bool.false_ne_true hx
    simp only [Links.link, Function.update_of_ne hne, h.inDegree x hx]
  children a ha := by
    have hneg : ¬ p e.target = true := fun ht => by
      rw [htarget] at ht
      exact Bool.false_ne_true ht
    by_cases has : a = e.source
    · rw [has] at ha ⊢
      simp only [Links.link, Function.update_self, h.children _ ha, List.filter_append,
        List.filter_cons_of_neg hneg, List.filter_nil, List.append_nil]
    · simp only [Links.link, Function.update_of_ne has, h.children a ha]
  outside a ha b hb := by
    rcases Links.mem_children_link.mp hb with hb | ⟨-, rfl⟩
    · exact h.outside a ha b hb
    · exact htarget

/-- The edges into `p` make what all the edges make, of `p`. -/
theorem restricts_linkAll (hclosed : ∀ e ∈ edges, p e.target = true → p e.source = true)
    {part whole : Links ι} (h : Restricts p part whole) :
    Restricts p (linkAll part (edges.filter fun e => p e.target)) (linkAll whole edges) := by
  induction edges generalizing part whole with
  | nil => exact h
  | cons e edges ih =>
    have hrest : ∀ e' ∈ edges, p e'.target = true → p e'.source = true :=
      fun e' he' => hclosed e' (List.mem_cons_of_mem e he')
    by_cases htarget : p e.target = true
    · rw [List.filter_cons_of_pos (p := fun e : GraphEdge ι => p e.target) htarget]
      exact ih hrest (h.link (hclosed e List.mem_cons_self htarget) htarget)
    · rw [List.filter_cons_of_neg (p := fun e : GraphEdge ι => p e.target) htarget]
      exact ih hrest (h.skip (Bool.not_eq_true _ ▸ htarget))

/-- The part comes out as it stands in the whole. -/
theorem handedOut_filter (hknown : ∀ e ∈ edges, e.source ∈ nodeIds ∧ e.target ∈ nodeIds)
    (hclosed : ∀ e ∈ edges, p e.target = true → p e.source = true) :
    (sorterOf (nodeIds.filter p) (edges.filter fun e => p e.target)).handedOut =
      (sorterOf nodeIds edges).handedOut.filter p := by
  have hknown' : ∀ e ∈ edges.filter fun e => p e.target,
      e.source ∈ nodeIds.filter p ∧ e.target ∈ nodeIds.filter p := by
    intro e he
    obtain ⟨he, htarget⟩ := List.mem_filter.mp he
    exact ⟨List.mem_filter.mpr ⟨(hknown e he).1, hclosed e he htarget⟩,
      List.mem_filter.mpr ⟨(hknown e he).2, htarget⟩⟩
  obtain ⟨hnodes, hlinks⟩ := sorterOf_spec hknown
  obtain ⟨hnodes', hlinks'⟩ := sorterOf_spec hknown'
  have hempty : Restricts p (.empty : Links ι) .empty :=
    ⟨fun _ _ => rfl, fun _ _ => rfl, fun _ _ b hb => absurd hb List.not_mem_nil⟩
  have hrestricts := restricts_linkAll hclosed hempty
  rw [← hlinks, ← hlinks'] at hrestricts
  have hready : (sorterOf (nodeIds.filter p) (edges.filter fun e => p e.target)).ready =
      (sorterOf nodeIds edges).ready.filter p := by
    unfold Sorter.ready
    rw [hnodes', hnodes, firsts_filter, List.filter_filter, List.filter_filter]
    refine List.filter_congr fun x _ => ?_
    by_cases hx : p x = true
    · rw [hrestricts.inDegree x hx, hx, Bool.and_true, Bool.true_and]
    · rw [Bool.not_eq_true] at hx
      rw [hx, Bool.and_false, Bool.false_and]
  have hwaiting := (sorterOf (nodeIds.filter p) (edges.filter fun e => p e.target)).waiting
    (List.Perm.refl _)
  rw [hready] at hwaiting
  unfold Sorter.handedOut
  rw [hready]
  exact kahn_filter (fun _ _ => List.Perm.refl _) (fun rest new => List.filter_append rest new)
    (fun rest => List.append_nil rest)
    (fun a _ b hb => (sorterOf nodeIds edges).counted.closed a b hb)
    (fun a _ b hb => Links.Counted.closed (Sorter.counted _) a b hb)
    hrestricts.children hrestricts.outside ((sorterOf nodeIds edges).waiting (List.Perm.refl _))
    hwaiting hrestricts.inDegree (Sorter.card_nodes_lt _) (Sorter.card_nodes_lt _)

/-! ### Sorting the part -/

theorem partitionEdges_of_known
    (hknown : ∀ e ∈ edges, e.source ∈ nodeIds ∧ e.target ∈ nodeIds) :
    (partitionEdges nodeIds edges).1 = edges ∧ (partitionEdges nodeIds edges).2.1 = [] :=
  ⟨List.filter_eq_self.mpr fun e he => decide_eq_true (hknown e he),
    List.filter_eq_nil_iff.mpr fun e he => by simp [hknown e he]⟩

/-- Known edges are sorted when there is no cycle, as the sorter hands the nodes out. -/
theorem topoSortIds_eq_ok_iff (reported : Sorter ι → List ι) {order : List ι}
    (hknown : ∀ e ∈ edges, e.source ∈ nodeIds ∧ e.target ∈ nodeIds) :
    topoSortIds reported nodeIds edges = .ok order ↔
      (∀ x, ¬ Relation.TransGen (Connects nodeIds edges) x x) ∧
        order = (sorterOf nodeIds edges).handedOut := by
  obtain ⟨hkept, hnone⟩ := partitionEdges_of_known hknown
  have hcycle := (sorterOf nodeIds edges).hasCycle_iff
  rw [waits_sorterOf hknown] at hcycle
  unfold topoSortIds
  dsimp only
  rw [if_pos hnone, hkept]
  unfold topoSortKnownIds Sorter.staticOrder Sorter.prepare
  by_cases hc : (sorterOf nodeIds edges).hasCycle = true
  · rw [if_pos hc]
    obtain ⟨x, hx⟩ := hcycle.mp hc
    exact ⟨fun h => (nomatch h), fun h => absurd hx (h.1 x)⟩
  · rw [if_neg hc]
    have hno : ∀ x, ¬ Relation.TransGen (Connects nodeIds edges) x x :=
      fun x hx => hc (hcycle.mpr ⟨x, hx⟩)
    exact ⟨fun h => ⟨hno, (Except.ok.inj h).symm⟩, fun h => congrArg Except.ok h.2.symm⟩

/-- When the whole is sorted, so is the part, as it stands in the whole. -/
theorem topoSortIds_filter (reported : Sorter ι → List ι) {order : List ι}
    (hknown : ∀ e ∈ edges, e.source ∈ nodeIds ∧ e.target ∈ nodeIds)
    (hclosed : ∀ e ∈ edges, p e.target = true → p e.source = true)
    (h : topoSortIds reported nodeIds edges = .ok order) :
    topoSortIds reported (nodeIds.filter p) (edges.filter fun e => p e.target) =
      .ok (order.filter p) := by
  obtain ⟨hacyclic, rfl⟩ := (topoSortIds_eq_ok_iff reported hknown).mp h
  refine (topoSortIds_eq_ok_iff reported fun e he => ?_).mpr ⟨fun x hx => hacyclic x ?_,
    (handedOut_filter hknown hclosed).symm⟩
  · obtain ⟨he, htarget⟩ := List.mem_filter.mp he
    exact ⟨List.mem_filter.mpr ⟨(hknown e he).1, hclosed e he htarget⟩,
      List.mem_filter.mpr ⟨(hknown e he).2, htarget⟩⟩
  · have hle : Connects (nodeIds.filter p) (edges.filter fun e => p e.target) ≤
        Connects nodeIds edges := fun a b hab => ⟨(List.mem_filter.mp hab.1).1,
      (List.mem_filter.mp hab.2.1).1, (List.mem_filter.mp hab.2.2).1⟩
    exact Relation.TransGen.mono hle x x hx

end Haute.Graph
