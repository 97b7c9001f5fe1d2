import Mathlib.Algebra.BigOperators.Group.Finset.Piecewise
import Mathlib.Data.Finset.Sort
import Haute.Data.Firsts
import Haute.Data.Kahn

/-!
# The topological sorter

The standard library's sorter is told each node with some of its predecessors, in any order. It
keeps the nodes in the order they were first named and counts, for each, the links that come in
from those it waits for. `handedOut` is the order in which the nodes come out, first ready first;
a cycle keeps its nodes, and what waits for them, from ever being ready (`mem_handedOut_iff`,
`hasCycle_iff`). Which of several cycles is then reported is left open by its documentation and
is a parameter `reported` here.
-/

namespace Haute.Graph

open Haute.Data

variable {ι : Type} [DecidableEq ι]

/-! ### Counted links -/

/-- For each node, how many links come in, and where those going out lead. -/
structure Links (ι : Type) where
  inDegree : ι → ℤ
  children : ι → List ι

namespace Links

/-- No links. -/
def empty : Links ι := ⟨fun _ => 0, fun _ => []⟩

/-- One more link from `source` to `target`. -/
def link (l : Links ι) (source target : ι) : Links ι where
  inDegree := Function.update l.inDegree target (l.inDegree target + 1)
  children := Function.update l.children source (l.children source ++ [target])

/-- The links that come in are those that go out, all from nodes of `V`. -/
structure Counted (V : Finset ι) (l : Links ι) : Prop where
  inDegree_eq : ∀ x, l.inDegree x = ∑ a ∈ V, ((l.children a).count x : ℤ)
  outside : ∀ a, a ∉ V → l.children a = []
  closed : ∀ a, ∀ b ∈ l.children a, b ∈ V

theorem counted_empty (V : Finset ι) : Counted V (empty : Links ι) where
  inDegree_eq x := by simp [empty]
  outside a _ := rfl
  closed a b hb := absurd hb (List.not_mem_nil)

theorem mem_children_link {l : Links ι} {source target a b : ι} :
    b ∈ (l.link source target).children a ↔
      b ∈ l.children a ∨ (a = source ∧ b = target) := by
  unfold link
  by_cases ha : a = source
  · subst ha
    simp
  · simp [ha]

theorem Counted.link {V : Finset ι} {l : Links ι} (h : Counted V l) {source target : ι}
    (hs : source ∈ V) (ht : target ∈ V) : Counted V (l.link source target) where
  inDegree_eq x := by
    have hcount : ∀ a, (((l.link source target).children a).count x : ℤ) =
        (l.children a).count x + if a = source then (if target = x then 1 else 0) else 0 := by
      intro a
      by_cases ha : a = source
      · subst ha
        simp only [Links.link, Function.update_self, List.count_append, List.count_singleton,
          beq_iff_eq, if_true]
        push_cast
        rfl
      · simp [Links.link, ha]
    rw [Finset.sum_congr rfl fun a _ => hcount a, Finset.sum_add_distrib, ← h.inDegree_eq,
      Finset.sum_ite_eq' V source, if_pos hs]
    by_cases hx : target = x
    · subst hx
      simp [Links.link]
    · simp [Links.link, Function.update_of_ne (Ne.symm hx), hx]
  outside a ha := by
    have hne : a ≠ source := fun e => ha (e ▸ hs)
    simp only [Links.link, Function.update_of_ne hne]
    exact h.outside a ha
  closed a b hb := by
    rcases mem_children_link.mp hb with hb | ⟨-, rfl⟩
    · exact h.closed a b hb
    · exact ht

/-- More nodes, without links, change nothing. -/
theorem Counted.mono {V W : Finset ι} {l : Links ι} (h : Counted V l) (hVW : V ⊆ W) :
    Counted W l where
  inDegree_eq x := by
    rw [h.inDegree_eq]
    refine Finset.sum_subset hVW fun a _ ha => ?_
    rw [h.outside a ha]
    rfl
  outside a ha := h.outside a fun hV => ha (hVW hV)
  closed a b hb := hVW (h.closed a b hb)

end Links

/-! ### The sorter -/

/-- The nodes in the order they were named, each once, and the links between them. -/
structure Sorter (ι : Type) [DecidableEq ι] where
  nodes : List ι
  links : Links ι
  nodup : nodes.Nodup
  counted : links.Counted nodes.toFinset

namespace Sorter

/-- A sorter without nodes. -/
def empty : Sorter ι := ⟨[], .empty, List.nodup_nil, Links.counted_empty _⟩

/-- A node is known, if it was not before. -/
def register (s : Sorter ι) (x : ι) : Sorter ι where
  nodes := Data.register s.nodes x
  links := s.links
  nodup := nodup_register s.nodup x
  counted := s.counted.mono fun y hy => by
    rw [List.mem_toFinset] at hy ⊢
    exact mem_register.mpr (.inl hy)

/-- The node `x` has the predecessor `p`. -/
def precede (s : Sorter ι) (x p : ι) : Sorter ι where
  nodes := Data.register (Data.register s.nodes x) p
  links := s.links.link p x
  nodup := nodup_register (nodup_register s.nodup x) p
  counted := ((s.register x).register p).counted.link (by simp [register]) (by simp [register])

/-- A node with some of its predecessors. -/
def add (s : Sorter ι) (x : ι) (predecessors : List ι) : Sorter ι :=
  predecessors.foldl (fun s p => s.precede x p) (s.register x)

/-- The nodes that wait for none. -/
def ready (s : Sorter ι) : List ι := s.nodes.filter fun x => decide (s.links.inDegree x = 0)

/-- The nodes in the order in which they come out, first ready first: those that are ready are
handed out together, and when they are done the next are ready in the order they were released. -/
def handedOut (s : Sorter ι) : List ι :=
  kahn (· ++ ·) s.links.children (s.nodes.length + 1) s.links.inDegree s.ready []

/-- Whether there is a cycle, which keeps its nodes from ever being ready. -/
def hasCycle (s : Sorter ι) : Bool := s.nodes.any fun x => decide (x ∉ s.handedOut)

/-- The nodes that are ready at first, or a cycle if there is one. -/
def prepare (reported : Sorter ι → List ι) (s : Sorter ι) : Except (List ι) (List ι) :=
  if s.hasCycle then .error (reported s) else .ok s.ready

/-- All nodes in a topological order. -/
def staticOrder (reported : Sorter ι → List ι) (s : Sorter ι) : Except (List ι) (List ι) := do
  let _ ← s.prepare reported
  .ok s.handedOut

end Sorter

/-! ### What a sorter knows -/

namespace Sorter

/-- Whether the sorter holds that `b` waits for `a`. -/
abbrev Waits (s : Sorter ι) (a b : ι) : Prop := WaitsFor s.nodes.toFinset s.links.children a b

theorem waits_iff {s : Sorter ι} {a b : ι} : s.Waits a b ↔ b ∈ s.links.children a := by
  refine ⟨fun h => h.2, fun h => ⟨?_, h⟩⟩
  by_contra ha
  rw [s.counted.outside a ha] at h
  exact List.not_mem_nil h

theorem mem_nodes_add {s : Sorter ι} {x : ι} {ps : List ι} {y : ι} :
    y ∈ (s.add x ps).nodes ↔ y ∈ s.nodes ∨ y = x ∨ y ∈ ps := by
  have hfold : ∀ s : Sorter ι, y ∈ (ps.foldl (fun s p => s.precede x p) s).nodes ↔
      y ∈ s.nodes ∨ (ps ≠ [] ∧ y = x) ∨ y ∈ ps := by
    induction ps with
    | nil => simp
    | cons p ps ih =>
      intro s
      rw [List.foldl_cons, ih]
      simp only [precede, mem_register, List.mem_cons, ne_eq, reduceCtorEq, not_false_eq_true,
        true_and]
      tauto
  unfold add
  rw [hfold]
  simp only [register, mem_register]
  tauto

theorem mem_children_add {s : Sorter ι} {x : ι} {ps : List ι} {a b : ι} :
    b ∈ (s.add x ps).links.children a ↔ b ∈ s.links.children a ∨ (a ∈ ps ∧ b = x) := by
  have hfold : ∀ s : Sorter ι, b ∈ (ps.foldl (fun s p => s.precede x p) s).links.children a ↔
      b ∈ s.links.children a ∨ (a ∈ ps ∧ b = x) := by
    induction ps with
    | nil => simp
    | cons p ps ih =>
      intro s
      rw [List.foldl_cons, ih]
      simp only [precede, Links.mem_children_link, List.mem_cons]
      tauto
  exact hfold (s.register x)

/-- The nodes and predecessors of several entries, added one after another. -/
def addAll (s : Sorter ι) (entries : List (ι × List ι)) : Sorter ι :=
  entries.foldl (fun s e => s.add e.1 e.2) s

theorem mem_nodes_addAll {s : Sorter ι} {entries : List (ι × List ι)} {y : ι} :
    y ∈ (s.addAll entries).nodes ↔ y ∈ s.nodes ∨ ∃ e ∈ entries, y = e.1 ∨ y ∈ e.2 := by
  unfold addAll
  induction entries generalizing s with
  | nil => simp
  | cons e entries ih =>
    rw [List.foldl_cons, ih, mem_nodes_add]
    simp only [List.mem_cons, exists_eq_or_imp, or_assoc]

theorem mem_children_addAll {s : Sorter ι} {entries : List (ι × List ι)} {a b : ι} :
    b ∈ (s.addAll entries).links.children a ↔
      b ∈ s.links.children a ∨ ∃ e ∈ entries, a ∈ e.2 ∧ b = e.1 := by
  unfold addAll
  induction entries generalizing s with
  | nil => simp
  | cons e entries ih =>
    rw [List.foldl_cons, ih, mem_children_add]
    simp only [List.mem_cons, exists_eq_or_imp, or_assoc]

theorem card_nodes_lt (s : Sorter ι) : s.nodes.toFinset.card < s.nodes.length + 1 := by
  rw [List.toFinset_card_of_nodup s.nodup]
  omega

theorem waiting (s : Sorter ι) {ready : List ι} (h : ready.Perm s.ready) :
    Waiting s.nodes.toFinset s.links.children s.links.inDegree ready [] :=
  waiting_nil s.nodup s.counted.inDegree_eq h

theorem mem_handedOut_iff (s : Sorter ι) {x : ι} (hx : x ∈ s.nodes) :
    x ∈ s.handedOut ↔ ¬ Downstream s.Waits x := by
  unfold handedOut
  rw [mem_kahn_iff_acc (fun a _ b hb => s.counted.closed a b hb) (fun _ _ => List.Perm.refl _)
    (s.waiting (List.Perm.refl _)) s.card_nodes_lt (List.mem_toFinset.mpr hx)]
  exact acc_iff_not_downstream (fun a b h => h.1) (List.mem_toFinset.mpr hx)

/-- There is a cycle when some node waits for itself. -/
theorem hasCycle_iff (s : Sorter ι) :
    s.hasCycle = true ↔ ∃ x, Relation.TransGen s.Waits x x := by
  unfold hasCycle
  rw [List.any_eq_true]
  constructor
  · rintro ⟨x, hx, hnot⟩
    rw [decide_eq_true_eq, s.mem_handedOut_iff hx, not_not] at hnot
    obtain ⟨c, hc, -⟩ := hnot
    exact ⟨c, hc⟩
  · rintro ⟨x, hx⟩
    have hmem : x ∈ s.nodes := by
      obtain ⟨y, -, hy⟩ := Relation.TransGen.tail'_iff.mp hx
      exact List.mem_toFinset.mp (s.counted.closed y x hy.2)
    refine ⟨x, hmem, ?_⟩
    rw [decide_eq_true_eq, s.mem_handedOut_iff hmem, not_not]
    exact ⟨x, hx, Relation.ReflTransGen.refl⟩

end Sorter

end Haute.Graph
