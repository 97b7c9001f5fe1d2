import Haute.Data.Answers
import Haute.Lineage.Prepared

/-!
# What a switch leaves out

An edge is inactive when it enters a switch that some input maps to the scenario, from an input
that another scenario uses (`Inactive`). Pruning drops the inactive edges, and what shares an id
with one (`mem_pruneLiveSwitchEdges_iff`); a second time it drops nothing (`prune_kept`).
-/

namespace Haute.Lineage

open Haute.Data Haute.Graph
open Haute.Fingerprint (GraphNode GraphEdge PipelineGraph)

variable {F : Type} {submodels : String → Option (List String)} {scenario : String}
  {nodes : OrdDict String (GraphNode F)} {edges kept inactive : List GraphEdge}
  {switches : List (String × GraphNode F)}

/-! ### Asking for each element -/

/-- What is kept is what the answer was yes for; the others were answered with no. -/
theorem keepWhere_spec {α ε : Type} {ask : α → Except ε Bool} {xs ys : List α}
    (h : keepWhere ask xs = .ok ys) :
    (∀ x, x ∈ ys ↔ x ∈ xs ∧ ask x = .ok true) ∧
      ∀ x ∈ xs, ask x = .ok true ∨ ask x = .ok false := by
  induction xs generalizing ys with
  | nil =>
    cases h
    exact ⟨fun x => by simp, fun x hx => absurd hx List.not_mem_nil⟩
  | cons y xs ih =>
    obtain ⟨keep, hkeep, h⟩ := bind_eq_ok.mp h
    obtain ⟨rest, hrest, h⟩ := bind_eq_ok.mp h
    cases h
    obtain ⟨hmem, hanswers⟩ := ih hrest
    constructor
    · intro x
      cases keep with
      | false =>
        rw [if_neg Bool.false_ne_true, hmem, List.mem_cons]
        refine ⟨fun hx => ⟨.inr hx.1, hx.2⟩, fun hx => ⟨hx.1.resolve_left fun heq => ?_, hx.2⟩⟩
        rw [heq, hkeep] at hx
        cases hx.2
      | true =>
        rw [if_pos rfl, List.mem_cons, List.mem_cons, hmem, or_and_right]
        exact or_congr_left ⟨fun hx => ⟨hx, hx ▸ hkeep⟩, fun hx => hx.1⟩
    · intro x hx
      rcases List.mem_cons.mp hx with rfl | hx
      · cases keep with
        | false => exact .inr hkeep
        | true => exact .inl hkeep
      · exact hanswers x hx

theorem keepWhere_eq_nil {α ε : Type} {ask : α → Except ε Bool} {xs : List α}
    (h : ∀ x ∈ xs, ask x = .ok false) : keepWhere ask xs = .ok [] := by
  induction xs with
  | nil => rfl
  | cons x xs ih =>
    rw [keepWhere, h x List.mem_cons_self, ih fun y hy => h y (List.mem_cons_of_mem x hy)]
    rfl

/-- Of edges that were kept, between nodes that were kept, none is inactive. -/
theorem inactiveEdges_kept {nodes' : OrdDict String (GraphNode F)}
    (h : inactiveEdges submodels nodes edges scenario switches = .ok inactive)
    (hkept : ∀ e ∈ kept, e ∈ edges ∧ e ∉ inactive)
    (hsource : ∀ e ∈ kept, nodes'.get? e.source = nodes.get? e.source)
    (p : String × GraphNode F → Bool) :
    inactiveEdges submodels nodes' kept scenario (switches.filter p) = .ok [] := by
  induction switches generalizing inactive with
  | nil => rfl
  | cons switch switches ih =>
    obtain ⟨here, hhere, h⟩ := bind_eq_ok.mp h
    obtain ⟨later, hlater, h⟩ := bind_eq_ok.mp h
    cases h
    have hrest := ih hlater fun e he =>
      ⟨(hkept e he).1, fun hin => (hkept e he).2 (List.mem_append_right here hin)⟩
    by_cases hp : p switch = true
    · have hnone : inactiveInto submodels nodes' kept scenario switch = .ok [] := by
        unfold inactiveInto at hhere ⊢
        split_ifs at hhere ⊢ with hserves
        · refine keepWhere_eq_nil fun e he => ?_
          have hask : isInactive submodels nodes' scenario switch e =
              isInactive submodels nodes scenario switch e := by
            unfold isInactive
            rw [hsource e he]
          rw [hask]
          obtain ⟨hmem, hanswers⟩ := keepWhere_spec hhere
          exact (hanswers e (hkept e he).1).resolve_left fun hyes =>
            (hkept e he).2 (List.mem_append_left later ((hmem e).mpr ⟨(hkept e he).1, hyes⟩))
        · rfl
      rw [List.filter_cons_of_pos hp, inactiveEdges, hrest, hnone]
      rfl
    · rw [List.filter_cons_of_neg hp]
      exact hrest

/-- Pruning again what was kept between kept nodes leaves it as it is. -/
theorem prune_kept {all : List GraphEdge} {p : String → Bool}
    (h : pruneLiveSwitchEdges submodels nodes all scenario = .ok edges)
    (hkept : ∀ e ∈ kept, e ∈ edges) (hsource : ∀ e ∈ kept, p e.source = true) :
    pruneLiveSwitchEdges submodels (nodes.filterKeys p) kept scenario = .ok kept := by
  obtain ⟨inactive, hinactive, hedges⟩ := bind_eq_ok.mp h
  cases hedges
  have hnone : inactiveEdges submodels (nodes.filterKeys p) kept scenario
      ((nodes.entries.filter fun e => isScenarioRouter e.2.data.nodeType).filter
        fun switch => p switch.1) = .ok [] := by
    refine inactiveEdges_kept hinactive (fun e he => ?_) (fun e he => ?_) _
    · obtain ⟨hin, hid⟩ := List.mem_filter.mp (hkept e he)
      exact ⟨hin, fun h => of_decide_eq_true hid (List.mem_map.mpr ⟨e, h, rfl⟩)⟩
    · rw [OrdDict.get?_filterKeys, if_pos (hsource e he)]
  have hentries : ((nodes.filterKeys p).entries.filter
      fun e => isScenarioRouter e.2.data.nodeType) =
        (nodes.entries.filter fun e => isScenarioRouter e.2.data.nodeType).filter
          fun switch => p switch.1 := by
    unfold OrdDict.filterKeys
    rw [List.filter_filter, List.filter_filter]
    exact List.filter_congr fun e _ => Bool.and_comm ..
  unfold pruneLiveSwitchEdges
  rw [hentries, hnone]
  exact congrArg Except.ok (List.filter_eq_self.mpr fun e _ => by simp)

/-! ### Inactive edges -/

/-- The edge enters a switch of which some input serves the scenario, from an input that is
mapped to another one. -/
def Inactive (submodels : String → Option (List String)) (nodes : OrdDict String (GraphNode F))
    (scenario : String) (edge : GraphEdge) : Prop :=
  ∃ switch parent inputName mapped, nodes.get? edge.target = some switch ∧
    isScenarioRouter switch.data.nodeType = true ∧
    (∃ e ∈ inputScenarioMap switch, isText scenario e.2 = true) ∧
    nodes.get? edge.source = some parent ∧
    edgeInputName submodels edge parent = .ok inputName ∧
    Assoc.get? (inputScenarioMap switch) inputName = some mapped ∧
    isNull mapped = false ∧ isText scenario mapped = false

theorem isInactive_eq_true_iff {switch : String × GraphNode F} {edge : GraphEdge} :
    isInactive submodels nodes scenario switch edge = .ok true ↔
      edge.target = switch.1 ∧ ∃ parent inputName mapped,
        nodes.get? edge.source = some parent ∧
        edgeInputName submodels edge parent = .ok inputName ∧
        Assoc.get? (inputScenarioMap switch.2) inputName = some mapped ∧
        isNull mapped = false ∧ isText scenario mapped = false := by
  unfold isInactive
  by_cases htarget : edge.target = switch.1
  · rw [if_neg (not_not.mpr htarget)]
    cases hparent : nodes.get? edge.source with
    | none => simp
    | some parent =>
      dsimp only
      rw [bind_eq_ok]
      constructor
      · rintro ⟨inputName, hname, hmapped⟩
        cases hget : Assoc.get? (inputScenarioMap switch.2) inputName with
        | none => simp [hget] at hmapped
        | some mapped =>
          simp only [hget, Except.ok.injEq, Bool.and_eq_true, Bool.not_eq_true'] at hmapped
          exact ⟨htarget, parent, inputName, mapped, rfl, hname, hget, hmapped.1, hmapped.2⟩
      · rintro ⟨-, parent', inputName, mapped, hsome, hname, hget, hnull, htext⟩
        cases hsome
        exact ⟨inputName, hname, by rw [hget]; simp [hnull, htext]⟩
  · rw [if_pos htarget]
    exact ⟨fun h => absurd (Except.ok.inj h) Bool.false_ne_true, fun h => absurd h.1 htarget⟩

/-- What the switches are asked for is what is inactive into one of them. -/
theorem mem_inactiveEdges_iff
    (h : inactiveEdges submodels nodes edges scenario switches = .ok inactive) {e : GraphEdge} :
    e ∈ inactive ↔ e ∈ edges ∧ ∃ switch ∈ switches,
      (∃ entry ∈ inputScenarioMap switch.2, isText scenario entry.2 = true) ∧
        isInactive submodels nodes scenario switch e = .ok true := by
  induction switches generalizing inactive with
  | nil =>
    cases h
    simp
  | cons switch switches ih =>
    obtain ⟨here, hhere, h⟩ := bind_eq_ok.mp h
    obtain ⟨later, hlater, h⟩ := bind_eq_ok.mp h
    cases h
    have hinto : e ∈ here ↔ e ∈ edges ∧
        (∃ entry ∈ inputScenarioMap switch.2, isText scenario entry.2 = true) ∧
          isInactive submodels nodes scenario switch e = .ok true := by
      unfold inactiveInto at hhere
      rw [← List.any_eq_true]
      split_ifs at hhere with hserves
      · rw [(keepWhere_spec hhere).1]
        exact and_congr_right fun _ => ⟨fun h => ⟨hserves, h⟩, fun h => h.2⟩
      · cases hhere
        exact ⟨fun h => absurd h List.not_mem_nil, fun h => absurd h.2.1 hserves⟩
    rw [List.mem_append, hinto, ih hlater, ← and_or_left]
    simp only [List.mem_cons, exists_eq_or_imp]

/-- Pruning drops the edges that are inactive, and those that share an id with one. -/
theorem mem_pruneLiveSwitchEdges_iff
    (h : pruneLiveSwitchEdges submodels nodes edges scenario = .ok kept) (e : GraphEdge) :
    e ∈ kept ↔ e ∈ edges ∧
      ∀ other ∈ edges, other.id = e.id → ¬ Inactive submodels nodes scenario other := by
  obtain ⟨inactive, hinactive, hkept⟩ := bind_eq_ok.mp h
  cases hkept
  have hmem : ∀ other, other ∈ inactive ↔
      other ∈ edges ∧ Inactive submodels nodes scenario other := by
    intro other
    rw [mem_inactiveEdges_iff hinactive]
    refine and_congr_right fun _ => ⟨?_, ?_⟩
    · rintro ⟨switch, hswitch, hserves, hasked⟩
      obtain ⟨hentry, hrouter⟩ := List.mem_filter.mp hswitch
      obtain ⟨htarget, parent, inputName, mapped, hrest⟩ := isInactive_eq_true_iff.mp hasked
      rw [← Prod.mk.eta (p := switch), OrdDict.mem_entries_iff, ← htarget] at hentry
      exact ⟨switch.2, parent, inputName, mapped, hentry, hrouter, hserves, hrest⟩
    · rintro ⟨switch, parent, inputName, mapped, hentry, hrouter, hserves, hrest⟩
      exact ⟨(other.target, switch),
        List.mem_filter.mpr ⟨OrdDict.mem_entries_iff.mpr hentry, hrouter⟩, hserves,
        isInactive_eq_true_iff.mpr ⟨rfl, parent, inputName, mapped, hrest⟩⟩
  rw [List.mem_filter, decide_eq_true_eq, List.mem_map]
  refine and_congr_right fun _ => ⟨fun hnone other hother hid hno => ?_, fun hall => ?_⟩
  · exact hnone ⟨other, (hmem other).mpr ⟨hother, hno⟩, hid⟩
  · rintro ⟨other, hother, hid⟩
    exact hall other ((hmem other).mp hother).1 hid ((hmem other).mp hother).2

/-- A switch between the quotes of two scenarios, and a node that nothing reads. -/
def switched : PipelineGraph ℤ where
  nodes := [⟨"switch", "Switch", .liveSwitch, [("input_scenario_map",
      .obj [("live_quotes", .str "live"), ("batch_quotes", .str "batch")])]⟩,
    ⟨"rates", "Rates", .dataInput, []⟩, ⟨"batch", "batch_quotes", .dataInput, []⟩,
    ⟨"live", "live_quotes", .dataInput, []⟩]
  edges := [⟨"e1", "live", "switch", none, none⟩, ⟨"e2", "batch", "switch", none, none⟩]
  preamble := none
  global_constants := []
  global_constants_error := none
  source_file := none

theorem mem_pruneLiveSwitchEdges_switched : ∃ kept,
    pruneLiveSwitchEdges (fun _ => none) (nodeMap switched) switched.edges "live" = .ok kept ∧
    ∀ e, e ∈ kept ↔ e ∈ switched.edges ∧ ∀ other ∈ switched.edges, other.id = e.id →
      ¬ Inactive (fun _ => none) (nodeMap switched) "live" other :=
  have h : pruneLiveSwitchEdges (fun _ => none) (nodeMap switched) switched.edges "live" =
    .ok _ := rfl
  ⟨_, h, mem_pruneLiveSwitchEdges_iff h⟩

end Haute.Lineage
