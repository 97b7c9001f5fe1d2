import Haute.Data.Answers
import Haute.Data.Joined
import Haute.Data.Percent

/-!
# The ids of edges and of a submodel's nodes

An edge's id is its source, its target and the handles it has, each escaped, after `e` and
joined with `-`. A node that runs inside a submodel's occurrence has an id that names the
occurrence and the node's own id there, each percent-encoded, after `submodel_runtime/`. Both
say what they were made of.
-/

namespace Haute.Graph

open Haute.Data

/-! ### Edge ids -/

/-- What an edge's id is made of. -/
structure EdgeIdentity where
  source : CodeText
  target : CodeText
  sourcePort : Option CodeText
  targetPort : Option CodeText

/-- Why no id is minted. -/
inductive IdError where
  /-- An edge id cannot be minted from an empty endpoint or handle. -/
  | emptyField
  /-- Runtime submodel ids require non-empty instance and local ids. -/
  | emptyRuntimeId
  /-- The text has a surrogate in it, which UTF-8 does not encode. -/
  | surrogate (text : CodeText)
  /-- Malformed runtime submodel node id. -/
  | malformed (nodeId : CodeText)
  deriving DecidableEq

/-- The sign between the fields of an edge's id. -/
def hyphen : CodePoint := .ofChar '-'

/-- The sign that escapes it. -/
def tilde : CodePoint := .ofChar '~'

/-- A field of an edge's id: `~` as `~0`, then `-` as `~1`. -/
def edgeIdField (value : CodeText) : Except IdError CodeText :=
  if value = [] then .error .emptyField
  else .ok (escapeField tilde hyphen (.ofChar '0') (.ofChar '1') value)

/-- The fields after the endpoints: absent trailing handles are left off, and an absent source
handle before a target handle is empty. -/
def portFields (sourcePort targetPort : Option CodeText) : Except IdError (List CodeText) :=
  match targetPort with
  | some target => do
    let source ← match sourcePort with
      | none => .ok []
      | some source => edgeIdField source
    let target ← edgeIdField target
    .ok [source, target]
  | none =>
    match sourcePort with
    | some source => do
      let source ← edgeIdField source
      .ok [source]
    | none => .ok []

/-- The fields of an edge's id. -/
def edgeIdFields (e : EdgeIdentity) : Except IdError (List CodeText) := do
  let source ← edgeIdField e.source
  let target ← edgeIdField e.target
  let ports ← portFields e.sourcePort e.targetPort
  .ok (source :: target :: ports)

/-- The edge's id. -/
def edgeId (e : EdgeIdentity) : Except IdError CodeText := do
  let fields ← edgeIdFields e
  .ok ([hyphen].intercalate ([.ofChar 'e'] :: fields))

theorem edgeIdField_eq_ok {value field : CodeText} (h : edgeIdField value = .ok field) :
    value ≠ [] ∧ field = escapeField tilde hyphen (.ofChar '0') (.ofChar '1') value := by
  unfold edgeIdField at h
  split_ifs at h with hv
  exact ⟨hv, (Except.ok.inj h).symm⟩

/-- A field is not empty, and there is no `-` in it. -/
theorem field_of_edgeIdField {value field : CodeText} (h : edgeIdField value = .ok field) :
    field ≠ [] ∧ hyphen ∉ field := by
  obtain ⟨hv, rfl⟩ := edgeIdField_eq_ok h
  exact ⟨fun hn => hv ((escapeField_eq_nil_iff (by decide) (by decide)).mp hn),
    separator_notMem_escapeField (by decide) (by decide) (by decide) value⟩

theorem edgeIdField_inj {value value' field : CodeText} (h : edgeIdField value = .ok field)
    (h' : edgeIdField value' = .ok field) : value = value' :=
  escapeField_injective (by decide) (by decide) (by decide)
    ((edgeIdField_eq_ok h).2.symm.trans (edgeIdField_eq_ok h').2)

/-- What the fields of the handles are: by their number and the first of them, they say which
handles there are. -/
theorem portFields_eq_ok {sourcePort targetPort : Option CodeText} {fields : List CodeText}
    (h : portFields sourcePort targetPort = .ok fields) :
    (sourcePort = none ∧ targetPort = none ∧ fields = []) ∨
    (∃ source field, sourcePort = some source ∧ targetPort = none ∧
      edgeIdField source = .ok field ∧ fields = [field]) ∨
    (∃ target field, sourcePort = none ∧ targetPort = some target ∧
      edgeIdField target = .ok field ∧ fields = [[], field]) ∨
    (∃ source target field field', sourcePort = some source ∧ targetPort = some target ∧
      edgeIdField source = .ok field ∧ edgeIdField target = .ok field' ∧
      fields = [field, field']) := by
  unfold portFields at h
  rcases targetPort with _ | target <;> rcases sourcePort with _ | source <;> dsimp only at h
  · exact .inl ⟨rfl, rfl, (Except.ok.inj h).symm⟩
  · obtain ⟨field, hf, h⟩ := bind_eq_ok.mp h
    exact .inr (.inl ⟨source, field, rfl, rfl, hf, (Except.ok.inj h).symm⟩)
  · obtain ⟨empty, he, h⟩ := bind_eq_ok.mp h
    obtain ⟨field, hf, h⟩ := bind_eq_ok.mp h
    obtain rfl := Except.ok.inj he
    exact .inr (.inr (.inl ⟨target, field, rfl, rfl, hf, (Except.ok.inj h).symm⟩))
  · obtain ⟨field, hf, h⟩ := bind_eq_ok.mp h
    obtain ⟨field', hf', h⟩ := bind_eq_ok.mp h
    exact .inr (.inr (.inr ⟨source, target, field, field', rfl, rfl, hf, hf',
      (Except.ok.inj h).symm⟩))

theorem hyphen_notMem_portFields {sourcePort targetPort : Option CodeText}
    {fields : List CodeText} (h : portFields sourcePort targetPort = .ok fields) :
    ∀ field ∈ fields, hyphen ∉ field := by
  rcases portFields_eq_ok h with ⟨-, -, rfl⟩ | ⟨_, _, -, -, hf, rfl⟩ | ⟨_, _, -, -, hf, rfl⟩ |
    ⟨_, _, _, _, -, -, hf, hf', rfl⟩
  · simp
  · simpa using (field_of_edgeIdField hf).2
  · simpa using (field_of_edgeIdField hf).2
  · simpa using ⟨(field_of_edgeIdField hf).2, (field_of_edgeIdField hf').2⟩

theorem portFields_inj {sourcePort targetPort sourcePort' targetPort' : Option CodeText}
    {fields : List CodeText} (h : portFields sourcePort targetPort = .ok fields)
    (h' : portFields sourcePort' targetPort' = .ok fields) :
    sourcePort = sourcePort' ∧ targetPort = targetPort' := by
  rcases portFields_eq_ok h with ⟨rfl, rfl, rfl⟩ | ⟨_, _, rfl, rfl, hs, rfl⟩ |
      ⟨_, _, rfl, rfl, ht, rfl⟩ | ⟨_, _, _, _, rfl, rfl, hs, ht, rfl⟩ <;>
    rcases portFields_eq_ok h' with ⟨rfl, rfl, he⟩ | ⟨_, _, rfl, rfl, hs', he⟩ |
      ⟨_, _, rfl, rfl, ht', he⟩ | ⟨_, _, _, _, rfl, rfl, hs', ht', he⟩ <;>
    simp only [List.cons.injEq, reduceCtorEq, and_true, and_false] at he
  · exact ⟨rfl, rfl⟩
  · rw [edgeIdField_inj hs (he ▸ hs')]
    exact ⟨rfl, rfl⟩
  · rw [edgeIdField_inj ht (he.2 ▸ ht')]
    exact ⟨rfl, rfl⟩
  · exact absurd he.1.symm (field_of_edgeIdField hs').1
  · exact absurd he.1 (field_of_edgeIdField hs).1
  · rw [edgeIdField_inj hs (he.1 ▸ hs'), edgeIdField_inj ht (he.2 ▸ ht')]
    exact ⟨rfl, rfl⟩

theorem edgeIdFields_eq_ok {e : EdgeIdentity} {fields : List CodeText}
    (h : edgeIdFields e = .ok fields) :
    ∃ source target ports, edgeIdField e.source = .ok source ∧ edgeIdField e.target = .ok target ∧
      portFields e.sourcePort e.targetPort = .ok ports ∧ fields = source :: target :: ports := by
  unfold edgeIdFields at h
  obtain ⟨source, hs, h⟩ := bind_eq_ok.mp h
  obtain ⟨target, ht, h⟩ := bind_eq_ok.mp h
  obtain ⟨ports, hp, h⟩ := bind_eq_ok.mp h
  exact ⟨source, target, ports, hs, ht, hp, (Except.ok.inj h).symm⟩

theorem hyphen_notMem_edgeIdFields {e : EdgeIdentity} {fields : List CodeText}
    (h : edgeIdFields e = .ok fields) : ∀ field ∈ fields, hyphen ∉ field := by
  obtain ⟨source, target, ports, hs, ht, hp, rfl⟩ := edgeIdFields_eq_ok h
  refine List.forall_mem_cons.mpr ⟨(field_of_edgeIdField hs).2, ?_⟩
  exact List.forall_mem_cons.mpr ⟨(field_of_edgeIdField ht).2, hyphen_notMem_portFields hp⟩

theorem edgeIdFields_inj {e e' : EdgeIdentity} {fields : List CodeText}
    (h : edgeIdFields e = .ok fields) (h' : edgeIdFields e' = .ok fields) : e = e' := by
  obtain ⟨source, target, ports, hs, ht, hp, rfl⟩ := edgeIdFields_eq_ok h
  obtain ⟨source', target', ports', hs', ht', hp', he⟩ := edgeIdFields_eq_ok h'
  simp only [List.cons.injEq] at he
  obtain ⟨rfl, rfl, rfl⟩ := he
  obtain ⟨hsp, htp⟩ := portFields_inj hp hp'
  cases e
  cases e'
  simp only [EdgeIdentity.mk.injEq]
  exact ⟨edgeIdField_inj hs hs', edgeIdField_inj ht ht', hsp, htp⟩

/-- Two edges with one id are the same in every field. -/
theorem edgeId_inj {e e' : EdgeIdentity} {i : CodeText} (h : edgeId e = .ok i)
    (h' : edgeId e' = .ok i) : e = e' := by
  unfold edgeId at h h'
  obtain ⟨fields, hf, h⟩ := bind_eq_ok.mp h
  obtain ⟨fields', hf', h'⟩ := bind_eq_ok.mp h'
  have hj := (Except.ok.inj h).trans (Except.ok.inj h').symm
  have he : hyphen ∉ ([CodePoint.ofChar 'e'] : CodeText) := by decide
  have heq := intercalate_inj (List.cons_ne_nil _ _) (List.cons_ne_nil _ _)
    (List.forall_mem_cons.mpr ⟨he, hyphen_notMem_edgeIdFields hf⟩)
    (List.forall_mem_cons.mpr ⟨he, hyphen_notMem_edgeIdFields hf'⟩) hj
  rw [List.cons.injEq] at heq
  exact edgeIdFields_inj hf (heq.2 ▸ hf')

/-! ### Runtime ids -/

/-- The sign between the parts of a runtime id. -/
def slash : CodePoint := .ofChar '/'

/-- What a runtime id begins with. -/
def runtimePrefix : CodeText := codeText "submodel_runtime/"

/-- A text percent-encoded, or the error of the text that cannot be. -/
def quoted (s : CodeText) : Except IdError CodeText :=
  (quote s).elim (.error (.surrogate s)) .ok

/-- The runtime id of one cloned child: the occurrence's id and the child's own. -/
def qualifiedRuntimeNodeId (instanceId localNodeId : CodeText) : Except IdError CodeText :=
  if instanceId = [] ∨ localNodeId = [] then .error .emptyRuntimeId
  else do
    let occurrence ← quoted instanceId
    let node ← quoted localNodeId
    .ok (runtimePrefix ++ occurrence ++ [slash] ++ node)

/-- `s` up to the first `sep`, whether there is one, and what stands after it. -/
def partition (sep : CodePoint) (s : CodeText) : CodeText × Bool × CodeText :=
  (s.takeWhile (· ≠ sep), s.contains sep, (s.dropWhile (· ≠ sep)).tail)

/-- The occurrence a runtime id was made for, or none for an id that is no runtime id. -/
def runtimeInstanceId (nodeId : CodeText) : Except IdError (Option CodeText) :=
  if runtimePrefix.isPrefixOf nodeId then
    let parts := partition slash (nodeId.drop runtimePrefix.length)
    if parts.1 = [] ∨ parts.2.1 = false ∨ parts.2.2 = [] then .error (.malformed nodeId)
    else .ok (some (unquote parts.1))
  else .ok none

theorem quoted_eq_ok {s q : CodeText} : quoted s = .ok q ↔ quote s = some q := by
  unfold quoted
  cases quote s with
  | none => simp
  | some q' => simp

theorem slash_notMem_quote {s q : CodeText} (h : quote s = some q) : slash ∉ q := by
  intro hs
  rcases unreserved_or_percent_of_mem_quote h hs with hu | hp
  · exact absurd hu (by decide)
  · exact absurd hp (by decide)

theorem partition_append {sep : CodePoint} {s : CodeText} (h : sep ∉ s) (t : CodeText) :
    partition sep (s ++ sep :: t) = (s, true, t) := by
  have hne : ∀ c ∈ s, decide (c ≠ sep) = true := fun c hc => by
    rw [decide_eq_true_eq]
    rintro rfl
    exact h hc
  unfold partition
  rw [List.takeWhile_append_of_pos hne, List.dropWhile_append_of_pos hne]
  simp

theorem qualifiedRuntimeNodeId_eq_ok {instanceId localNodeId i : CodeText}
    (h : qualifiedRuntimeNodeId instanceId localNodeId = .ok i) :
    ∃ occurrence node, quote instanceId = some occurrence ∧ quote localNodeId = some node ∧
      occurrence ≠ [] ∧ node ≠ [] ∧ i = runtimePrefix ++ (occurrence ++ slash :: node) := by
  unfold qualifiedRuntimeNodeId at h
  split_ifs at h with hempty
  obtain ⟨hinst, hnode⟩ := not_or.mp hempty
  obtain ⟨occurrence, ho, h⟩ := bind_eq_ok.mp h
  obtain ⟨node, hn, h⟩ := bind_eq_ok.mp h
  rw [quoted_eq_ok] at ho hn
  refine ⟨occurrence, node, ho, hn, quote_ne_nil ho hinst, quote_ne_nil hn hnode, ?_⟩
  rw [← Except.ok.inj h, List.append_assoc, List.append_assoc, List.singleton_append]

/-- The occurrence is read back off the id. -/
theorem runtimeInstanceId_of_eq_ok {instanceId localNodeId i : CodeText}
    (h : qualifiedRuntimeNodeId instanceId localNodeId = .ok i) :
    runtimeInstanceId i = .ok (some instanceId) := by
  obtain ⟨occurrence, node, ho, -, hne, hne', rfl⟩ := qualifiedRuntimeNodeId_eq_ok h
  have hprefix : runtimePrefix.isPrefixOf (runtimePrefix ++ (occurrence ++ slash :: node)) = true :=
    List.isPrefixOf_iff_prefix.mpr (List.prefix_append _ _)
  unfold runtimeInstanceId
  rw [if_pos hprefix, List.drop_left, partition_append (slash_notMem_quote ho)]
  simp [hne, hne', unquote_quote ho]

/-- Two children with one runtime id are the same child of the same occurrence. -/
theorem qualifiedRuntimeNodeId_inj {instanceId localNodeId instanceId' localNodeId' i : CodeText}
    (h : qualifiedRuntimeNodeId instanceId localNodeId = .ok i)
    (h' : qualifiedRuntimeNodeId instanceId' localNodeId' = .ok i) :
    instanceId = instanceId' ∧ localNodeId = localNodeId' := by
  have hinst := (runtimeInstanceId_of_eq_ok h).symm.trans (runtimeInstanceId_of_eq_ok h')
  simp only [Except.ok.injEq, Option.some.injEq] at hinst
  subst hinst
  obtain ⟨occurrence, node, ho, hn, -, -, hi⟩ := qualifiedRuntimeNodeId_eq_ok h
  obtain ⟨occurrence', node', ho', hn', -, -, hi'⟩ := qualifiedRuntimeNodeId_eq_ok h'
  obtain rfl : occurrence = occurrence' := Option.some.inj (ho.symm.trans ho')
  have hnode := List.append_cancel_left (List.append_cancel_left (hi.symm.trans hi'))
  rw [List.cons.injEq] at hnode
  refine ⟨rfl, (unquote_quote hn).symm.trans ?_⟩
  rw [hnode.2, unquote_quote hn']

/-! ### Nodes below several occurrences

An occurrence that is itself a cloned child has a runtime id as its own id, so the id of a node
is built from the outermost occurrence inwards.
-/

/-- The runtime id of a node below an outermost occurrence, by the ids on the way to it. -/
def runtimeIdOf (outermost : CodeText) (path : List CodeText) : Except IdError CodeText :=
  path.foldlM qualifiedRuntimeNodeId outermost

theorem runtimeIdOf_concat_eq_ok {outermost local_ i : CodeText} {path : List CodeText} :
    runtimeIdOf outermost (path ++ [local_]) = .ok i ↔
      ∃ occurrence, runtimeIdOf outermost path = .ok occurrence ∧
        qualifiedRuntimeNodeId occurrence local_ = .ok i := by
  unfold runtimeIdOf
  rw [List.foldlM_append, bind_eq_ok]
  simp only [List.foldlM_cons, List.foldlM_nil, bind_pure]

/-- Ids of nodes below outermost occurrences that are no cloned children say the whole path. -/
theorem runtimeIdOf_inj {outermost outermost' i : CodeText} {path path' : List CodeText}
    (ho : runtimeInstanceId outermost = .ok none) (ho' : runtimeInstanceId outermost' = .ok none)
    (h : runtimeIdOf outermost path = .ok i) (h' : runtimeIdOf outermost' path' = .ok i) :
    outermost = outermost' ∧ path = path' := by
  induction path using List.reverseRecOn generalizing path' i with
  | nil =>
    obtain rfl : outermost = i := Except.ok.inj h
    rcases List.eq_nil_or_concat path' with rfl | ⟨path', local_, rfl⟩
    · exact ⟨(Except.ok.inj h').symm, rfl⟩
    · rw [List.concat_eq_append, runtimeIdOf_concat_eq_ok] at h'
      obtain ⟨occurrence, -, hq⟩ := h'
      simp [runtimeInstanceId_of_eq_ok hq] at ho
  | append_singleton path local_ ih =>
    obtain ⟨occurrence, hpath, hq⟩ := runtimeIdOf_concat_eq_ok.mp h
    rcases List.eq_nil_or_concat path' with rfl | ⟨path', local', rfl⟩
    · obtain rfl : outermost' = i := Except.ok.inj h'
      simp [runtimeInstanceId_of_eq_ok hq] at ho'
    · rw [List.concat_eq_append, runtimeIdOf_concat_eq_ok] at h'
      obtain ⟨occurrence', hpath', hq'⟩ := h'
      obtain ⟨rfl, rfl⟩ := qualifiedRuntimeNodeId_inj hq hq'
      obtain ⟨rfl, rfl⟩ := ih hpath hpath'
      exact ⟨rfl, (List.concat_eq_append).symm⟩

/-- An edge's id says its endpoints and handles; a runtime id says the occurrence, which is read
back off it, and the node, and through occurrences that are cloned themselves the whole path. -/
theorem ids_sayWhatTheyName :
    (∀ e e' i, edgeId e = .ok i → edgeId e' = .ok i → e = e') ∧
    (∀ instanceId localNodeId instanceId' localNodeId' i,
      qualifiedRuntimeNodeId instanceId localNodeId = .ok i →
      qualifiedRuntimeNodeId instanceId' localNodeId' = .ok i →
        instanceId = instanceId' ∧ localNodeId = localNodeId') ∧
    (∀ instanceId localNodeId i, qualifiedRuntimeNodeId instanceId localNodeId = .ok i →
      runtimeInstanceId i = .ok (some instanceId)) ∧
    (∀ outermost path outermost' path' i, runtimeInstanceId outermost = .ok none →
      runtimeInstanceId outermost' = .ok none → runtimeIdOf outermost path = .ok i →
      runtimeIdOf outermost' path' = .ok i → outermost = outermost' ∧ path = path') :=
  ⟨fun _ _ _ => edgeId_inj, fun _ _ _ _ _ => qualifiedRuntimeNodeId_inj,
    fun _ _ _ => runtimeInstanceId_of_eq_ok, fun _ _ _ _ _ => runtimeIdOf_inj⟩

/-- The id of node `b` below the occurrence `a/b`, and the occurrence it says. -/
theorem runtimeInstanceId_slashed :
    runtimeInstanceId (codeText "submodel_runtime/a%2Fb/b") = .ok (some (codeText "a/b")) :=
  ids_sayWhatTheyName.2.2.1 (codeText "a/b") (codeText "b") _ (by decide)

end Haute.Graph
