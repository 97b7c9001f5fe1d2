import Haute.Shred.Reader

/-!
# The compiled reader

`readRow_eq`: the compiled row reader is per-column resolution followed by the two
coercions, with the same cells and the same error. In particular the reader's own
`RuntimeError` is never raised.

A trie of keys holds each column at its path (`mem_columns_insert`). Reading is described
against a *target*, the cell each column should get: every write writes a target
(`Toward`), every column whose target is a value is written (`Settled`), and reading fails
exactly when some column's hops meet a non-empty list.
-/

namespace Haute

/-! ### Following a leaf -/

/-- Whether a leaf's hops meet a non-empty list on their way. -/
def crosses : Value → List String → Bool
  | _, [] => false
  | .dict fields, part :: parts => crosses (Value.getKey fields part) parts
  | .list xs, _ :: _ => !xs.isEmpty
  | _, _ :: _ => false

/-- The value at the end of a leaf's hops, `None` where they end early. -/
def followHops : Value → List String → Value
  | v, [] => v
  | .dict fields, part :: parts => followHops (Value.getKey fields part) parts
  | _, _ :: _ => .none

/-- A leaf that crosses no array resolves to what its keys lead to. -/
theorem resolveHops_of_not_crosses (leaf : List String) {v : Value} {parts : List String}
    (h : crosses v parts = false) : resolveHops leaf v parts = .ok (followHops v parts) := by
  induction parts generalizing v with
  | nil => simp [resolveHops, followHops]
  | cons part parts ih =>
    cases v with
    | dict fields => exact ih h
    | list xs =>
      cases xs with
      | nil => rfl
      | cons x xs => simp [crosses] at h
    | _ => rfl

/-- A leaf that crosses an array does not resolve. -/
theorem resolveHops_of_crosses (leaf : List String) {v : Value} {parts : List String}
    (h : crosses v parts = true) :
    ∃ part, resolveHops leaf v parts = .error (leafCrossesArray leaf part) := by
  induction parts generalizing v with
  | nil => simp [crosses] at h
  | cons part parts ih =>
    cases v with
    | dict fields => exact ih h
    | list xs =>
      cases xs with
      | nil => simp [crosses] at h
      | cons x xs => exact ⟨part, rfl⟩
    | _ => simp [crosses] at h

/-- A leaf resolves exactly when it crosses no array. -/
theorem resolveHops_eq_ok_iff {leaf parts : List String} {v w : Value} :
    resolveHops leaf v parts = .ok w ↔ crosses v parts = false ∧ followHops v parts = w := by
  cases h : crosses v parts with
  | false => simp [resolveHops_of_not_crosses leaf h]
  | true =>
    obtain ⟨part, hpart⟩ := resolveHops_of_crosses leaf h
    simp [hpart]

/-- Keys lead nowhere in a value that is no dict. -/
theorem followHops_of_not_isDict {v : Value} (h : v.isDict = false) {parts : List String}
    (hne : parts ≠ []) : followHops v parts = .none := by
  obtain ⟨part, parts, rfl⟩ := List.exists_cons_of_ne_nil hne
  cases v <;> first | rfl | simp at h

/-- Keys cross an array unless it is empty. -/
theorem crosses_of_ne_nil {xs : List Value} {parts : List String} (hne : parts ≠ []) :
    crosses (.list xs) parts = !xs.isEmpty := by
  obtain ⟨part, parts, rfl⟩ := List.exists_cons_of_ne_nil hne
  rfl

/-- No keys cross an array in a scalar. -/
theorem crosses_of_isScalar {v : Value} (h : v.isScalar = true) (parts : List String) :
    crosses v parts = false := by
  cases parts with
  | nil => simp [crosses]
  | cons part parts => cases v <;> first | rfl | simp [Value.isScalar] at h

/-! ### The columns of a trie -/

namespace PrefixNode

mutual

/-- The columns at and below a node, each with the path of keys that leads to it. -/
def columns : PrefixNode → List (List String × ℕ)
  | node leafColumns children => leafColumns.map (fun column => ([], column)) ++
    columnsBelow children

/-- The columns at and below the children of a node. -/
def columnsBelow : List (String × PrefixNode) → List (List String × ℕ)
  | [] => []
  | (key, child) :: rest =>
    (columns child).map (fun e => (key :: e.1, e.2)) ++ columnsBelow rest

end

/-- Every node below has a column. -/
inductive Full : PrefixNode → Prop where
  | node {leafColumns : List ℕ} {children : List (String × PrefixNode)}
      (hcolumns : ∀ c ∈ children, c.2.columns ≠ []) (hfull : ∀ c ∈ children, Full c.2) :
      Full (node leafColumns children)

/-- The empty tree is full. -/
theorem full_empty : Full empty := .node (by simp) (by simp)

/-- The columns of a tree are those at its root and those below its children. -/
theorem mem_columns {n : PrefixNode} {e : List String × ℕ} :
    e ∈ n.columns ↔ (e.1 = [] ∧ e.2 ∈ n.leafColumns) ∨ e ∈ columnsBelow n.children := by
  obtain ⟨leafColumns, children⟩ := n
  obtain ⟨path, column⟩ := e
  simp only [columns, leafColumns_node, children_node, List.mem_append, List.mem_map, Prod.mk.injEq]
  constructor
  · rintro (⟨c, hc, rfl, rfl⟩ | h)
    exacts [.inl ⟨rfl, hc⟩, .inr h]
  · rintro (⟨rfl, hc⟩ | h)
    exacts [.inl ⟨column, hc, rfl, rfl⟩, .inr h]

/-- The columns below children are those of the first under its key and those of the others. -/
theorem mem_columnsBelow_cons {key : String} {child : PrefixNode}
    {rest : List (String × PrefixNode)} {e : List String × ℕ} :
    e ∈ columnsBelow ((key, child) :: rest) ↔
      (∃ path, e = (key :: path, e.2) ∧ (path, e.2) ∈ child.columns) ∨ e ∈ columnsBelow rest := by
  obtain ⟨path, column⟩ := e
  rw [columnsBelow, List.mem_append, List.mem_map]
  refine or_congr_left ⟨?_, ?_⟩
  · rintro ⟨⟨p, c⟩, h, heq⟩
    obtain ⟨rfl, rfl⟩ := Prod.mk.injEq .. ▸ heq
    exact ⟨p, rfl, h⟩
  · rintro ⟨p, heq, h⟩
    exact ⟨(p, column), h, heq.symm⟩

/-- A column below children has a key. -/
theorem path_ne_nil {children : List (String × PrefixNode)} {e : List String × ℕ}
    (h : e ∈ columnsBelow children) : e.1 ≠ [] := by
  induction children with
  | nil => simp [columnsBelow] at h
  | cons x rest ih =>
    rcases mem_columnsBelow_cons.mp h with ⟨path, he, -⟩ | h
    · rw [he]
      exact List.cons_ne_nil _ _
    · exact ih h

/-- A leaf column of a child is a column under the child's key. -/
theorem mem_columnsBelow_of_leaf {children : List (String × PrefixNode)} {key : String}
    {child : PrefixNode} {column : ℕ} (h : (key, child) ∈ children)
    (hcolumn : column ∈ child.leafColumns) : ([key], column) ∈ columnsBelow children := by
  induction children with
  | nil => simp at h
  | cons x rest ih =>
    rw [mem_columnsBelow_cons]
    rcases List.mem_cons.mp h with rfl | h
    · exact .inl ⟨[], rfl, mem_columns.mpr (.inl ⟨rfl, hcolumn⟩)⟩
    · exact .inr (ih h)

/-- Updating one child adds the column to the columns below. -/
private theorem mem_columnsBelow_upsert {part : String} {parts : List String} {column : ℕ}
    {f : Option PrefixNode → PrefixNode}
    (hf : ∀ o e, e ∈ (f o).columns ↔ e = (parts, column) ∨ e ∈ (o.getD empty).columns)
    (children : List (String × PrefixNode)) (e : List String × ℕ) :
    e ∈ columnsBelow (Assoc.upsert children part f) ↔
      e = (part :: parts, column) ∨ e ∈ columnsBelow children := by
  obtain ⟨path, c⟩ := e
  have hpath : ∀ (more : List (List String × ℕ)), (∃ p, (path, c) = (part :: p, c) ∧
      ((p, c) = (parts, column) ∨ (p, c) ∈ more)) ↔ (path, c) = (part :: parts, column) ∨
        ∃ p, (path, c) = (part :: p, c) ∧ (p, c) ∈ more := by
    intro more
    simp only [Prod.mk.injEq, and_true, and_or_left, exists_or]
    refine or_congr_left ⟨?_, ?_⟩
    · rintro ⟨p, rfl, rfl, rfl⟩
      exact ⟨rfl, rfl⟩
    · rintro ⟨rfl, rfl⟩
      exact ⟨parts, rfl, rfl, rfl⟩
  induction children with
  | nil =>
    rw [Assoc.upsert, mem_columnsBelow_cons]
    simp only [hf, hpath]
    simp [columnsBelow, columns, empty]
  | cons x rest ih =>
    obtain ⟨key, child⟩ := x
    rw [Assoc.upsert]
    split_ifs with hk
    · obtain rfl : key = part := hk
      simp only [mem_columnsBelow_cons, hf, hpath, Option.getD_some, or_assoc]
    · simp only [mem_columnsBelow_cons, ih, or_left_comm]

/-- **Inserting a column** adds it, at its path, and nothing else. -/
theorem mem_columns_insert (n : PrefixNode) (path : List String) (column : ℕ)
    (e : List String × ℕ) :
    e ∈ (n.insert path column).columns ↔ e = (path, column) ∨ e ∈ n.columns := by
  obtain ⟨p, c⟩ := e
  induction path generalizing n p c with
  | nil =>
    obtain ⟨leafColumns, children⟩ := n
    simp only [insert, mem_columns, leafColumns_node, children_node, List.mem_append,
      List.mem_singleton, Prod.mk.injEq]
    tauto
  | cons part parts ih =>
    obtain ⟨leafColumns, children⟩ := n
    simp only [insert, mem_columns, leafColumns_node, children_node,
      mem_columnsBelow_upsert (fun o e => ih (o.getD empty) e.1 e.2)]
    rw [or_left_comm]

/-- A full tree stays full when a column is put in. -/
theorem Full.insert {n : PrefixNode} (h : Full n) (path : List String) (column : ℕ) :
    Full (n.insert path column) := by
  induction path generalizing n with
  | nil =>
    obtain ⟨hcolumns, hfull⟩ := h
    exact .node hcolumns hfull
  | cons part parts ih =>
    obtain ⟨hcolumns, hfull⟩ := h
    refine .node (fun c hc => ?_) fun c hc => ?_ <;> rcases Assoc.mem_upsert hc with hc | rfl
    · exact hcolumns c hc
    · exact List.ne_nil_of_mem ((mem_columns_insert _ _ _ (parts, column)).mpr (.inl rfl))
    · exact hfull c hc
    · refine ih ?_
      cases hget : Assoc.get? _ part with
      | none => exact full_empty
      | some child => exact hfull _ (Assoc.mem_of_get?_eq_some hget)

/-- A full tree with children has columns below them. -/
theorem Full.columnsBelow_ne_nil {n : PrefixNode} (h : Full n) (hne : n.children ≠ []) :
    columnsBelow n.children ≠ [] := by
  obtain ⟨hcolumns, -⟩ := h
  obtain ⟨⟨key, child⟩, rest, rfl⟩ := List.exists_cons_of_ne_nil hne
  have hchild : child.columns ≠ [] := hcolumns _ List.mem_cons_self
  rw [children_node, columnsBelow]
  simp [hchild]

/-! ### Reading toward a target -/

section Target

variable {target : ℕ → Value} {row mid out : List Value}

/-- Every slot is as it was or holds its column's target. -/
def Toward (target : ℕ → Value) (row out : List Value) : Prop :=
  out.length = row.length ∧ ∀ i, out[i]? = row[i]? ∨ (i < row.length ∧ out[i]? = some (target i))

/-- Every one of these columns whose target is a value holds it. -/
def Settled (target : ℕ → Value) (out : List Value) (columns : List ℕ) : Prop :=
  ∀ c ∈ columns, c < out.length → target c ≠ .none → out[c]? = some (target c)

theorem Toward.refl (target : ℕ → Value) (row : List Value) : Toward target row row :=
  ⟨rfl, fun _ => .inl rfl⟩

theorem Toward.trans (h : Toward target row mid) (h' : Toward target mid out) :
    Toward target row out := by
  refine ⟨h'.1.trans h.1, fun i => ?_⟩
  rcases h'.2 i with h' | ⟨hlen, h'⟩
  · rw [h']
    exact h.2 i
  · exact .inr ⟨h.1 ▸ hlen, h'⟩

theorem Settled.mono {columns : List ℕ} (hs : Settled target mid columns)
    (h : Toward target mid out) : Settled target out columns := by
  intro c hc hlen hne
  rcases h.2 c with h' | ⟨-, h'⟩
  · rw [h']
    exact hs c hc (h.1 ▸ hlen) hne
  · exact h'

/-- Writing targets goes toward the target, and settles the columns written. -/
theorem foldl_set_toward (ws : List (ℕ × Value)) (hws : ∀ w ∈ ws, w.2 = target w.1) :
    Toward target row (ws.foldl (fun row w => row.set w.1 w.2) row) ∧
      Settled target (ws.foldl (fun row w => row.set w.1 w.2) row) (ws.map Prod.fst) := by
  induction ws generalizing row with
  | nil => exact ⟨.refl _ _, by simp [Settled]⟩
  | cons w ws ih =>
    obtain ⟨c, v⟩ := w
    obtain rfl : v = target c := hws _ List.mem_cons_self
    obtain ⟨htoward, hsettled⟩ := @ih (row.set c (target c))
      fun w hw => hws w (List.mem_cons_of_mem _ hw)
    have hset : Toward target row (row.set c (target c)) := by
      refine ⟨List.length_set, fun i => ?_⟩
      rw [List.getElem?_set]
      split_ifs with hi hlen
      · exact .inr ⟨hi ▸ hlen, by rw [hi]⟩
      · exact .inl (hi ▸ (List.getElem?_eq_none (not_lt.mp hlen)).symm)
      · exact .inl rfl
    have hself : Settled target (row.set c (target c)) [c] := by
      intro i hi hlen _
      obtain rfl := List.mem_singleton.mp hi
      rw [List.getElem?_set_self (List.length_set ▸ hlen)]
    refine ⟨hset.trans htoward, fun i hi => ?_⟩
    rcases List.mem_cons.mp hi with rfl | hi
    · exact hself.mono htoward _ (List.mem_singleton_self _)
    · exact hsettled i hi

end Target

/-! ### Reading one object -/

variable {target : ℕ → Value}

/-- Each of these columns' hops end at its target, with no array on the way. -/
def Reads (target : ℕ → Value) (v : Value) (columns : List (List String × ℕ)) : Prop :=
  ∀ e ∈ columns, crosses v e.1 = false ∧ followHops v e.1 = target e.2

/-- Reading the leaves of an object settles their columns. -/
theorem readLeaves_toward {children : List (String × PrefixNode)} {obj : List (String × Value)}
    (h : Reads target (.dict obj) (columnsBelow children)) (row : List Value) :
    Toward target row (readLeaves children obj row) ∧ Settled target (readLeaves children obj row)
      (children.flatMap fun c => c.2.leafColumns) := by
  have hfold : readLeaves children obj row = (children.flatMap fun c =>
      c.2.leafColumns.map fun column => (column, Value.getKey obj c.1)).foldl
        (fun row w => row.set w.1 w.2) row := by
    simp only [readLeaves, List.foldl_flatMap, List.foldl_map]
  have hcolumns : (children.flatMap fun c => c.2.leafColumns) = (children.flatMap fun c =>
      c.2.leafColumns.map fun column => (column, Value.getKey obj c.1)).map Prod.fst := by
    simp [List.map_flatMap, Function.comp_def]
  rw [hfold, hcolumns]
  refine foldl_set_toward _ fun w hw => ?_
  obtain ⟨⟨key, child⟩, hchild, hw⟩ := List.mem_flatMap.mp hw
  obtain ⟨column, hcolumn, rfl⟩ := List.mem_map.mp hw
  exact (h _ (mem_columnsBelow_of_leaf hchild hcolumn)).2

/-- What is to be read below a child is to be read from the value at its key. -/
theorem reads_child {key : String} {child : PrefixNode} {rest : List (String × PrefixNode)}
    {obj : List (String × Value)}
    (h : Reads target (.dict obj) (columnsBelow ((key, child) :: rest))) :
    Reads target (Value.getKey obj key) (columnsBelow child.children) := fun e he =>
  h (key :: e.1, e.2) (mem_columnsBelow_cons.mpr (.inl ⟨e.1, rfl, mem_columns.mpr (.inr he)⟩))

/-- A column below some children ends at a key of this object, or lies below one. -/
theorem mem_slots {children : List (String × PrefixNode)} {e : List String × ℕ}
    (h : e ∈ columnsBelow children) : e.2 ∈ (children.flatMap fun c => c.2.leafColumns) ∨
      e.2 ∈ children.flatMap fun c => (columnsBelow c.2.children).map Prod.snd := by
  induction children with
  | nil => simp [columnsBelow] at h
  | cons x rest ih =>
    obtain ⟨key, child⟩ := x
    simp only [List.flatMap_cons, List.mem_append]
    rcases mem_columnsBelow_cons.mp h with ⟨path, -, hmem⟩ | h
    · rcases mem_columns.mp hmem with ⟨-, hleaf⟩ | hbelow
      · exact .inl (.inl hleaf)
      · exact .inr (.inl (List.mem_map.mpr ⟨_, hbelow, rfl⟩))
    · exact (ih h).imp .inr .inr

mutual

/-- **Reading one object** succeeds where no column crosses an array, and settles every
column. -/
theorem read_toward : ∀ n : PrefixNode, n.Full → ∀ (obj : List (String × Value)) (row : List Value),
    Reads target (.dict obj) (columnsBelow n.children) → ∃ out, n.read obj row = some out ∧
      Toward target row out ∧ Settled target out ((columnsBelow n.children).map Prod.snd)
  | .node leafColumns children, hfull, obj, row, h => by
    obtain ⟨-, hfull⟩ := hfull
    obtain ⟨hleaves, hleafSettled⟩ := readLeaves_toward h row
    obtain ⟨out, hout, htoward, hsettled⟩ :=
      readNested_toward children hfull obj (readLeaves children obj row) h
    refine ⟨out, by rw [read, hout], hleaves.trans htoward, fun c hc => ?_⟩
    obtain ⟨e, he, rfl⟩ := List.mem_map.mp hc
    rcases mem_slots he with he | he
    · exact hleafSettled.mono htoward _ he
    · exact hsettled _ he

/-- Reading an object that the tree crosses no array in settles every column below it. -/
theorem readNested_toward : ∀ children : List (String × PrefixNode), (∀ c ∈ children, Full c.2) →
    ∀ (obj : List (String × Value)) (row : List Value),
    Reads target (.dict obj) (columnsBelow children) → ∃ out, readNested children obj row =
      some out ∧
      Toward target row out ∧ Settled target out
        (children.flatMap fun c => (columnsBelow c.2.children).map Prod.snd)
  | [], _, _, row, _ => ⟨row, rfl, .refl _ _, by simp [Settled]⟩
  | (key, child) :: rest, hfull, obj, row, h => by
    have hrest : Reads target (.dict obj) (columnsBelow rest) := fun e he =>
      h e (mem_columnsBelow_cons.mpr (.inr he))
    have hnested := readNested_toward rest (fun c hc => hfull c (List.mem_cons_of_mem _ hc)) obj
    have hchild := reads_child h
    -- a child that reads nothing leaves its columns as they are
    have hskip (hslots : ∀ c ∈ (columnsBelow child.children).map Prod.snd, target c = .none) :
        ∃ out, readNested rest obj row = some out ∧ Toward target row out ∧ Settled target out
          (((key, child) :: rest).flatMap fun c => (columnsBelow c.2.children).map Prod.snd) := by
      obtain ⟨out, hout, htoward, hsettled⟩ := hnested row hrest
      refine ⟨out, hout, htoward, fun c hc hlen hne => ?_⟩
      rcases List.mem_append.mp (List.flatMap_cons ▸ hc) with hc | hc
      · exact absurd (hslots c hc) hne
      · exact hsettled c hc hlen hne
    rw [readNested]
    split_ifs with hempty
    · rw [List.isEmpty_iff] at hempty
      exact hskip (by simp [hempty, columnsBelow])
    · have hne : columnsBelow child.children ≠ [] :=
        (hfull _ List.mem_cons_self).columnsBelow_ne_nil (by simpa using hempty)
      have hpath : ∀ e ∈ columnsBelow child.children, e.1 ≠ [] := fun e he =>
        path_ne_nil he
      cases hget : Value.getKey obj key with
      | dict fields =>
        rw [hget] at hchild
        obtain ⟨mid, hmid, htoward, hsettled⟩ :=
          read_toward child (hfull _ List.mem_cons_self) fields row hchild
        obtain ⟨out, hout, htoward', hsettled'⟩ := hnested mid hrest
        refine ⟨out, by simp [hmid, hout], htoward.trans htoward', fun c hc => ?_⟩
        rcases List.mem_append.mp (List.flatMap_cons ▸ hc) with hc | hc
        · exact hsettled.mono htoward' c hc
        · exact hsettled' c hc
      | list xs =>
        rw [hget] at hchild
        cases xs with
        | nil =>
          refine hskip fun c hc => ?_
          obtain ⟨e, he, rfl⟩ := List.mem_map.mp hc
          rw [← (hchild e he).2]
          exact followHops_of_not_isDict rfl (hpath e he)
        | cons x xs =>
          obtain ⟨e, more, he⟩ := List.exists_cons_of_ne_nil hne
          have hcrosses := (hchild e (he ▸ List.mem_cons_self)).1
          rw [crosses_of_ne_nil (hpath e (he ▸ List.mem_cons_self))] at hcrosses
          simp at hcrosses
      | _ =>
        refine hskip fun c hc => ?_
        obtain ⟨e, he, rfl⟩ := List.mem_map.mp hc
        rw [← (hchild e he).2, hget]
        exact followHops_of_not_isDict rfl (hpath e he)

end

mutual

/-- A read that succeeds crossed no array. -/
theorem not_crosses_of_read :
    ∀ (n : PrefixNode) (obj : List (String × Value)) (row out : List Value),
    n.read obj row = some out → ∀ e ∈ columnsBelow n.children, crosses (.dict obj) e.1 = false
  | .node _ children, obj, row, out, h =>
    not_crosses_of_readNested children obj (readLeaves children obj row) out h

/-- Where an object was read, no column below it crosses an array. -/
theorem not_crosses_of_readNested : ∀ (children : List (String × PrefixNode))
    (obj : List (String × Value)) (row out : List Value), readNested children obj row = some out →
    ∀ e ∈ columnsBelow children, crosses (.dict obj) e.1 = false
  | [], _, _, _, _ => by simp [columnsBelow]
  | (key, child) :: rest, obj, row, out, h => by
    rw [readNested] at h
    obtain ⟨mid, hmid⟩ : ∃ mid, readNested rest obj mid = some out := by
      split_ifs at h
      · exact ⟨row, h⟩
      · split at h
        · obtain ⟨mid, -, hmid⟩ := Option.bind_eq_some_iff.mp h
          exact ⟨mid, hmid⟩
        · exact absurd h (by simp)
        · exact ⟨row, h⟩
    intro e he
    rcases mem_columnsBelow_cons.mp he with ⟨path, he, hmem⟩ | he
    · rw [he]
      change crosses (Value.getKey obj key) path = false
      rcases mem_columns.mp hmem with ⟨rfl, -⟩ | hbelow
      · simp [crosses]
      · have hne : path ≠ [] := path_ne_nil hbelow
        have hchildren : child.children ≠ [] := by
          rintro hnil
          simp [hnil, columnsBelow] at hbelow
        rw [if_neg (by simpa using hchildren)] at h
        cases hget : Value.getKey obj key with
        | dict fields =>
          rw [hget] at h
          obtain ⟨mid, hread, -⟩ := Option.bind_eq_some_iff.mp h
          exact not_crosses_of_read child fields row mid hread _ hbelow
        | list xs =>
          cases xs with
          | nil => simp [crosses_of_ne_nil hne]
          | cons x xs => simp [hget] at h
        | _ => exact crosses_of_isScalar rfl path
    · exact not_crosses_of_readNested rest obj mid out hmid e he

end

/-! ### Building the trie -/

/-- The columns of a tree built from specs are those specs' leaves. -/
theorem mem_columns_foldl_insert (cs : List (WalkSpec × ℕ)) (n : PrefixNode)
    (e : List String × ℕ) : e ∈ (cs.foldl (fun n c => n.insert c.1.leaf c.2) n).columns ↔
      (∃ c ∈ cs, e = (c.1.leaf, c.2)) ∨ e ∈ n.columns := by
  induction cs generalizing n with
  | nil => simp
  | cons c cs ih =>
    rw [List.foldl_cons, ih, mem_columns_insert]
    simp only [List.mem_cons, exists_eq_or_imp]
    exact or_left_comm.trans or_assoc.symm

/-- A tree built from specs is full. -/
theorem full_foldl_insert (cs : List (WalkSpec × ℕ)) {n : PrefixNode} (h : n.Full) :
    (cs.foldl (fun n c => n.insert c.1.leaf c.2) n).Full := by
  induction cs generalizing n with
  | nil => exact h
  | cons c cs ih => exact ih (h.insert _ _)

end PrefixNode

/-! ### Reading a row -/

/-- The two coercion passes coerce each cell. -/
private theorem coerce_cons {spec : WalkSpec} {columns : List WalkSpec} {v : Value}
    {row cells : List Value} :
    (coerceStrings (spec :: columns) (v :: row) >>= fun row => coerceScalars (spec :: columns) row)
        = .ok cells ↔ ∃ cell rest, cells = cell :: rest ∧ coerceCell spec v = .ok cell ∧
      (coerceStrings columns row >>= fun row => coerceScalars columns row) = .ok rest := by
  have hcell : ∀ cell, coerceCell spec v = .ok cell ↔
      ∃ mid, stringPass spec v = .ok mid ∧ scalarPass spec mid = .ok cell := by
    intro cell
    rw [coerceCell, stringPass]
    simp only [scalarPass]
    cases spec.isValueLeaf <;> by_cases htype : spec.type = .str <;> simp [htype]
  simp only [coerceStrings, coerceScalars, coerceWith, bind_eq_ok_iff]
  constructor
  · rintro ⟨_, ⟨mid, hmid, mids, hmids, ⟨⟩⟩, h⟩
    simp only [coerceWith, bind_eq_ok_iff] at h
    obtain ⟨cell, hcell', rest, hrest, ⟨⟩⟩ := h
    exact ⟨cell, rest, rfl, (hcell cell).mpr ⟨mid, hmid, hcell'⟩, mids, hmids, hrest⟩
  · rintro ⟨cell, rest, rfl, h, mids, hmids, hrest⟩
    obtain ⟨mid, hmid, h⟩ := (hcell cell).mp h
    refine ⟨mid :: mids, ⟨mid, hmid, mids, hmids, rfl⟩, ?_⟩
    simp only [coerceWith, bind_eq_ok_iff]
    exact ⟨cell, h, rest, hrest, rfl⟩

section Row

open PrefixNode

variable {columns : List WalkSpec} {target : ℕ → Value} {depth : ℕ}

/-- A keyed leaf of a value that is no dict is null. -/
theorem resolveLeaf_of_not_isDict {v : Value} (hv : v.isDict = false) {leaf : List String}
    (hleaf : leaf ≠ [reservedLeaf]) : resolveLeaf v leaf = .ok .none := by
  rw [resolveLeaf, if_neg hleaf, hv]
  rfl

/-- A keyed leaf of a dict is found by its keys. -/
theorem resolveLeaf_dict {fields : List (String × Value)} {leaf : List String}
    (hleaf : leaf ≠ [reservedLeaf]) :
    resolveLeaf (.dict fields) leaf = resolveHops leaf (.dict fields) leaf := by
  rw [resolveLeaf, if_neg hleaf]
  rfl

/-- The trie of one source holds its object columns. -/
theorem mem_columns_rowSource {e : List String × ℕ} :
    e ∈ (rowSource columns depth).root.columns ↔ ∃ spec, (spec, e.2) ∈ columns.zipIdx ∧
      spec.depth = depth ∧ spec.leaf ≠ [reservedLeaf] ∧ e.1 = spec.leaf := by
  obtain ⟨path, i⟩ := e
  rw [rowSource, mem_columns_foldl_insert]
  simp only [List.mem_filter, WalkSpec.isValueLeaf, PrefixNode.columns, PrefixNode.empty,
    columnsBelow, List.map_nil, List.append_nil, List.not_mem_nil, or_false, Prod.exists,
    Prod.mk.injEq, decide_eq_true_eq, Bool.not_eq_true', decide_eq_false_iff_not]
  constructor
  · rintro ⟨spec, j, ⟨⟨hmem, hdepth⟩, hleaf⟩, rfl, rfl⟩
    exact ⟨spec, hmem, hdepth, hleaf, rfl⟩
  · rintro ⟨spec, hmem, hdepth, hleaf, rfl⟩
    exact ⟨spec, i, ⟨⟨hmem, hdepth⟩, hleaf⟩, rfl, rfl⟩

/-- The scalar columns of a depth are those whose leaf is the value itself. -/
theorem mem_scalarColumns_rowSource {i : ℕ} : i ∈ (rowSource columns depth).scalarColumns ↔
    ∃ spec, (spec, i) ∈ columns.zipIdx ∧ spec.depth = depth ∧ spec.leaf = [reservedLeaf] := by
  simp only [rowSource, List.mem_map, List.mem_filter, WalkSpec.isValueLeaf, Prod.exists,
    decide_eq_true_eq]
  constructor
  · rintro ⟨spec, j, ⟨⟨hmem, hdepth⟩, hleaf⟩, rfl⟩
    exact ⟨spec, hmem, hdepth, hleaf⟩
  · rintro ⟨spec, hmem, hdepth, hleaf⟩
    exact ⟨spec, i, ⟨⟨hmem, hdepth⟩, hleaf⟩, rfl⟩

/-- The column numbers of one source. -/
def columnsAt (columns : List WalkSpec) (depth : ℕ) : List ℕ :=
  (columns.zipIdx.filter fun c => c.1.depth = depth).map Prod.snd

/-- The columns at a depth are those whose spec names it. -/
theorem mem_columnsAt {i : ℕ} :
    i ∈ columnsAt columns depth ↔ ∃ spec, (spec, i) ∈ columns.zipIdx ∧ spec.depth = depth := by
  simp [columnsAt]

variable (hleaf : ∀ spec ∈ columns, spec.leaf ≠ [])
include hleaf

/-- The columns below a depth's root are its keyed leaves. -/
theorem mem_columnsBelow_rowSource {e : List String × ℕ} :
    e ∈ columnsBelow (rowSource columns depth).root.children ↔ ∃ spec,
      (spec, e.2) ∈ columns.zipIdx ∧
      spec.depth = depth ∧ spec.leaf ≠ [reservedLeaf] ∧ e.1 = spec.leaf := by
  rw [← mem_columns_rowSource, mem_columns]
  refine ⟨.inr, ?_⟩
  rintro (⟨hnil, hmem⟩ | h)
  · obtain ⟨spec, hspec, -, -, he⟩ := mem_columns_rowSource.mp
      ((mem_columns (e := (e.1, e.2))).mpr (.inl ⟨hnil, hmem⟩))
    exact absurd (he.symm.trans hnil)
      (hleaf spec (List.mem_of_getElem? (List.mem_zipIdx_iff_getElem?.mp hspec)))
  · exact h

/-- **Reading one source** succeeds where its columns resolve, and settles them. -/
theorem rowSource_read_toward {v : Value} (h : ∀ spec i, (spec, i) ∈ columns.zipIdx →
      spec.depth = depth → resolveLeaf v spec.leaf = .ok (target i)) (row : List Value) :
    ∃ out, (rowSource columns depth).read v row = some out ∧ Toward target row out ∧
      Settled target out (columnsAt columns depth) := by
  have hscalars := @foldl_set_toward target row
    ((rowSource columns depth).scalarColumns.map fun column =>
      (column, if v.isScalar then v else Value.none)) fun w hw => by
        obtain ⟨i, hi, rfl⟩ := List.mem_map.mp hw
        obtain ⟨spec, hspec, hdepth, hvalue⟩ := mem_scalarColumns_rowSource.mp hi
        have := h spec i hspec hdepth
        rw [hvalue, resolveLeaf, if_pos rfl] at this
        exact Except.ok.inj this
  rw [List.foldl_map, List.map_map] at hscalars
  obtain ⟨htoward, hsettled⟩ := hscalars
  -- a column is the element itself, or is read from the object
  have hkinds : ∀ i ∈ columnsAt columns depth, i ∈ (rowSource columns depth).scalarColumns ∨
      ∃ e ∈ columnsBelow (rowSource columns depth).root.children, e.2 = i ∧
        e.1 ≠ [reservedLeaf] ∧ resolveLeaf v e.1 = .ok (target i) := by
    intro i hi
    obtain ⟨spec, hspec, hdepth⟩ := mem_columnsAt.mp hi
    by_cases hvalue : spec.leaf = [reservedLeaf]
    · exact .inl (mem_scalarColumns_rowSource.mpr ⟨spec, hspec, hdepth, hvalue⟩)
    · exact .inr ⟨(spec.leaf, i), (mem_columnsBelow_rowSource hleaf).mpr
        ⟨spec, hspec, hdepth, hvalue, rfl⟩, rfl, hvalue, h spec i hspec hdepth⟩
  have hskip (hnone : ∀ e ∈ columnsBelow (rowSource columns depth).root.children,
      resolveLeaf v e.1 = .ok Value.none) : Settled target
        ((rowSource columns depth).scalarColumns.foldl
          (fun row column => row.set column (if v.isScalar then v else .none)) row)
        (columnsAt columns depth) := by
    intro i hi hlen hne
    rcases hkinds i hi with hi | ⟨e, he, rfl, -, htarget⟩
    · exact hsettled i (by simpa using hi) hlen hne
    · exact absurd (Except.ok.inj (htarget.symm.trans (hnone e he))) hne
  unfold RowSource.read
  cases hv : v.isDict with
  | false =>
    refine ⟨_, ?_, htoward, hskip fun e he => ?_⟩
    · cases v <;> first | rfl | simp at hv
    · obtain ⟨spec, -, -, hvalue, he⟩ := (mem_columnsBelow_rowSource hleaf).mp he
      exact resolveLeaf_of_not_isDict hv (he ▸ hvalue)
  | true =>
    obtain ⟨fields, rfl⟩ := Value.isDict_eq_true_iff.mp hv
    by_cases hempty : (rowSource columns depth).root.children.isEmpty = true
    · refine ⟨_, if_pos hempty, htoward, hskip fun e he => ?_⟩
      rw [List.isEmpty_iff] at hempty
      simp [hempty, columnsBelow] at he
    · have hreads : Reads target (.dict fields)
          (columnsBelow (rowSource columns depth).root.children) := fun e he => by
        obtain ⟨spec, hspec, hdepth, hvalue, hpath⟩ := (mem_columnsBelow_rowSource hleaf).mp he
        have := h spec e.2 hspec hdepth
        rw [resolveLeaf_dict hvalue, resolveHops_eq_ok_iff] at this
        rwa [hpath]
      obtain ⟨out, hout, htoward', hsettled'⟩ := read_toward _
        (full_foldl_insert _ full_empty) fields _ hreads
      refine ⟨out, (if_neg hempty).trans hout, htoward.trans htoward', fun i hi => ?_⟩
      rcases hkinds i hi with hi | ⟨e, he, rfl, -⟩
      · exact hsettled.mono htoward' i (by simpa using hi)
      · exact hsettled' _ (List.mem_map_of_mem he)

/-- A source that is read resolves its columns. -/
theorem resolves_of_rowSource_read {v : Value} {row out : List Value}
    (h : (rowSource columns depth).read v row = some out) {spec : WalkSpec} {i : ℕ}
    (hspec : (spec, i) ∈ columns.zipIdx) (hdepth : spec.depth = depth) :
    ∃ w, resolveLeaf v spec.leaf = .ok w := by
  by_cases hvalue : spec.leaf = [reservedLeaf]
  · exact ⟨_, by rw [resolveLeaf, if_pos hvalue]⟩
  cases hv : v.isDict with
  | false => exact ⟨_, resolveLeaf_of_not_isDict hv hvalue⟩
  | true =>
    obtain ⟨fields, rfl⟩ := Value.isDict_eq_true_iff.mp hv
    have hmem := (mem_columnsBelow_rowSource hleaf (e := (spec.leaf, i))).mpr
      ⟨spec, hspec, hdepth, hvalue, rfl⟩
    have hread : (rowSource columns depth).root.children.isEmpty = false := by
      rw [List.isEmpty_eq_false_iff]
      rintro hnil
      simp [hnil, columnsBelow] at hmem
    simp only [RowSource.read, hread, Bool.false_eq_true, if_false] at h
    rw [resolveLeaf_dict hvalue]
    exact ⟨_, resolveHops_of_not_crosses _ (not_crosses_of_read _ _ _ _ h _ hmem)⟩

/-- Reading sources in turn succeeds where all their columns resolve, and settles these. -/
theorem foldlM_read_toward {source : ℕ → Value} (h : ∀ spec i, (spec, i) ∈ columns.zipIdx →
      resolveLeaf (source spec.depth) spec.leaf = .ok (target i)) (depths : List ℕ)
    (row : List Value) :
    ∃ out, (depths.map (rowSource columns)).foldlM (fun row s => s.read (source s.depth) row) row
      = some out ∧ Toward target row out ∧ ∀ d ∈ depths, Settled target out
        (columnsAt columns d) := by
  induction depths generalizing row with
  | nil => exact ⟨row, rfl, .refl _ _, by simp⟩
  | cons d depths ih =>
    obtain ⟨mid, hmid, htoward, hsettled⟩ := @rowSource_read_toward columns target d
      hleaf (source d) (fun spec i hspec hdepth => hdepth ▸ h spec i hspec) row
    obtain ⟨out, hout, htoward', hsettled'⟩ := ih mid
    refine ⟨out, ?_, htoward.trans htoward', fun d' hd' => ?_⟩
    · rw [List.map_cons, List.foldlM_cons]
      exact Option.bind_eq_some_iff.mpr ⟨mid, hmid, hout⟩
    · rcases List.mem_cons.mp hd' with rfl | hd'
      · exact hsettled.mono htoward'
      · exact hsettled' d' hd'

/-- Where a row was read, the leaf of each column resolves. -/
theorem resolves_of_foldlM_read {source : ℕ → Value} {depths : List ℕ} {row out : List Value}
    (h : (depths.map (rowSource columns)).foldlM (fun row s => s.read (source s.depth) row) row
      = some out) {spec : WalkSpec} (hspec : spec ∈ columns) (hdepth : spec.depth ∈ depths) :
    ∃ w, resolveLeaf (source spec.depth) spec.leaf = .ok w := by
  induction depths generalizing row with
  | nil => simp at hdepth
  | cons d depths ih =>
    rw [List.map_cons, List.foldlM_cons] at h
    obtain ⟨mid, hmid, h⟩ := Option.bind_eq_some_iff.mp h
    rcases List.mem_cons.mp hdepth with rfl | hdepth
    · obtain ⟨i, hi, rfl⟩ := List.getElem_of_mem hspec
      exact resolves_of_rowSource_read hleaf hmid
        (List.mem_zipIdx_iff_getElem?.mpr (List.getElem?_eq_getElem hi)) rfl
    · exact ih h hdepth

/-- The cells read are those that per-column resolution gives. -/
theorem readCells_eq (source : ℕ → Value) : readCells columns source
    = (columns.mapM fun spec => resolveLeaf (source spec.depth) spec.leaf).toOption := by
  have hdepths : ∀ spec ∈ columns,
      spec.depth ∈ Grouping.firstsBy id (columns.map WalkSpec.depth) := fun spec hspec => by
    have hmem : spec.depth ∈ (columns.map WalkSpec.depth).map id := by
      rw [List.map_id]
      exact List.mem_map_of_mem hspec
    rw [← Grouping.mem_map_firstsBy, List.map_id] at hmem
    exact hmem
  rw [readCells, rowSources]
  cases hresolve : columns.mapM fun spec => resolveLeaf (source spec.depth) spec.leaf with
  | ok cells =>
    have hcells := mapM_eq_ok_iff.mp hresolve
    have htarget : ∀ spec i, (spec, i) ∈ columns.zipIdx →
        resolveLeaf (source spec.depth) spec.leaf = .ok (cells.getD i .none) := by
      intro spec i hspec
      obtain ⟨hi, hget : columns[i] = spec⟩ :=
        List.getElem?_eq_some_iff.mp (List.mem_zipIdx_iff_getElem?.mp hspec)
      have hi' : i < cells.length := hcells.length_eq ▸ hi
      rw [List.getD_eq_getElem _ _ hi', ← hget]
      exact hcells.get hi hi'
    obtain ⟨out, hout, ⟨hlen, htoward⟩, hsettled⟩ := @foldlM_read_toward columns
      (fun i => cells.getD i .none) hleaf source htarget
      (Grouping.firstsBy id (columns.map WalkSpec.depth)) (List.replicate columns.length .none)
    rw [hout]
    rw [List.length_replicate] at hlen
    refine congrArg some (List.ext_getElem? fun i => ?_)
    -- a column is settled by the read of its own depth
    rcases lt_or_ge i columns.length with hi | hi
    · have hi' : i < cells.length := hcells.length_eq ▸ hi
      have hgoal : cells[i]? = some (cells.getD i .none) := by
        rw [List.getElem?_eq_getElem hi', List.getD_eq_getElem _ _ hi']
      rw [hgoal]
      rcases htoward i with h | ⟨-, h⟩
      · rw [List.getElem?_replicate_of_lt hi] at h
        by_cases hnone : cells.getD i .none = .none
        · rw [h, hnone]
        · refine hsettled _ (hdepths _ (List.getElem_mem hi)) i ?_ (hlen ▸ hi) hnone
          exact mem_columnsAt.mpr ⟨columns[i],
            List.mem_zipIdx_iff_getElem?.mpr (List.getElem?_eq_getElem hi), rfl⟩
      · exact h
    · rw [List.getElem?_eq_none (hlen ▸ hi), List.getElem?_eq_none (hcells.length_eq ▸ hi)]
  | error e =>
    refine Option.eq_none_iff_forall_ne_some.mpr fun out hout => ?_
    have hall : ∀ spec ∈ columns, ∃ w, resolveLeaf (source spec.depth) spec.leaf = .ok w :=
      fun spec hspec => resolves_of_foldlM_read hleaf hout hspec (hdepths spec hspec)
    obtain ⟨ws, hws⟩ := exists_mapM_eq_ok hall
    rw [hws] at hresolve
    cases hresolve

/-- **The compiled reader is per-column resolution**, followed by the coercions: the same
cells and the same error. -/
theorem readRow_eq (ownDepth : ℕ) (value : Value) (ancestors : List Value) :
    readRow columns ownDepth value ancestors = (do
      let row ← columns.mapM fun spec =>
        resolveLeaf (sourceAt ownDepth value ancestors spec.depth) spec.leaf
      let row ← coerceStrings columns row
      coerceScalars columns row) := by
  rw [readRow]
  simp only [readCells_eq hleaf]
  cases columns.mapM fun spec =>
    resolveLeaf (sourceAt ownDepth value ancestors spec.depth) spec.leaf <;> rfl

/-- A row's cells are its columns' leaves, each coerced. -/
theorem readRow_eq_ok_iff {ownDepth : ℕ} {value : Value} {ancestors cells : List Value} :
    readRow columns ownDepth value ancestors = .ok cells ↔
      List.Forall₂ (fun spec cell => ∃ v,
        resolveLeaf (sourceAt ownDepth value ancestors spec.depth) spec.leaf = .ok v ∧
          coerceCell spec v = .ok cell) columns cells := by
  rw [readRow_eq hleaf, bind_eq_ok_iff]
  simp only [mapM_eq_ok_iff]
  generalize sourceAt ownDepth value ancestors = source
  clear hleaf
  induction columns generalizing cells with
  | nil =>
    constructor
    · rintro ⟨_, ⟨⟩, h⟩
      cases h
      exact .nil
    · rintro ⟨⟩
      exact ⟨[], .nil, rfl⟩
  | cons spec columns ih =>
    constructor
    · rintro ⟨_, hvs, h⟩
      cases hvs with
      | cons hv hvs =>
        obtain ⟨cell, rest, rfl, hcell, hrest⟩ := coerce_cons.mp h
        exact .cons ⟨_, hv, hcell⟩ (ih.mp ⟨_, hvs, hrest⟩)
    · rintro (_ | ⟨⟨v, hv, hcell⟩, hcells⟩)
      obtain ⟨vs, hvs, hrest⟩ := ih.mpr hcells
      exact ⟨v :: vs, .cons hv hvs, coerce_cons.mpr ⟨_, _, rfl, hcell, hrest⟩⟩

end Row

end Haute
