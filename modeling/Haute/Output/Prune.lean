import Haute.Output.Walk

/-!
# What pruning keeps

Pruning drops a field whose value prunes to nothing and keeps every other, pruned. So an
object built by diverging writes reads, after pruning, each written value pruned, and
nothing where that is absent (`read?_prune_writeAll`).
-/

namespace Haute

open NestedDict Grouping

theorem mem_pruneList {x : Value} {xs : List Value} (h : x ∈ pruneList xs) :
    ∃ y ∈ xs, x = prune y := by
  induction xs with
  | nil => simp [pruneList] at h
  | cons y ys ih =>
    rw [pruneList] at h
    split_ifs at h
    · obtain ⟨z, hz, rfl⟩ := ih h
      exact ⟨z, by simp [hz], rfl⟩
    · rcases List.mem_cons.mp h with rfl | h
      · exact ⟨y, by simp, rfl⟩
      · obtain ⟨z, hz, rfl⟩ := ih h
        exact ⟨z, by simp [hz], rfl⟩

theorem mem_pruneFields {key : String} {v : Value} {fs : List (String × Value)}
    (h : (key, v) ∈ pruneFields fs) : ∃ w, (key, w) ∈ fs ∧ v = prune w := by
  induction fs with
  | nil => simp [pruneFields] at h
  | cons e fs ih =>
    obtain ⟨k, w⟩ := e
    rw [pruneFields] at h
    split_ifs at h
    · obtain ⟨u, hu, rfl⟩ := ih h
      exact ⟨u, by simp [hu], rfl⟩
    · rcases List.mem_cons.mp h with h | h
      · obtain ⟨rfl, rfl⟩ : key = k ∧ v = prune w := by simpa using h
        exact ⟨w, by simp, rfl⟩
      · obtain ⟨u, hu, rfl⟩ := ih h
        exact ⟨u, by simp [hu], rfl⟩

theorem keys_pruneFields_sublist (fs : List (String × Value)) :
    (Assoc.keys (pruneFields fs)).Sublist (Assoc.keys fs) := by
  induction fs with
  | nil => simp [pruneFields]
  | cons e fs ih =>
    obtain ⟨k, w⟩ := e
    rw [pruneFields]
    split_ifs
    · exact ih.cons k
    · exact ih.cons_cons k

/-- Pruning a scalar leaves it. -/
theorem prune_of_isScalar {v : Value} (h : v.isScalar = true) : prune v = v := by
  cases v <;> simp_all [prune, Value.isScalar]

/-- A field reads its value pruned, or nothing where that is absent. -/
theorem get?_pruneFields {fs : List (String × Value)} (hn : (Assoc.keys fs).Nodup) (k : String) :
    Assoc.get? (pruneFields fs) k
      = (Assoc.get? fs k).bind fun v => if (prune v).isAbsent then none else some (prune v) := by
  induction fs with
  | nil => rfl
  | cons e fs ih =>
    obtain ⟨k', v⟩ := e
    rw [Assoc.keys_cons, List.nodup_cons] at hn
    have ih := ih hn.2
    rw [pruneFields, Assoc.get?_cons]
    by_cases hk : k' = k
    · subst hk
      rw [if_pos rfl, Option.bind_some]
      split_ifs
      · rw [ih, Assoc.get?_eq_none hn.1, Option.bind_none]
      · rw [Assoc.get?_cons_self]
    · rw [if_neg hk, ← ih]
      split_ifs
      · rfl
      · rw [Assoc.get?_cons_ne hk]

/-- **What an object reads after pruning**: each written value pruned, nothing where that is
absent. -/
theorem read?_prune_writeAll {writes : List (List String × Value)} (hne : ∀ w ∈ writes, w.1 ≠ [])
    (hdiv : writes.Pairwise fun w u => Diverge w.1 u.1) {ks : List String} {v : Value}
    (h : (ks, v) ∈ writes) :
    read? (prune (.dict (writeAll writes))) ks
      = if (prune v).isAbsent then none else some (prune v) := by
  induction ks generalizing writes with
  | nil => exact absurd rfl (hne _ h)
  | cons k ks ih =>
    have hread := read?_writeAll hne hdiv h
    rw [read?_dict_cons] at hread
    have hprune : read? (prune (.dict (writeAll writes))) (k :: ks)
        = (Assoc.get? (pruneFields (writeAll writes)) k).bind (read? · ks) := read?_dict_cons _ _ _
    rw [hprune, get?_pruneFields (nodup_keys_writeAll hne)]
    rcases get?_writeAll hne hdiv k with ⟨v', hmem, hget⟩ | ⟨-, hall, hget⟩ | ⟨hnil, -⟩
    · -- the write at `k` itself: no other path goes below it
      have hks : ks = [] := by
        by_contra hks
        have hsymm : Std.Symm fun w u : List String × Value => Diverge w.1 u.1 :=
          ⟨fun _ _ hd => hd.symm⟩
        have hdiff : (([k], v') : List String × Value) ≠ (k :: ks, v) := by
          intro heq
          exact hks (by simpa using (congrArg (fun w => w.1.tail) heq).symm)
        exact absurd (by simp) (hdiv.forall hmem h hdiff).1
      subst hks
      rw [hget, Option.bind_some, read?_nil] at hread
      obtain rfl := Option.some.inj hread
      rw [hget, Option.bind_some]
      split_ifs <;> simp
    · have hbelow := ih hall (pairwise_below hdiv k) (mem_below.mpr h)
      rw [hget, Option.bind_some]
      -- an object left with nothing is dropped, with the value that was in it
      by_cases hempty : (prune (.dict (writeAll (below k writes)))).isAbsent = true
      · have hfields : prune (.dict (writeAll (below k writes))) = .dict [] := by
          simpa [Value.isAbsent, prune] using hempty
        obtain ⟨j, js, rfl⟩ := List.exists_cons_of_ne_nil (hall _ (mem_below.mpr h))
        rw [hfields, show (Value.dict [] : Value) = dict [] from rfl, read?_dict_cons] at hbelow
        rw [← hbelow]
        simp only [show (dict (writeAll (below k writes)) : Value)
          = .dict (writeAll (below k writes)) from rfl, hempty, if_true]
        rfl
      · simp only [show (dict (writeAll (below k writes)) : Value)
          = .dict (writeAll (below k writes)) from rfl, hempty, Bool.false_eq_true, if_false,
          Option.bind_some]
        exact hbelow
    · have := mem_below.mpr h
      rw [hnil] at this
      simp at this

/-- A path that diverges from every write reads nothing after pruning. -/
theorem read?_prune_writeAll_of_diverge {writes : List (List String × Value)}
    (hne : ∀ w ∈ writes, w.1 ≠ []) (hdiv : writes.Pairwise fun w u => Diverge w.1 u.1)
    {ks : List String} (hks : ks ≠ []) (h : ∀ w ∈ writes, Diverge w.1 ks) :
    read? (prune (.dict (writeAll writes))) ks = none := by
  induction ks generalizing writes with
  | nil => exact absurd rfl hks
  | cons k ks ih =>
    have hprune : read? (prune (.dict (writeAll writes))) (k :: ks)
        = (Assoc.get? (pruneFields (writeAll writes)) k).bind (read? · ks) := read?_dict_cons _ _ _
    rw [hprune, get?_pruneFields (nodup_keys_writeAll hne)]
    rcases get?_writeAll hne hdiv k with ⟨v', hmem, -⟩ | ⟨⟨w, hw, -⟩, hall, hget⟩ | ⟨-, hget⟩
    · exact absurd (by simp) (h _ hmem).1
    · rw [hget, Option.bind_some]
      split_ifs
      · rfl
      · have hrest : ks ≠ [] := by
          rintro rfl
          exact (h (k :: w.1, w.2) (mem_below.mp hw)).2 (by simp)
        exact ih hall (pairwise_below hdiv k) hrest fun u hu =>
          diverge_cons.mp (h (k :: u.1, u.2) (mem_below.mp hu))
    · rw [hget]
      rfl

/-! ### Objects -/

variable {ports : PortPaths} {level : Level}

/-- A pruned object reads each of its leaves pruned. -/
theorem read?_prune_leaf (h : ValidPorts ports) (row : Row) (kids : Level → List Value)
    {path : ParsedPath} (hpath : path ∈ ownPaths ports level) :
    read? (prune (.dict (writeAll (objectWrites ports level row kids)))) path.ownSubpath
      = if (prune (row.get path.raw)).isAbsent then none else some (prune (row.get path.raw)) :=
  read?_prune_writeAll (objectWrites_ne_nil h row kids) (pairwise_objectWrites h row kids)
    (leaf_mem_objectWrites hpath row kids)

/-- A pruned object reads each of its children's arrays pruned. -/
theorem read?_prune_child (h : ValidPorts ports) (row : Row) (kids : Level → List Value)
    {child : Level} (hchild : child ∈ childrenOf ports level) :
    read? (prune (.dict (writeAll (objectWrites ports level row kids)))) (childHop level child)
      = if pruneList (kids child) = [] then none else some (.list (pruneList (kids child))) := by
  by_cases hkids : kids child = []
  · rw [hkids, if_pos (show pruneList [] = [] from rfl)]
    refine read?_prune_writeAll_of_diverge (objectWrites_ne_nil h row kids)
      (pairwise_objectWrites h row kids) (childHop_ne_nil hchild) fun w hw => ?_
    rcases List.mem_append.mp hw with hw | hw
    · obtain ⟨path, hpath, rfl⟩ := List.mem_map.mp hw
      exact diverge_ownPath_child h hpath hchild
    · obtain ⟨other, hother, rfl⟩ := List.mem_map.mp hw
      obtain ⟨hmem, hne⟩ := List.mem_filter.mp hother
      refine diverge_children h hmem hchild ?_
      rintro rfl
      simp [hkids] at hne
  · rw [read?_prune_writeAll (objectWrites_ne_nil h row kids) (pairwise_objectWrites h row kids)
      (child_mem_objectWrites hchild row hkids), prune]
    refine if_congr ?_ rfl rfl
    simp [Value.isAbsent]

/-- Where no element prunes to an empty object, every element stays. -/
theorem pruneList_eq_map {xs : List Value} (h : ∀ x ∈ xs, prune x ≠ .dict []) :
    pruneList xs = xs.map prune := by
  induction xs with
  | nil => rfl
  | cons x xs ih =>
    rw [pruneList, if_neg (h x List.mem_cons_self), List.map_cons,
      ih fun y hy => h y (List.mem_cons_of_mem _ hy)]

/-- A scalar is absent when it is null. -/
theorem isAbsent_prune_of_isScalar {v : Value} (h : v.isScalar = true) :
    (prune v).isAbsent = true ↔ v = .none := by
  rw [prune_of_isScalar h]
  cases v <;> simp_all [Value.isAbsent, Value.isScalar, Value.isDict, Value.isList]

end Haute
