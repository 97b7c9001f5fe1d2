import Haute.Canonical.Json
import Haute.Fingerprint.Identity
import Mathlib.Logic.Relation

/-!
# What canonical JSON identifies

Values whose mappings and sets were filled in another order have one text, and values with one
text are written as the same document (`canonicalJson_spec`). The order of a set's members leaves
no choice: two of them with one key are written alike (`eq_of_sortKey_eq`), because the numbers
in a set are not equal and the key of a container is its text.
-/

namespace Haute.Canonical

open Haute.Data Haute.Fingerprint

variable {F L : Type} [LinearOrder L] {N : Numbers F L}

/-! ### Members with one key -/

omit [LinearOrder L] in
@[simp] theorem SortKey.mk_inj {t t' : ℕ} {b b' : Bool} {n n' : WithBot L} {s s' : String} :
    SortKey.mk t b n s = SortKey.mk t' b' n' s' ↔ t = t' ∧ b = b' ∧ n = n' ∧ s = s' := by
  simp [SortKey.mk]

omit [LinearOrder L] in
/-- The key of what holds nothing: a number's holds it, and the others' say what they are. -/
theorem sortKey_scalar (N : Numbers F L) (s : Scalar F) :
    (∃ n, numeric N (.scalar s) = some n ∧ sortKey N (.scalar s) = SortKey.mk 2 false n "") ∨
      ((∃ x, s = .float x ∧ N.ofFloat x = none) ∧
        sortKey N (.scalar s) = SortKey.mk 2 true ⊥ "") ∨
      (s = .null ∧ sortKey N (.scalar s) = SortKey.mk 0 false ⊥ "") ∨
      ∃ b, s = .bool b ∧ sortKey N (.scalar s) = SortKey.mk 1 b ⊥ "" := by
  match s with
  | .null => exact .inr (.inr (.inl ⟨rfl, rfl⟩))
  | .bool b => exact .inr (.inr (.inr ⟨b, rfl, rfl⟩))
  | .int n => exact .inl ⟨N.ofInt n, rfl, rfl⟩
  | .float x =>
    cases hx : N.ofFloat x with
    | some n => exact .inl ⟨n, hx, by simp [sortKey, hx]⟩
    | none => exact .inr (.inl ⟨⟨x, rfl, hx⟩, by simp [sortKey, hx]⟩)

omit [LinearOrder L] in
theorem sortKey_scalar_ne (N : Numbers F L) (s : Scalar F) {t : ℕ} (ht : 3 ≤ t) (b : Bool)
    (n : WithBot L) (text : String) : sortKey N (.scalar s) ≠ SortKey.mk t b n text := by
  intro h
  rcases sortKey_scalar N s with ⟨m, -, hk⟩ | ⟨-, hk⟩ | ⟨-, hk⟩ | ⟨c, -, hk⟩
  all_goals
    rw [hk, SortKey.mk_inj] at h
    omega

omit [LinearOrder L] in
/-- Two members with one key are written alike or are numbers that are equal. -/
theorem eq_or_numeric_of_sortKey_eq {v w : Json F} (h : sortKey N v = sortKey N w) :
    v.sortKeys = w.sortKeys ∨ ∃ n, numeric N v = some n ∧ numeric N w = some n := by
  match v, w with
  | .str s, .str s' => exact .inl (by simpa [sortKey] using h)
  | .arr xs, .arr ys =>
    refine .inl ((Json.dumps_eq_iff N.floats).mp ?_)
    simpa [sortKey] using h
  | .obj fs, .obj gs =>
    refine .inl ((Json.dumps_eq_iff N.floats).mp ?_)
    simpa [sortKey] using h
  -- numbers, what is not a number, null and truth values have keys of their own kinds
  | .scalar s, .scalar s' =>
    rcases sortKey_scalar N s with ⟨n, hn, hk⟩ | ⟨⟨x, rfl, hx⟩, hk⟩ | ⟨rfl, hk⟩ | ⟨b, rfl, hk⟩
    · rcases sortKey_scalar N s' with ⟨n', hn', hk'⟩ | ⟨-, hk'⟩ | ⟨-, hk'⟩ | ⟨b', -, hk'⟩
      · rw [hk, hk', SortKey.mk_inj] at h
        obtain rfl := WithBot.coe_injective h.2.2.1
        exact .inr ⟨n, hn, hn'⟩
      all_goals simp [hk, hk'] at h
    · rcases sortKey_scalar N s' with ⟨n', -, hk'⟩ | ⟨⟨x', rfl, hx'⟩, -⟩ | ⟨-, hk'⟩ | ⟨b', -, hk'⟩
      · simp [hk, hk'] at h
      · rw [N.nan_unique x x' hx hx']
        exact .inl rfl
      all_goals simp [hk, hk'] at h
    · rcases sortKey_scalar N s' with ⟨n', -, hk'⟩ | ⟨-, hk'⟩ | ⟨rfl, -⟩ | ⟨b', -, hk'⟩
      · simp [hk, hk'] at h
      · simp [hk, hk'] at h
      · exact .inl rfl
      · simp [hk, hk'] at h
    · rcases sortKey_scalar N s' with ⟨n', -, hk'⟩ | ⟨-, hk'⟩ | ⟨-, hk'⟩ | ⟨b', rfl, hk'⟩
      · simp [hk, hk'] at h
      · simp [hk, hk'] at h
      · simp [hk, hk'] at h
      · rw [hk, hk', SortKey.mk_inj] at h
        exact .inl (by rw [h.2.1])
  | .scalar s, .str _ | .scalar s, .arr _ | .scalar s, .obj _ =>
    exact absurd h (sortKey_scalar_ne N s (by decide) _ _ _)
  | .str _, .scalar s | .arr _, .scalar s | .obj _, .scalar s =>
    exact absurd h.symm (sortKey_scalar_ne N s (by decide) _ _ _)
  | .str _, .arr _ | .str _, .obj _ | .arr _, .str _ | .arr _, .obj _ | .obj _, .str _
  | .obj _, .arr _ => simp [sortKey] at h

theorem inj_on_of_nodup_filterMap {α β : Type} {f : α → Option β} {xs : List α}
    (h : (xs.filterMap f).Nodup) {x y : α} (hx : x ∈ xs) (hy : y ∈ xs) {b : β}
    (hfx : f x = some b) (hfy : f y = some b) : x = y := by
  rw [List.Nodup, List.pairwise_filterMap] at h
  have : Std.Symm fun a a' : α => ∀ c, f a = some c → ∀ c', f a' = some c' → c ≠ c' :=
    ⟨fun a a' haa' c hc c' hc' e => haa' c' hc' c hc e.symm⟩
  by_contra hne
  exact h.forall hx hy hne b hfx b hfy rfl

/-- In a set the numbers of which are not equal, two members with one key are written alike. -/
theorem eq_of_sortKey_eq {xs : List (PyValue F)}
    (h : ((xs.map (canonicalise N)).filterMap (numeric N)).Nodup) :
    ∀ v ∈ xs.map (normal N), ∀ w ∈ xs.map (normal N), sortKey N v = sortKey N w → v = w := by
  intro v hv w hw hkey
  obtain ⟨x, hx, rfl⟩ := List.mem_map.mp hv
  obtain ⟨y, hy, rfl⟩ := List.mem_map.mp hw
  rw [normal, normal, sortKey_sortKeys, sortKey_sortKeys] at hkey
  obtain hsame | ⟨n, hn, hn'⟩ := eq_or_numeric_of_sortKey_eq hkey
  · exact hsame
  · have hone :=
      inj_on_of_nodup_filterMap h (List.mem_map_of_mem hx) (List.mem_map_of_mem hy) hn hn'
    exact congrArg Json.sortKeys hone

/-! ### Another order -/

omit [LinearOrder L] in
theorem numeric_sortKeys (v : Json F) : numeric N v.sortKeys = numeric N v := by
  cases v with
  | scalar => rfl
  | str => rfl
  | arr => rfl
  | obj => rfl

/-- Where one element is replaced by one that is written alike, all are. -/
theorem map_normal_replace {before after : List (PyValue F)} {x y : PyValue F}
    (h : normal N x = normal N y) :
    (before ++ x :: after).map (normal N) = (before ++ y :: after).map (normal N) := by
  rw [List.map_append, List.map_append, List.map_cons, List.map_cons, h]

theorem numbers_replace {before after : List (PyValue F)} {x y : PyValue F}
    (h : normal N x = normal N y) :
    ((before ++ x :: after).map (canonicalise N)).filterMap (numeric N) =
      ((before ++ y :: after).map (canonicalise N)).filterMap (numeric N) := by
  have hall : ∀ xs : List (PyValue F), (xs.map (canonicalise N)).filterMap (numeric N) =
      (xs.map (normal N)).filterMap (numeric N) := by
    intro xs
    rw [List.filterMap_map, List.filterMap_map]
    exact List.filterMap_congr fun v _ => (numeric_sortKeys (canonicalise N v)).symm
  rw [hall, hall, map_normal_replace h]

theorem proper_replace {before after : List (PyValue F)} {x y : PyValue F}
    (h : ∀ z ∈ before ++ x :: after, Proper N z) (hy : Proper N y) :
    ∀ z ∈ before ++ y :: after, Proper N z := by
  simp only [List.mem_append, List.mem_cons] at h ⊢
  rintro z (hz | rfl | hz)
  · exact h z (.inl hz)
  · exact hy
  · exact h z (.inr (.inr hz))

/-- **Another order of insertion writes nothing else**, and leaves a proper value. -/
theorem Reordered.normal_eq {a b : PyValue F} (h : Reordered a b) (ha : Proper N a) :
    normal N a = normal N b ∧ Proper N b := by
  -- one collection is reordered, or an entry of one is: the normal form sorts the first
  induction h with
  | set h =>
    cases ha with
    | set hall hnum =>
      rw [normal_set, normal_set, sortOn_eq_of_perm (h.map _) (eq_of_sortKey_eq hnum)]
      exact ⟨rfl, .set (fun x hx => hall x (h.mem_iff.mpr hx))
        (((h.map _).filterMap _).nodup_iff.mp hnum)⟩
  | frozenset h =>
    cases ha with
    | frozenset hall hnum =>
      rw [normal_frozenset, normal_frozenset,
        sortOn_eq_of_perm (h.map _) (eq_of_sortKey_eq hnum)]
      exact ⟨rfl, .frozenset (fun x hx => hall x (h.mem_iff.mpr hx))
        (((h.map _).filterMap _).nodup_iff.mp hnum)⟩
  | dict h =>
    cases ha with
    | dict hall hkeys =>
      rw [normal_dict, normal_dict, Json.byKey_eq_of_perm (h.map _)]
      · exact ⟨rfl, .dict (fun e he => hall e (h.mem_iff.mpr he))
          ((h.map Prod.fst).nodup_iff.mp hkeys)⟩
      · rwa [List.map_map]
  | inList before after h ih =>
    cases ha with
    | list hall =>
      obtain ⟨hsame, hy⟩ := ih (hall _ (by simp))
      rw [normal_list, normal_list, map_normal_replace hsame]
      exact ⟨rfl, .list (proper_replace hall hy)⟩
  | inTuple before after h ih =>
    cases ha with
    | tuple hall =>
      obtain ⟨hsame, hy⟩ := ih (hall _ (by simp))
      rw [normal_tuple, normal_tuple, map_normal_replace hsame]
      exact ⟨rfl, .tuple (proper_replace hall hy)⟩
  | inSet before after h ih =>
    cases ha with
    | set hall hnum =>
      obtain ⟨hsame, hy⟩ := ih (hall _ (by simp))
      rw [normal_set, normal_set, map_normal_replace hsame]
      exact ⟨rfl, .set (proper_replace hall hy) (numbers_replace hsame ▸ hnum)⟩
  | inFrozenset before after h ih =>
    cases ha with
    | frozenset hall hnum =>
      obtain ⟨hsame, hy⟩ := ih (hall _ (by simp))
      rw [normal_frozenset, normal_frozenset, map_normal_replace hsame]
      exact ⟨rfl, .frozenset (proper_replace hall hy) (numbers_replace hsame ▸ hnum)⟩
  | inDict before after k h ih =>
    cases ha with
    | dict hall hkeys =>
      obtain ⟨hsame, hy⟩ := ih (hall (k, _) (by simp))
      rw [normal_dict, normal_dict]
      simp only [List.map_append, List.map_cons, hsame, true_and]
      refine .dict ?_ (by simpa using hkeys)
      simp only [List.mem_append, List.mem_cons] at hall ⊢
      rintro e (he | rfl | he)
      · exact hall e (.inl he)
      · exact hy
      · exact hall e (.inr (.inr he))

/-! ### One text, one document -/

/-- **Canonical JSON identifies exactly what it should.** -/
theorem canonicalJson_spec (N : Numbers F L) :
    (∀ a b : PyValue F, Proper N a → Relation.ReflTransGen Reordered a b →
      canonicalJson N a = canonicalJson N b) ∧
    ∀ (a b : PyValue F) (t : String), canonicalJson N a = .ok t → canonicalJson N b = .ok t →
      (canonicalise N a).sortKeys = (canonicalise N b).sortKeys := by
  constructor
  · intro a b ha h
    have hsame : normal N a = normal N b ∧ Proper N b := by
      induction h with
      | refl => exact ⟨rfl, ha⟩
      | tail _ hlast ih =>
        obtain ⟨hnext, hb⟩ := hlast.normal_eq ih.2
        exact ⟨ih.1.trans hnext, hb⟩
    rw [canonicalJson_eq, canonicalJson_eq, hsame.1]
  · intro a b t ha hb
    unfold canonicalJson at ha hb
    split_ifs at ha hb
    have htext := (Except.ok.inj ha).trans (Except.ok.inj hb).symm
    exact (Json.dumps_eq_iff N.floats).mp htext

/-! A set filled in either order, and a tuple beside a list. -/

section Small

/-- Integers and the floats that hold one. -/
def wholeNumbers : Numbers ℤ ℤ := ⟨wholeFloats, id, some, by simp⟩

/-- The integer one. -/
def one : PyValue ℤ := .scalar (.int 1)

theorem small_alike : canonicalJson wholeNumbers (.set [one, .str "x"]) =
      canonicalJson wholeNumbers (.set [.str "x", one]) ∧
    (canonicalise wholeNumbers (.tuple [one])).sortKeys =
      (canonicalise wholeNumbers (.list [one])).sortKeys := by
  have hproper : Proper wholeNumbers (.set [one, .str "x"]) := by
    refine .set (fun v hv => ?_) (by decide)
    rcases List.mem_cons.mp hv with rfl | hv
    · exact .scalar _
    · rw [List.mem_singleton.mp hv]
      exact .str _
  exact ⟨(canonicalJson_spec wholeNumbers).1 _ _ hproper (.single (.set (.swap _ _ _))),
    (canonicalJson_spec wholeNumbers).2 (.tuple [one]) (.list [one]) _ rfl rfl⟩

end Small

end Haute.Canonical
