import Mathlib

/-!
# Association lists with in-place update

The kit for keyed lists that are searched from the front. `Assoc.get?` reads the first
entry of a key, `Assoc.upsert` rewrites that entry where it stands and appends a new entry
at the end when there is none, so a key keeps the place it was first given. `Assoc.ext`
is the extensionality principle everything else is proved through: a list with distinct
keys is determined by the order of its keys and by what is read at each of them.
-/

namespace Assoc

variable {κ ν μ : Type*}

/-- The keys of an association list, in list order. -/
def keys (es : List (κ × ν)) : List κ := es.map Prod.fst

@[simp] theorem keys_nil : keys ([] : List (κ × ν)) = [] := rfl

@[simp] theorem keys_cons (e : κ × ν) (es : List (κ × ν)) : keys (e :: es) = e.1 :: keys es := rfl

@[simp] theorem keys_append (es fs : List (κ × ν)) : keys (es ++ fs) = keys es ++ keys fs :=
  List.map_append

/-- The key of an entry is held. -/
theorem mem_keys_of_mem {es : List (κ × ν)} {e : κ × ν} (h : e ∈ es) : e.1 ∈ keys es :=
  List.mem_map_of_mem h

/-! ### Reading -/

variable [DecidableEq κ]

/-- The value of the first entry at `k`. -/
def get? : List (κ × ν) → κ → Option ν
  | [], _ => none
  | (k', v) :: es, k => if k' = k then some v else get? es k

/-- Rewrite the first entry at `k`, or append one: `f` sees the value held so far. -/
def upsert : List (κ × ν) → κ → (Option ν → ν) → List (κ × ν)
  | [], k, f => [(k, f none)]
  | (k', v) :: es, k, f => if k' = k then (k', f (some v)) :: es else (k', v) :: upsert es k f

/-- Store `v` at `k`, whatever was held there. -/
def set (es : List (κ × ν)) (k : κ) (v : ν) : List (κ × ν) := upsert es k fun _ => v

@[simp] theorem get?_nil (k : κ) : get? ([] : List (κ × ν)) k = none := rfl

/-- A lookup takes the first entry under the key. -/
theorem get?_cons (e : κ × ν) (es : List (κ × ν)) (k : κ) :
    get? (e :: es) k = if e.1 = k then some e.2 else get? es k := rfl

@[simp] theorem get?_cons_self (k : κ) (v : ν) (es : List (κ × ν)) :
    get? ((k, v) :: es) k = some v := if_pos rfl

theorem get?_cons_ne {e : κ × ν} {k : κ} (h : e.1 ≠ k) (es : List (κ × ν)) :
    get? (e :: es) k = get? es k := if_neg h

/-- Nothing is read exactly at the keys that are absent. -/
theorem get?_eq_none_iff {es : List (κ × ν)} {k : κ} : get? es k = none ↔ k ∉ keys es := by
  induction es with
  | nil => simp
  | cons e es ih =>
    rw [get?_cons, keys_cons, List.mem_cons, not_or]
    split_ifs with h
    · simp [h]
    · rw [ih]
      exact ⟨fun hn => ⟨fun hk => h hk.symm, hn⟩, fun hn => hn.2⟩

/-- Nothing is found under a key that is not held. -/
theorem get?_eq_none {es : List (κ × ν)} {k : κ} (h : k ∉ keys es) : get? es k = none :=
  get?_eq_none_iff.mpr h

/-- A present key reads a value. -/
theorem exists_get?_of_mem_keys {es : List (κ × ν)} {k : κ} (h : k ∈ keys es) :
    ∃ v, get? es k = some v := by
  rcases hv : get? es k with _ | v
  · exact absurd h (get?_eq_none_iff.mp hv)
  · exact ⟨v, rfl⟩

/-- What is read is an entry of the list. -/
theorem mem_of_get?_eq_some {es : List (κ × ν)} {k : κ} {v : ν} (h : get? es k = some v) :
    (k, v) ∈ es := by
  induction es with
  | nil => simp at h
  | cons e es ih =>
    rw [get?_cons] at h
    split_ifs at h with he
    · obtain rfl : e.2 = v := by simpa using h
      subst he
      exact List.mem_cons_self
    · exact List.mem_cons_of_mem _ (ih h)

/-- A key that something is found under is held. -/
theorem mem_keys_of_get?_eq_some {es : List (κ × ν)} {k : κ} {v : ν} (h : get? es k = some v) :
    k ∈ keys es := by
  by_contra hk
  rw [get?_eq_none hk] at h
  simp at h

/-- With distinct keys, every entry is the one its key reads. -/
theorem get?_eq_some_of_mem {es : List (κ × ν)} (hn : (keys es).Nodup) {k : κ} {v : ν}
    (h : (k, v) ∈ es) : get? es k = some v := by
  induction es with
  | nil => simp at h
  | cons e es ih =>
    rw [keys_cons, List.nodup_cons] at hn
    rcases List.mem_cons.mp h with rfl | h'
    · exact get?_cons_self _ _ _
    · rw [get?_cons_ne, ih hn.2 h']
      rintro rfl
      exact hn.1 (mem_keys_of_mem (e := (_, v)) h')

/-- Mapping the values maps what is read. -/
theorem get?_map_snd (g : κ → ν → μ) (es : List (κ × ν)) (k : κ) :
    get? (es.map fun e => (e.1, g e.1 e.2)) k = (get? es k).map (g k) := by
  induction es with
  | nil => simp
  | cons e es ih =>
    rw [List.map_cons, get?_cons, get?_cons, ih]
    by_cases h : e.1 = k
    · subst h; simp
    · simp [h]

/-- Keeping the entries whose key satisfies `p` keeps what is read there. -/
theorem get?_filter_key (p : κ → Bool) (es : List (κ × ν)) (k : κ) :
    get? (es.filter fun e => p e.1) k = if p k then get? es k else none := by
  induction es with
  | nil => simp
  | cons e es ih =>
    rw [List.filter_cons]
    by_cases he : e.1 = k
    · subst he
      by_cases hp : p e.1 = true
      · simp [hp, get?_cons]
      · simp only [hp]
        simpa [hp] using ih
    · by_cases hp : p e.1 = true
      · simp only [hp, if_true, get?_cons_ne he, ih]
      · simp only [hp, get?_cons_ne he]
        exact ih

/-! ### Updating -/

/-- A new key gets its entry at the end. -/
theorem upsert_of_notMem {es : List (κ × ν)} {k : κ} (h : k ∉ keys es) (f : Option ν → ν) :
    upsert es k f = es ++ [(k, f none)] := by
  induction es with
  | nil => rfl
  | cons e es ih =>
    rw [keys_cons, List.mem_cons, not_or] at h
    rw [upsert, if_neg (Ne.symm h.1), ih h.2, List.cons_append]

/-- An update leaves the keys in place and adds its own at the end when it is new. -/
theorem keys_upsert (es : List (κ × ν)) (k : κ) (f : Option ν → ν) :
    keys (upsert es k f) = if k ∈ keys es then keys es else keys es ++ [k] := by
  induction es with
  | nil => simp [upsert]
  | cons e es ih =>
    rw [upsert]
    by_cases he : e.1 = k
    · subst he; simp
    · rw [if_neg he, keys_cons, keys_cons, ih]
      have hk : k ∈ e.1 :: keys es ↔ k ∈ keys es := by
        simp [List.mem_cons, Ne.symm he]
      by_cases hm : k ∈ keys es
      · rw [if_pos hm, if_pos (hk.mpr hm)]
      · rw [if_neg hm, if_neg (hk.not.mpr hm), List.cons_append]

/-- After an update `k` reads the new value, every other key what it read before. -/
theorem get?_upsert (es : List (κ × ν)) (k k' : κ) (f : Option ν → ν) :
    get? (upsert es k f) k' = if k' = k then some (f (get? es k)) else get? es k' := by
  induction es with
  | nil =>
    rw [upsert, get?_cons]
    simp [eq_comm]
  | cons e es ih =>
    rw [upsert]
    by_cases he : e.1 = k
    · subst he
      rw [if_pos rfl, get?_cons, get?_cons, get?_cons]
      by_cases hk : k' = e.1
      · simp [hk]
      · simp [hk, Ne.symm hk]
    · rw [if_neg he, get?_cons, ih, get?_cons, get?_cons, if_neg he]
      by_cases hk : k' = k
      · subst hk; simp [he]
      · simp [hk]

@[simp] theorem get?_upsert_self (es : List (κ × ν)) (k : κ) (f : Option ν → ν) :
    get? (upsert es k f) k = some (f (get? es k)) := by rw [get?_upsert, if_pos rfl]

theorem get?_upsert_ne {k k' : κ} (h : k' ≠ k) (es : List (κ × ν)) (f : Option ν → ν) :
    get? (upsert es k f) k' = get? es k' := by rw [get?_upsert, if_neg h]

/-- The keys after storing are the stored one and those before. -/
theorem mem_keys_upsert {es : List (κ × ν)} {k k' : κ} {f : Option ν → ν} :
    k' ∈ keys (upsert es k f) ↔ k' = k ∨ k' ∈ keys es := by
  rw [keys_upsert]
  split_ifs with h
  · exact ⟨Or.inr, fun h' => h'.elim (fun e => e ▸ h) id⟩
  · simp [or_comm]

/-- An entry after an update was there before, or is the updated one. -/
theorem mem_upsert {es : List (κ × ν)} {k : κ} {f : Option ν → ν} {e : κ × ν}
    (h : e ∈ upsert es k f) : e ∈ es ∨ e = (k, f (get? es k)) := by
  induction es with
  | nil => exact .inr (List.mem_singleton.mp h)
  | cons x es ih =>
    rw [upsert] at h
    split_ifs at h with hk
    · rcases List.mem_cons.mp h with rfl | h
      · right
        rw [get?_cons, if_pos hk, hk]
      · exact .inl (List.mem_cons_of_mem _ h)
    · rcases List.mem_cons.mp h with rfl | h
      · exact .inl List.mem_cons_self
      · rcases ih h with h | h
        · exact .inl (List.mem_cons_of_mem _ h)
        · right
          rw [h, get?_cons, if_neg hk]

/-- Storing keeps the keys distinct. -/
theorem nodup_keys_upsert {es : List (κ × ν)} (hn : (keys es).Nodup) (k : κ)
    (f : Option ν → ν) : (keys (upsert es k f)).Nodup := by
  rw [keys_upsert]
  split_ifs with h
  · exact hn
  · exact List.nodup_append.mpr ⟨hn, List.nodup_singleton k, by
      rintro a ha b hb rfl
      exact h ((List.mem_singleton.mp hb) ▸ ha)⟩

/-- A key that is held keeps its place, a new one comes last. -/
theorem keys_set (es : List (κ × ν)) (k : κ) (v : ν) :
    keys (set es k v) = if k ∈ keys es then keys es else keys es ++ [k] := keys_upsert ..

/-- Setting one key leaves the others. -/
theorem get?_set (es : List (κ × ν)) (k k' : κ) (v : ν) :
    get? (set es k v) k' = if k' = k then some v else get? es k' := get?_upsert ..

@[simp] theorem get?_set_self (es : List (κ × ν)) (k : κ) (v : ν) :
    get? (set es k v) k = some v := get?_upsert_self ..

theorem get?_set_ne {k k' : κ} (h : k' ≠ k) (es : List (κ × ν)) (v : ν) :
    get? (set es k v) k' = get? es k' := get?_upsert_ne h ..

/-- **Extensionality.** Distinct keys, in one order, reading the same values. -/
theorem ext {es fs : List (κ × ν)} (hn : (keys es).Nodup) (hk : keys es = keys fs)
    (hg : ∀ k, get? es k = get? fs k) : es = fs := by
  induction es generalizing fs with
  | nil =>
    cases fs with
    | nil => rfl
    | cons f fs => simp at hk
  | cons e es ih =>
    cases fs with
    | nil => simp at hk
    | cons f fs =>
      obtain ⟨hhead, htail⟩ : e.1 = f.1 ∧ keys es = keys fs := by simpa using hk
      rw [keys_cons, List.nodup_cons] at hn
      have hval : e.2 = f.2 := by
        have h := hg e.1
        rw [get?_cons, get?_cons, if_pos rfl, if_pos hhead.symm] at h
        exact Option.some_injective _ h
      have hrest : ∀ k, get? es k = get? fs k := by
        intro k
        by_cases hke : e.1 = k
        · subst hke
          rw [get?_eq_none hn.1, get?_eq_none (by rw [← htail]; exact hn.1)]
        · have h := hg k
          rwa [get?_cons_ne hke, get?_cons_ne (hhead ▸ hke)] at h
      rw [ih hn.2 htail hrest, Prod.ext hhead hval]

end Assoc

/-- In matched lists an element of the second has its match in the first. -/
theorem List.Forall₂.exists_of_mem_right {α β : Type*} {R : α → β → Prop} {xs : List α}
    {ys : List β} (h : List.Forall₂ R xs ys) {y : β} (hy : y ∈ ys) : ∃ x ∈ xs, R x y := by
  induction h with
  | nil => simp at hy
  | @cons x y' xs ys hxy _ ih =>
    rcases List.mem_cons.mp hy with rfl | hy
    · exact ⟨x, by simp, hxy⟩
    · obtain ⟨x', hx', hR⟩ := ih hy
      exact ⟨x', by simp [hx'], hR⟩

/-- In matched lists an element of the first has its match in the second. -/
theorem List.Forall₂.exists_of_mem_left {α β : Type*} {R : α → β → Prop} {xs : List α}
    {ys : List β} (h : List.Forall₂ R xs ys) {x : α} (hx : x ∈ xs) : ∃ y ∈ ys, R x y := by
  obtain ⟨y, hy, hR⟩ := h.flip.exists_of_mem_right hx
  exact ⟨y, hy, hR⟩
