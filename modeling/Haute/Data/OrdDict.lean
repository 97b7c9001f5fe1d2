import Haute.Data.Assoc
import Mathlib.Algebra.BigOperators.Group.List.Basic

/-!
# Insertion-ordered dictionaries

`OrdDict κ ν` is a finite map that remembers the order in which its keys were first
inserted: an association list carrying the proof that its keys are distinct, so equality
of dictionaries is equality of contents *and* order. The one update is `upsert`, and the
one way of combining two dictionaries is `mergeWith`, which replays the entries of the
second on the first.

The result the kit exists for is `mergeWith_upsert`: when the combining function absorbs a
write, replaying a dictionary and then writing is the same as writing first and replaying.
Any accumulator built from such writes is then a homomorphism from concatenation to
merging, order of keys included.
-/

/-- A finite map that remembers the order in which its keys were first inserted. -/
@[ext]
structure OrdDict (κ ν : Type*) where
  /-- The entries, oldest key first. -/
  entries : List (κ × ν)
  /-- No key has two entries. -/
  nodupKeys : (Assoc.keys entries).Nodup

namespace OrdDict

variable {κ ν : Type*}

/-- The dictionary without entries. -/
def empty : OrdDict κ ν := ⟨[], List.nodup_nil⟩

instance : Inhabited (OrdDict κ ν) := ⟨empty⟩

/-- The keys, oldest first. -/
def keys (d : OrdDict κ ν) : List κ := Assoc.keys d.entries

@[simp] theorem keys_empty : (empty : OrdDict κ ν).keys = [] := rfl

@[simp] theorem entries_empty : (empty : OrdDict κ ν).entries = [] := rfl

theorem nodup_keys (d : OrdDict κ ν) : d.keys.Nodup := d.nodupKeys

variable [DecidableEq κ]

instance [DecidableEq ν] : DecidableEq (OrdDict κ ν) := fun d e =>
  decidable_of_iff (d.entries = e.entries) OrdDict.ext_iff.symm

/-- The value at `k`. -/
def get? (d : OrdDict κ ν) (k : κ) : Option ν := Assoc.get? d.entries k

/-- Rewrite the value at `k` in place, or append `k`: `f` sees the value held so far. -/
def upsert (d : OrdDict κ ν) (k : κ) (f : Option ν → ν) : OrdDict κ ν :=
  ⟨Assoc.upsert d.entries k f, Assoc.nodup_keys_upsert d.nodupKeys k f⟩

/-- Store `v` at `k`. -/
def insert (d : OrdDict κ ν) (k : κ) (v : ν) : OrdDict κ ν := d.upsert k fun _ => v

/-- Store `v` at `k` unless something is already held there. -/
def setdefault (d : OrdDict κ ν) (k : κ) (v : ν) : OrdDict κ ν := d.upsert k fun o => o.getD v

/-- The entries whose key satisfies `p`, in order. -/
def filterKeys (d : OrdDict κ ν) (p : κ → Bool) : OrdDict κ ν :=
  ⟨d.entries.filter fun e => p e.1, d.nodupKeys.sublist (List.filter_sublist.map Prod.fst)⟩

@[simp] theorem get?_empty (k : κ) : (empty : OrdDict κ ν).get? k = none := rfl

/-- **Extensionality.** A dictionary is its key order and what it reads at each key. -/
theorem ext_get? {d e : OrdDict κ ν} (hk : d.keys = e.keys) (hg : ∀ k, d.get? k = e.get? k) :
    d = e :=
  OrdDict.ext (Assoc.ext d.nodupKeys hk hg)

/-- A key is not held exactly when nothing is found under it. -/
theorem get?_eq_none_iff {d : OrdDict κ ν} {k : κ} : d.get? k = none ↔ k ∉ d.keys :=
  Assoc.get?_eq_none_iff

/-- A key is held exactly when a value is found under it. -/
theorem mem_keys_iff {d : OrdDict κ ν} {k : κ} : k ∈ d.keys ↔ ∃ v, d.get? k = some v :=
  ⟨Assoc.exists_get?_of_mem_keys, fun ⟨_, h⟩ => Assoc.mem_keys_of_get?_eq_some h⟩

/-- The entries are the values found under their keys. -/
theorem mem_entries_iff {d : OrdDict κ ν} {k : κ} {v : ν} :
    (k, v) ∈ d.entries ↔ d.get? k = some v :=
  ⟨Assoc.get?_eq_some_of_mem d.nodupKeys, Assoc.mem_of_get?_eq_some⟩

/-! ### Updating -/

/-- A key that is held keeps its place, a new one comes last. -/
theorem keys_upsert (d : OrdDict κ ν) (k : κ) (f : Option ν → ν) :
    (d.upsert k f).keys = if k ∈ d.keys then d.keys else d.keys ++ [k] :=
  Assoc.keys_upsert ..

/-- Storing under one key leaves the others. -/
theorem get?_upsert (d : OrdDict κ ν) (k k' : κ) (f : Option ν → ν) :
    (d.upsert k f).get? k' = if k' = k then some (f (d.get? k)) else d.get? k' :=
  Assoc.get?_upsert ..

@[simp] theorem get?_upsert_self (d : OrdDict κ ν) (k : κ) (f : Option ν → ν) :
    (d.upsert k f).get? k = some (f (d.get? k)) := Assoc.get?_upsert_self ..

theorem get?_upsert_ne {k k' : κ} (h : k' ≠ k) (d : OrdDict κ ν) (f : Option ν → ν) :
    (d.upsert k f).get? k' = d.get? k' := Assoc.get?_upsert_ne h ..

/-- The keys after storing are the stored one and those before. -/
theorem mem_keys_upsert {d : OrdDict κ ν} {k k' : κ} {f : Option ν → ν} :
    k' ∈ (d.upsert k f).keys ↔ k' = k ∨ k' ∈ d.keys := Assoc.mem_keys_upsert

/-- A write that gives back the value already held changes nothing. -/
theorem upsert_eq_self {d : OrdDict κ ν} {k : κ} {v : ν} {f : Option ν → ν}
    (hv : d.get? k = some v) (hf : f (some v) = v) : d.upsert k f = d := by
  refine ext_get? ?_ fun k' => ?_
  · rw [keys_upsert, if_pos (mem_keys_iff.mpr ⟨v, hv⟩)]
  · rw [get?_upsert]
    split_ifs with h
    · rw [h, hv, hf]
    · rfl

omit [DecidableEq κ] in
/-- Filtering by key keeps the order of the keys that pass. -/
theorem keys_filterKeys (d : OrdDict κ ν) (p : κ → Bool) :
    (d.filterKeys p).keys = d.keys.filter p := by
  simp only [keys, filterKeys, Assoc.keys, List.filter_map]
  rfl

/-- What is found after filtering by key is what was there under a key that passes. -/
theorem get?_filterKeys (d : OrdDict κ ν) (p : κ → Bool) (k : κ) :
    (d.filterKeys p).get? k = if p k then d.get? k else none := Assoc.get?_filter_key ..

/-! ### Removing -/

/-- The dictionary without its entry at `k`. -/
def erase (d : OrdDict κ ν) (k : κ) : OrdDict κ ν := d.filterKeys fun k' => k' ≠ k

/-- The entry at `k` taken to the end, as the newest. -/
def moveToEnd (d : OrdDict κ ν) (k : κ) : OrdDict κ ν :=
  match d.get? k with
  | none => d
  | some v => (d.erase k).insert k v

@[simp] theorem keys_erase (d : OrdDict κ ν) (k : κ) :
    (d.erase k).keys = d.keys.filter fun k' => k' ≠ k := keys_filterKeys ..

@[simp] theorem get?_erase (d : OrdDict κ ν) (k k' : κ) :
    (d.erase k).get? k' = if k' = k then none else d.get? k' := by
  rw [erase, get?_filterKeys]
  by_cases h : k' = k <;> simp [h]

/-- The keys after erasing one are the others. -/
theorem mem_keys_erase {d : OrdDict κ ν} {k k' : κ} :
    k' ∈ (d.erase k).keys ↔ k' ∈ d.keys ∧ k' ≠ k := by simp

/-- Nothing is removed where nothing is held. -/
theorem erase_eq_self {d : OrdDict κ ν} {k : κ} (h : k ∉ d.keys) : d.erase k = d := by
  refine OrdDict.ext (List.filter_eq_self.mpr fun e he => ?_)
  have : e.1 ≠ k := fun hk => h (hk ▸ Assoc.mem_keys_of_mem he)
  simp [this]

/-- A new key goes to the end. -/
theorem keys_insert_erase (d : OrdDict κ ν) (k : κ) (v : ν) :
    ((d.erase k).insert k v).keys = (d.keys.filter fun k' => k' ≠ k) ++ [k] := by
  rw [insert, keys_upsert, if_neg (by simp), keys_erase]

/-- Storing at a key moved to the end replaces its entry by a newest one. -/
theorem insert_moveToEnd (d : OrdDict κ ν) (k : κ) (v : ν) :
    (d.moveToEnd k).insert k v = (d.erase k).insert k v := by
  rcases h : d.get? k with _ | w
  · rw [moveToEnd, h, erase_eq_self (get?_eq_none_iff.mp h)]
  · rw [moveToEnd, h]
    refine ext_get? ?_ fun k' => ?_
    · simp [insert, keys_upsert]
    · simp only [insert, get?_upsert]
      split_ifs <;> rfl

/-- A sum over the entries splits into the one under a key and the others. -/
private theorem sum_map_filter_ne_add {M : Type*} [AddCommMonoid M] (es : List (κ × ν))
    (hn : (Assoc.keys es).Nodup) (k : κ) (w : ν → M) :
    ((es.filter fun e => e.1 ≠ k).map fun e => w e.2).sum + ((Assoc.get? es k).map w).getD 0
      = (es.map fun e => w e.2).sum := by
  induction es with
  | nil => simp
  | cons e es ih =>
    rw [Assoc.keys_cons, List.nodup_cons] at hn
    rw [List.filter_cons, Assoc.get?_cons]
    by_cases h : e.1 = k
    · -- the rest holds no entry at `k`
      have hrest : es.filter (fun e => e.1 ≠ k) = es := List.filter_eq_self.mpr fun e' he' => by
        have : e'.1 ≠ k := fun hk => hn.1 (h ▸ hk ▸ Assoc.mem_keys_of_mem he')
        simp [this]
      rw [hrest]
      simp [h, add_comm]
    · have hkeep : decide (e.1 ≠ k) = true := by simp [h]
      rw [if_pos hkeep, if_neg h, List.map_cons, List.sum_cons, List.map_cons, List.sum_cons,
        add_assoc, ih hn.2]

/-- A sum over the entries is one over the others and the share of the entry at `k`. -/
theorem sum_map_erase_add {M : Type*} [AddCommMonoid M] (d : OrdDict κ ν) (k : κ) (w : ν → M) :
    ((d.erase k).entries.map fun e => w e.2).sum + ((d.get? k).map w).getD 0
      = (d.entries.map fun e => w e.2).sum :=
  sum_map_filter_ne_add d.entries d.nodupKeys k w

/-- Removing an entry takes its share from a sum over the entries. -/
theorem sum_map_erase {M : Type*} [AddCommGroup M] (d : OrdDict κ ν) (k : κ) (w : ν → M) :
    ((d.erase k).entries.map fun e => w e.2).sum
      = (d.entries.map fun e => w e.2).sum - ((d.get? k).map w).getD 0 :=
  eq_sub_of_add_eq (d.sum_map_erase_add k w)

/-- Storing a value trades its weight for that of the value it replaces. -/
private theorem sum_map_upsert_add {M : Type*} [AddCommMonoid M] (es : List (κ × ν)) (k : κ) (v : ν)
    (w : ν → M) : ((Assoc.upsert es k fun _ => v).map fun e => w e.2).sum
      + ((Assoc.get? es k).map w).getD 0 = (es.map fun e => w e.2).sum + w v := by
  induction es with
  | nil => simp [Assoc.upsert]
  | cons e es ih =>
    rw [Assoc.upsert, Assoc.get?_cons]
    by_cases h : e.1 = k
    · simp only [h, if_pos, List.map_cons, List.sum_cons, Option.map_some, Option.getD_some]
      rw [add_comm (w v), add_assoc, add_comm (w v), ← add_assoc, add_comm _ (w e.2)]
    · simp only [h, if_false, List.map_cons, List.sum_cons]
      rw [add_assoc, ih, add_assoc]

/-- Storing at a key adds the share of the new value to a sum over the entries and takes
that of the old one. -/
theorem sum_map_insert_add {M : Type*} [AddCommMonoid M] (d : OrdDict κ ν) (k : κ) (v : ν)
    (w : ν → M) : ((d.insert k v).entries.map fun e => w e.2).sum + ((d.get? k).map w).getD 0
      = (d.entries.map fun e => w e.2).sum + w v :=
  sum_map_upsert_add d.entries k v w

/-- A new entry adds its share to a sum over the entries. -/
theorem sum_map_insert_of_notMem {M : Type*} [AddCommMonoid M] {d : OrdDict κ ν} {k : κ}
    (h : k ∉ d.keys) (v : ν) (w : ν → M) :
    ((d.insert k v).entries.map fun e => w e.2).sum = (d.entries.map fun e => w e.2).sum + w v := by
  have hentries : (d.insert k v).entries = d.entries ++ [(k, v)] := by
    obtain ⟨es, hn⟩ := d
    simp only [insert, upsert]
    exact Assoc.upsert_of_notMem h _
  rw [hentries]
  simp

/-! ### Merging -/

/-- Replay the entries of `e` on `d`, oldest first; `g` combines the value `d` holds, if
any, with the one replayed. -/
def mergeWith (g : Option ν → ν → ν) (d e : OrdDict κ ν) : OrdDict κ ν :=
  e.entries.foldl (fun acc kv => acc.upsert kv.1 fun o => g o kv.2) d

@[simp] theorem mergeWith_empty (g : Option ν → ν → ν) (d : OrdDict κ ν) :
    d.mergeWith g empty = d := rfl

/-- Merging puts new keys behind those held, in their order. -/
private theorem keys_foldl_upsert (g : Option ν → ν → ν) (es : List (κ × ν))
    (hn : (Assoc.keys es).Nodup) (d : OrdDict κ ν) :
    (es.foldl (fun acc kv => acc.upsert kv.1 fun o => g o kv.2) d).keys
      = d.keys ++ (Assoc.keys es).filter (fun k => k ∉ d.keys) := by
  induction es generalizing d with
  | nil => simp
  | cons e es ih =>
    rw [Assoc.keys_cons, List.nodup_cons] at hn
    rw [List.foldl_cons, ih hn.2, keys_upsert, Assoc.keys_cons, List.filter_cons]
    by_cases he : e.1 ∈ d.keys
    · simp [he]
    · have hfresh : (Assoc.keys es).filter (fun k => k ∉ d.keys ++ [e.1])
          = (Assoc.keys es).filter (fun k => k ∉ d.keys) := by
        refine List.filter_congr fun k hk => ?_
        have hne : k ≠ e.1 := fun h => hn.1 (h ▸ hk)
        simp [hne]
      rw [if_neg he, hfresh]
      simp [he]

/-- Merging combines values entry by entry. -/
private theorem get?_foldl_upsert (g : Option ν → ν → ν) (es : List (κ × ν))
    (hn : (Assoc.keys es).Nodup) (d : OrdDict κ ν) (k : κ) :
    (es.foldl (fun acc kv => acc.upsert kv.1 fun o => g o kv.2) d).get? k
      = match Assoc.get? es k with
        | none => d.get? k
        | some v => some (g (d.get? k) v) := by
  induction es generalizing d with
  | nil => simp
  | cons e es ih =>
    rw [Assoc.keys_cons, List.nodup_cons] at hn
    rw [List.foldl_cons, ih hn.2, Assoc.get?_cons, get?_upsert]
    by_cases he : e.1 = k
    · subst he
      simp [Assoc.get?_eq_none hn.1]
    · simp [he, Ne.symm he]

/-- The keys of a merge: those of `d`, then the new ones of `e` in `e`'s order. -/
theorem keys_mergeWith (g : Option ν → ν → ν) (d e : OrdDict κ ν) :
    (d.mergeWith g e).keys = d.keys ++ e.keys.filter (fun k => k ∉ d.keys) :=
  keys_foldl_upsert g e.entries e.nodupKeys d

/-- What a merge reads at each key. -/
theorem get?_mergeWith (g : Option ν → ν → ν) (d e : OrdDict κ ν) (k : κ) :
    (d.mergeWith g e).get? k
      = match e.get? k with
        | none => d.get? k
        | some v => some (g (d.get? k) v) :=
  get?_foldl_upsert g e.entries e.nodupKeys d k

/-- The keys of a merge are those of either side. -/
theorem mem_keys_mergeWith {g : Option ν → ν → ν} {d e : OrdDict κ ν} {k : κ} :
    k ∈ (d.mergeWith g e).keys ↔ k ∈ d.keys ∨ k ∈ e.keys := by
  rw [keys_mergeWith, List.mem_append, List.mem_filter]
  by_cases h : k ∈ d.keys <;> simp [h]

/-- **Merging absorbs a write.** If `g` absorbs the write `f` at a value held on the right
and passes it on where nothing is held there, then writing before a merge and after it
agree, key order included. -/
theorem mergeWith_upsert {g : Option ν → ν → ν} {f : Option ν → ν}
    (hsome : ∀ o v, g o (f (some v)) = f (some (g o v))) (hnone : ∀ o, g o (f none) = f o)
    (d e : OrdDict κ ν) (k : κ) :
    d.mergeWith g (e.upsert k f) = (d.mergeWith g e).upsert k f := by
  refine ext_get? ?_ fun k' => ?_
  · rw [keys_upsert, keys_mergeWith, keys_mergeWith, keys_upsert]
    by_cases he : k ∈ e.keys <;> by_cases hd : k ∈ d.keys <;> simp [he, hd, List.filter_append]
  · rw [get?_upsert, get?_mergeWith, get?_upsert, get?_mergeWith, get?_mergeWith]
    by_cases hk : k' = k
    · subst hk
      rcases he : e.get? k' with _ | v
      · simp [hnone]
      · simp [hsome]
    · simp [hk]

end OrdDict
