import Haute.Cache.Lru
import Mathlib.Algebra.Order.BigOperators.Group.List
import Mathlib.Data.Finset.Image

/-!
# The accounting of the LRU cache

`Accounted` ties the bookkeeping to the entries: the recorded weights are those of the
stored values, the running total is their sum, and no time, pin or weight is kept for a key
that is not stored. Every critical section keeps it, removing a key being the one way an
entry leaves.

`Settled` is what the eviction loop establishes: the bounds hold, or nothing is left to
evict. `evictIfOverCapacity_spec` says which entries go: the shortest run of unpinned keys
from the least recently used end that brings the cache within its bounds.
-/

namespace Haute

variable {K V Time : Type}

/-- The weight of a value: what `_measure` gives for it. -/
def LRUConfig.weight (cfg : LRUConfig V Time) (value : V) : ℤ := (cfg.measure value).toOption.getD 0

/-- The summed weight of the stored values. -/
def LRUConfig.totalWeight (cfg : LRUConfig V Time) (data : OrdDict K V) : ℤ :=
  (data.entries.map fun entry => cfg.weight entry.2).sum

/-- The contents break a bound: too many entries that are not pinned, or too much weight. -/
def LRUConfig.Exceeds (cfg : LRUConfig V Time) (isPinned : K → Bool) (data : OrdDict K V) : Prop :=
  cfg.maxSize < ((data.keys.filter fun key => !isPinned key).length : ℤ) ∨
    ∃ maxBytes, cfg.maxBytes = some maxBytes ∧ maxBytes < cfg.totalWeight data

theorem LRUConfig.weight_nonneg (cfg : LRUConfig V Time) (value : V) : 0 ≤ cfg.weight value := by
  rcases hsize : cfg.measure value with e | n
  · simp [weight, hsize, Except.toOption]
  · simp only [weight, hsize, Except.toOption, Option.getD_some]
    rw [measure] at hsize
    rcases hof : cfg.sizeOf with _ | size <;> rw [hof] at hsize
    · cases hsize
      exact le_rfl
    · obtain ⟨n', -, hsize⟩ := bind_eq_ok_iff.mp hsize
      obtain ⟨_, hn, hsize⟩ := bind_eq_ok_iff.mp hsize
      cases hsize
      exact of_decide_eq_true (require_eq_ok_iff.mp hn)

theorem LRUConfig.weight_of_measure {cfg : LRUConfig V Time} {value : V} {size : ℤ}
    (h : cfg.measure value = .ok size) : cfg.weight value = size := by
  rw [weight, h]
  rfl

/-- Without a byte bound an accepted configuration weighs nothing. -/
theorem LRUConfig.weight_eq_zero {cfg : LRUConfig V Time} (hcfg : cfg.validate = .ok ())
    (h : cfg.maxBytes = none) (value : V) : cfg.weight value = 0 := by
  obtain ⟨-, -, hcfg⟩ := bind_eq_ok_iff.mp hcfg
  rw [h] at hcfg
  rcases hsize : cfg.sizeOf with _ | size
  · rw [weight, measure, hsize]
    rfl
  · rw [hsize] at hcfg
    cases hcfg

namespace LRUCache

variable [DecidableEq K] {cfg : LRUConfig V Time} {cache : LRUCache K V Time}

/-! ### The invariant -/

/-- The bookkeeping of a cache is that of its entries. -/
structure Accounted (cfg : LRUConfig V Time) (cache : LRUCache K V Time) : Prop where
  sizes : ∀ key, cache.sizes.get? key
    = if cfg.maxBytes.isSome then (cache.data.get? key).map cfg.weight else none
  currentBytes : cache.currentBytes = if cfg.maxBytes.isSome then cfg.totalWeight cache.data else 0
  timestamps : ∀ key ∈ cache.timestamps.keys, key ∈ cache.data.keys
  pinned : ∀ key ∈ cache.pinned, key ∈ cache.data.keys

/-- Removing a key takes exactly its share out of the bookkeeping. -/
theorem Accounted.removeKey (h : Accounted cfg cache) (key : K) :
    Accounted cfg (cache.removeKey key) where
  sizes key' := by
    simp only [LRUCache.removeKey, OrdDict.get?_erase, h.sizes]
    split_ifs <;> rfl
  currentBytes := by
    simp only [LRUCache.removeKey, h.sizes, h.currentBytes, LRUConfig.totalWeight,
      OrdDict.sum_map_erase]
    split_ifs <;> simp
  timestamps key' hkey := by
    rw [LRUCache.removeKey, OrdDict.mem_keys_erase] at *
    exact ⟨h.timestamps key' hkey.1, hkey.2⟩
  pinned key' hkey := by
    rw [LRUCache.removeKey, OrdDict.mem_keys_erase]
    rw [LRUCache.removeKey, Finset.mem_erase] at hkey
    exact ⟨h.pinned key' hkey.2, hkey.1⟩

/-- Removing keys keeps the account. -/
theorem Accounted.foldl_removeKey (h : Accounted cfg cache) (keys : List K) :
    Accounted cfg (keys.foldl LRUCache.removeKey cache) := by
  induction keys generalizing cache with
  | nil => exact h
  | cons key keys ih => exact ih (h.removeKey key)

/-- A cache with the entries of an accounted one, in another order or with other pins. -/
theorem Accounted.of_data (h : Accounted cfg cache) {data : OrdDict K V}
    {pinned pinSlots : Finset K}
    (hget : ∀ key, data.get? key = cache.data.get? key)
    (htotal : cfg.totalWeight data = cfg.totalWeight cache.data)
    (hpinned : ∀ key ∈ pinned, key ∈ cache.data.keys) :
    Accounted cfg { cache with data := data, pinned := pinned, pinSlots := pinSlots } where
  sizes key := by rw [hget]; exact h.sizes key
  currentBytes := by rw [htotal]; exact h.currentBytes
  timestamps key hkey := by
    obtain ⟨value, hvalue⟩ := OrdDict.mem_keys_iff.mp (h.timestamps key hkey)
    exact OrdDict.mem_keys_iff.mpr ⟨value, (hget key).trans hvalue⟩
  pinned key hkey := by
    obtain ⟨value, hvalue⟩ := OrdDict.mem_keys_iff.mp (hpinned key hkey)
    exact OrdDict.mem_keys_iff.mpr ⟨value, (hget key).trans hvalue⟩

/-- Erasing a key takes off its weight. -/
theorem totalWeight_erase (data : OrdDict K V) (key : K) :
    cfg.totalWeight (data.erase key)
      = cfg.totalWeight data - ((data.get? key).map cfg.weight).getD 0 :=
  OrdDict.sum_map_erase data key cfg.weight

/-- Storing a value trades the weights. -/
theorem totalWeight_insert_erase (data : OrdDict K V) (key : K) (value : V) :
    cfg.totalWeight ((data.erase key).insert key value)
      = cfg.totalWeight data - ((data.get? key).map cfg.weight).getD 0 + cfg.weight value := by
  rw [LRUConfig.totalWeight, OrdDict.sum_map_insert_of_notMem (by simp)]
  exact congrArg (· + cfg.weight value) (totalWeight_erase data key)

/-- Moving a key to the end stores its value anew. -/
theorem moveToEnd_of_get? {data : OrdDict K V} {key : K} {value : V}
    (h : data.get? key = some value) :
    data.moveToEnd key = (data.erase key).insert key value := by
  rw [OrdDict.moveToEnd, h]

/-- Storing a value anew leaves the other keys. -/
theorem get?_insert_erase (data : OrdDict K V) (key key' : K) (value : V) :
    ((data.erase key).insert key value).get? key' = if key' = key then some value
      else data.get? key' := by
  rw [OrdDict.insert, OrdDict.get?_upsert, OrdDict.get?_erase]
  split_ifs <;> rfl

/-- What a store writes: the entry goes to the recent end, whether or not the key was there. -/
theorem data_stored (cfg : LRUConfig V Time) (now : Time) (cache : LRUCache K V Time) (key : K)
    (value : V) (size : ℤ) :
    (cache.stored cfg now key value size).data = (cache.data.erase key).insert key value := by
  by_cases h : key ∈ cache.data.keys
  · simp only [stored, h, decide_true, if_true]
    exact OrdDict.insert_moveToEnd ..
  · simp only [stored, h, decide_false, OrdDict.erase_eq_self h]
    rfl

/-- A store replaces the key's share by the new weight. -/
theorem Accounted.stored (h : Accounted cfg cache) (now : Time) (key : K) {value : V} {size : ℤ}
    (hsize : cfg.weight value = size) : Accounted cfg (cache.stored cfg now key value size) where
  sizes key' := by
    rw [data_stored, get?_insert_erase]
    simp only [LRUCache.stored, OrdDict.insert]
    -- sizes are kept only where there is a bound in bytes
    rcases hbytes : cfg.maxBytes.isSome with _ | _
    · have hnone : ∀ key', cache.sizes.get? key' = none := fun key' => by
        rw [h.sizes, hbytes]
        rfl
      by_cases hmem : key ∈ cache.data.keys <;> simp [hmem, hnone]
    · rcases eq_or_ne key' key with rfl | hne
      · simp [hsize]
      · have hkey := h.sizes key'
        rw [hbytes] at hkey
        by_cases hmem : key ∈ cache.data.keys <;> simp [hmem, OrdDict.get?_upsert, hne, hkey]
  currentBytes := by
    rw [data_stored, totalWeight_insert_erase]
    have hkey := h.sizes key
    have hbytes := h.currentBytes
    simp only [LRUCache.stored]
    rcases hsome : cfg.maxBytes.isSome with _ | _ <;> rw [hsome] at hkey hbytes
    · simp only [hkey, hbytes]
      simp
    · by_cases hmem : key ∈ cache.data.keys
      · simp only [hmem, hkey, hbytes, decide_true, if_true, hsize]
      · simp [hmem, hbytes, hsize, OrdDict.get?_eq_none_iff.mpr hmem]
  timestamps key' hkey := by
    rw [data_stored, OrdDict.keys_insert_erase, List.mem_append, List.mem_filter,
      List.mem_singleton]
    have hold : key' ∈ cache.timestamps.keys ∨ key' = key := by
      simp only [LRUCache.stored] at hkey
      split_ifs at hkey
      · exact (OrdDict.mem_keys_upsert.mp hkey).symm
      · exact .inl hkey
    rcases eq_or_ne key' key with rfl | hne
    · exact .inr rfl
    · exact .inl ⟨h.timestamps key' (hold.resolve_right hne), by simp [hne]⟩
  pinned key' hkey := by
    rw [data_stored, OrdDict.keys_insert_erase, List.mem_append, List.mem_filter,
      List.mem_singleton]
    rcases eq_or_ne key' key with rfl | hne
    · exact .inr rfl
    · exact .inl ⟨h.pinned key' hkey, by simp [hne]⟩

/-! ### Eviction -/

/-- Removing a key removes it from the eviction candidates. -/
theorem unpinned_removeKey (cache : LRUCache K V Time) (key : K) :
    (cache.removeKey key).unpinned = cache.unpinned.filter fun key' => key' ≠ key := by
  simp only [unpinned, removeKey, OrdDict.keys_erase, List.filter_filter]
  refine List.filter_congr fun key' _ => ?_
  by_cases h : key' = key <;> simp [isPinned, h]

theorem nodup_unpinned (cache : LRUCache K V Time) : cache.unpinned.Nodup :=
  cache.data.nodup_keys.filter _

/-- Removing the least recent unpinned key leaves the others in order. -/
theorem unpinned_removeKey_of_eq_cons {key : K} {rest : List K} (h : cache.unpinned = key :: rest) :
    (cache.removeKey key).unpinned = rest := by
  have hnd := cache.nodup_unpinned
  rw [h, List.nodup_cons] at hnd
  rw [unpinned_removeKey, h, List.filter_cons_of_neg (by simp)]
  exact List.filter_eq_self.mpr fun key' hkey' => by
    have : key' ≠ key := fun e => hnd.1 (e ▸ hkey')
    simp [this]

/-- The keys `evicted` are those an eviction removes from `cache`, leaving `after`. -/
structure Evicts (cfg : LRUConfig V Time) (cache : LRUCache K V Time) (evicted : List K)
    (after : LRUCache K V Time) : Prop where
  /-- They are the least recently used candidates. -/
  least : evicted <+: cache.unpinned
  /-- Nothing else is removed. -/
  after_eq : after = evicted.foldl removeKey cache
  /-- Evicting fewer leaves the cache over its bounds. -/
  needed : ∀ fewer, fewer <+: evicted → fewer ≠ evicted →
    (fewer.foldl removeKey cache).overCapacity cfg = true
  /-- Evicting these is enough, or there is nothing more to evict. -/
  enough : after.overCapacity cfg = false ∨ evicted = cache.unpinned

/-- Nothing is evicted from a cache that fits or is all pinned. -/
private theorem Evicts.nothing (h : cache.overCapacity cfg = false ∨ cache.unpinned = []) :
    Evicts cfg cache [] cache where
  least := List.nil_prefix
  after_eq := rfl
  needed _ hfewer hne := absurd ( List.prefix_nil.mp hfewer) hne
  enough := h.imp_right Eq.symm

/-- **The eviction loop.** It removes a run of candidates from the least recently used end,
each of them while the cache was still over its bounds, and stops within the bounds or when
no candidate is left. -/
theorem evictLoop_spec (turns : ℕ) (cache : LRUCache K V Time)
    (hturns : cache.unpinned.length ≤ turns) :
    ∃ evicted, Evicts cfg cache evicted (cache.evictLoop cfg turns) := by
  induction turns generalizing cache with
  | zero => exact ⟨[], .nothing (.inr (List.eq_nil_of_length_eq_zero (by omega)))⟩
  | succ turns ih =>
    rcases hover : cache.overCapacity cfg with _ | _
    · exact ⟨[], by simpa [evictLoop, hover] using Evicts.nothing (.inl hover)⟩
    rcases hcandidates : cache.unpinned with _ | ⟨candidate, rest⟩
    · exact ⟨[], by simpa [evictLoop, hcandidates] using Evicts.nothing (.inr hcandidates)⟩
    -- one turn evicts the first candidate; the rest of the loop runs on what is left
    have hrest := unpinned_removeKey_of_eq_cons hcandidates
    have hloop : cache.evictLoop cfg (turns + 1) =
        (cache.removeKey candidate).evictLoop cfg turns := by
      simp [evictLoop, hover, hcandidates]
    rw [hcandidates, List.length_cons] at hturns
    obtain ⟨evicted, h⟩ := ih (cache.removeKey candidate) (by rw [hrest]; omega)
    rw [hloop]
    refine ⟨candidate :: evicted, ?_, h.after_eq, fun fewer hfewer hne => ?_, ?_⟩
    · rw [hcandidates, List.cons_prefix_cons]
      exact ⟨rfl, hrest ▸ h.least⟩
    · rcases fewer with _ | ⟨first, fewer⟩
      · exact hover
      · obtain ⟨rfl, hpre⟩ := List.cons_prefix_cons.mp hfewer
        exact h.needed fewer hpre fun e => hne (e ▸ rfl)
    · rw [hcandidates, ← hrest]
      exact h.enough.imp_right (congrArg _)

/-- **What `_evict_if_over_capacity` evicts.** -/
theorem evictIfOverCapacity_spec (cfg : LRUConfig V Time) (cache : LRUCache K V Time) :
    ∃ evicted, Evicts cfg cache evicted (cache.evictIfOverCapacity cfg) :=
  evictLoop_spec _ cache (List.length_filter_le ..)

/-- Removing keys keeps the others in order. -/
theorem keys_foldl_removeKey (keys : List K) (cache : LRUCache K V Time) :
    (keys.foldl removeKey cache).data = cache.data.filterKeys fun key => key ∉ keys := by
  induction keys generalizing cache with
  | nil => exact OrdDict.ext (List.filter_eq_self.mpr fun _ _ => by simp).symm
  | cons key keys ih =>
    rw [List.foldl_cons, ih]
    refine OrdDict.ext ?_
    simp only [removeKey, OrdDict.erase, OrdDict.filterKeys, List.filter_filter]
    refine List.filter_congr fun e _ => ?_
    simp [Bool.and_comm]

/-- Removing unpinned keys leaves the pins. -/
theorem isPinned_foldl_removeKey {keys : List K} (hkeys : ∀ key ∈ keys, cache.isPinned key = false)
    (key : K) : (keys.foldl removeKey cache).isPinned key = cache.isPinned key := by
  induction keys generalizing cache with
  | nil => rfl
  | cons first keys ih =>
    have hfirst (key : K) : (cache.removeKey first).isPinned key = cache.isPinned key := by
      have hpinned := hkeys first List.mem_cons_self
      simp only [isPinned, Bool.or_eq_false_iff, decide_eq_false_iff_not] at hpinned
      simp only [isPinned, removeKey, Finset.erase_eq_of_notMem hpinned.1]
    rw [List.foldl_cons, ih fun key hkey => by rw [hfirst, hkeys key (List.mem_cons_of_mem _ hkey)],
      hfirst]

/-- The loop's condition is about the entries, as long as the bookkeeping is theirs. -/
theorem Accounted.overCapacity_iff (h : Accounted cfg cache) :
    cache.overCapacity cfg = true ↔ cfg.Exceeds cache.isPinned cache.data := by
  rw [overCapacity, Bool.or_eq_true, decide_eq_true_iff, LRUConfig.Exceeds]
  refine or_congr Iff.rfl ?_
  rcases hbytes : cfg.maxBytes with _ | maxBytes
  · simp
  · simp [h.currentBytes, hbytes]

/-! ### Settled caches -/

/-- Within the bounds, or with nothing left to evict. -/
def Settled (cfg : LRUConfig V Time) (cache : LRUCache K V Time) : Prop :=
  cache.overCapacity cfg = false ∨ cache.unpinned = []

/-- After eviction the cache fits, or all of it is pinned. -/
theorem settled_evictIfOverCapacity (cfg : LRUConfig V Time) (cache : LRUCache K V Time) :
    Settled cfg (cache.evictIfOverCapacity cfg) := by
  obtain ⟨evicted, h⟩ := evictIfOverCapacity_spec cfg cache
  rcases h.enough with hover | rfl
  · exact .inl hover
  · refine .inr (List.eq_nil_iff_forall_not_mem.mpr fun key hkey => ?_)
    have hpins := @isPinned_foldl_removeKey _ _ _ _ cache cache.unpinned fun key hkey => by
      simpa using (List.mem_filter.mp hkey).2
    rw [h.after_eq, unpinned, List.mem_filter, keys_foldl_removeKey, OrdDict.keys_filterKeys,
      List.mem_filter, hpins] at hkey
    simp only [unpinned, List.mem_filter, not_and, Bool.not_eq_true', decide_eq_true_eq] at hkey
    exact absurd hkey.2 (by simpa using hkey.1.2 hkey.1.1)

/-- A cache stays settled when neither its candidates nor its weight grow. -/
theorem Settled.mono {after : LRUCache K V Time} (h : Settled cfg cache)
    (hcount : after.unpinned.length ≤ cache.unpinned.length)
    (hbytes : after.currentBytes ≤ cache.currentBytes) : Settled cfg after := by
  rcases h with h | h
  · left
    rw [overCapacity, Bool.or_eq_false_iff] at h ⊢
    refine ⟨?_, ?_⟩
    · have := of_decide_eq_false h.1
      rw [decide_eq_false_iff_not]
      unfold capacityEntryCount at *
      omega
    · rcases hmax : cfg.maxBytes with _ | maxBytes
      · rfl
      · have := h.2
        simp only [hmax, decide_eq_false_iff_not] at this ⊢
        omega
  · right
    rw [h] at hcount
    exact List.eq_nil_of_length_eq_zero (by simpa using hcount)

/-- Removing a key keeps a cache that fits fitting. -/
theorem Settled.removeKey (h : Settled cfg cache) (hacc : Accounted cfg cache) (key : K) :
    Settled cfg (cache.removeKey key) := by
  refine h.mono ?_ ?_
  · rw [unpinned_removeKey]
    exact List.length_filter_le ..
  · have hweight : 0 ≤ (cache.sizes.get? key).getD 0 := by
      rw [hacc.sizes]
      split_ifs
      · rcases cache.data.get? key with _ | value
        · exact le_rfl
        · exact cfg.weight_nonneg value
      · exact le_rfl
    simp only [LRUCache.removeKey]
    omega

/-- Eviction keeps the account. -/
theorem Accounted.evictIfOverCapacity (h : Accounted cfg cache) :
    Accounted cfg (cache.evictIfOverCapacity cfg) := by
  obtain ⟨evicted, hev⟩ := evictIfOverCapacity_spec cfg cache
  rw [hev.after_eq]
  exact h.foldl_removeKey evicted

/-- Removing keys keeps a cache that fits fitting. -/
theorem Settled.foldl_removeKey (h : Settled cfg cache) (hacc : Accounted cfg cache)
    (keys : List K) :
    Settled cfg (keys.foldl LRUCache.removeKey cache) := by
  induction keys generalizing cache with
  | nil => exact h
  | cons key keys ih => exact ih (h.removeKey hacc key) (hacc.removeKey key)

end LRUCache

end Haute
