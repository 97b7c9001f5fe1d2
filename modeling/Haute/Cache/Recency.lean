import Haute.Cache.Accounting

/-!
# Least recently used, over whole runs

The cache keeps no times of use; it keeps its entries in an order. `UseTrace` runs the
operations beside a clock that ticks once an operation and a record of when each key was
last used: a `get` that hits uses its key, and so does a `put` that stores. `Recent` says
that the order of the entries is the order of those times, and every operation keeps it.

With it, what the eviction loop takes from the old end of the order are the keys whose last
use is longest ago (`lru_exact`).
-/

namespace Haute

variable {K V Time : Type} [DecidableEq K]

namespace LRUCache

variable {cfg : LRUConfig V Time} {cache : LRUCache K V Time}

/-- The entries are in the order of the times `lastUse` gives, none after `clock`. -/
structure Recent (lastUse : K → ℕ) (clock : ℕ) (data : OrdDict K V) : Prop where
  sorted : data.keys.Pairwise fun older newer => lastUse older < lastUse newer
  le_clock : ∀ key ∈ data.keys, lastUse key ≤ clock

omit [DecidableEq K] in
/-- Removing entries keeps the order of the others. -/
theorem Recent.filterKeys {lastUse : K → ℕ} {clock : ℕ} {data : OrdDict K V}
    (h : Recent lastUse clock data) (p : K → Bool) : Recent lastUse clock (data.filterKeys p) where
  sorted := by
    rw [OrdDict.keys_filterKeys]
    exact h.sorted.filter p
  le_clock key hkey := by
    rw [OrdDict.keys_filterKeys] at hkey
    exact h.le_clock key (List.mem_of_mem_filter hkey)

omit [DecidableEq K] in
theorem Recent.tick {lastUse : K → ℕ} {clock : ℕ} {data : OrdDict K V}
    (h : Recent lastUse clock data) : Recent lastUse (clock + 1) data :=
  ⟨h.sorted, fun key hkey => (h.le_clock key hkey).trans (Nat.le_succ _)⟩

theorem Recent.removeKey {lastUse : K → ℕ} {clock : ℕ} (h : Recent lastUse clock cache.data)
    (key : K) :
    Recent lastUse (clock + 1) (cache.removeKey key).data :=
  (h.filterKeys fun key' => key' ≠ key).tick

/-- The key used now goes to the recent end. -/
theorem Recent.use {lastUse : K → ℕ} {clock : ℕ} {data : OrdDict K V}
    (h : Recent lastUse clock data) (key : K) (value : V) :
    Recent (Function.update lastUse key (clock + 1)) (clock + 1)
      ((data.erase key).insert key value) := by
  have hother : ∀ key' ∈ data.keys.filter (fun key' => key' ≠ key),
      Function.update lastUse key (clock + 1) key' = lastUse key' ∧ lastUse key' ≤ clock := by
    intro key' hkey'
    obtain ⟨hmem, hne⟩ := List.mem_filter.mp hkey'
    exact ⟨Function.update_of_ne (by simpa using hne) _ _, h.le_clock key' hmem⟩
  constructor
  · rw [OrdDict.keys_insert_erase, List.pairwise_append]
    refine ⟨?_, List.pairwise_singleton _ _, fun key' hkey' last hlast => ?_⟩
    · refine (h.sorted.filter _).imp_of_mem fun ha hb hlt => ?_
      rw [(hother _ ha).1, (hother _ hb).1]
      exact hlt
    · obtain rfl := List.mem_singleton.mp hlast
      rw [(hother _ hkey').1, Function.update_self]
      exact Nat.lt_succ_of_le (hother _ hkey').2
  · intro key' hkey'
    rw [OrdDict.keys_insert_erase, List.mem_append, List.mem_singleton] at hkey'
    rcases hkey' with hkey' | rfl
    · rw [(hother _ hkey').1]
      exact (hother _ hkey').2.trans (Nat.le_succ _)
    · rw [Function.update_self]

/-- A removal of keys is a filter of the entries. -/
theorem data_evictWhere (cache : LRUCache K V Time) (predicate : K → Bool) :
    (cache.evictWhere predicate).1
      = ((cache.data.keys.filter predicate).foldl removeKey cache) := by
  simp only [evictWhere, OrdDict.keys, Assoc.keys, List.filter_map, List.foldl_map]
  rfl

theorem unpinned_pin_sublist (cache : LRUCache K V Time) (key : K) :
    (cache.pin key).unpinned.length ≤ cache.unpinned.length := by
  unfold pin
  split_ifs with h
  · refine List.Sublist.length_le (List.monotone_filter_right _ fun key' hkey' => ?_)
    simp only [isPinned, Finset.mem_insert, Bool.not_eq_true', Bool.or_eq_false_iff,
      decide_eq_false_iff_not, not_or] at hkey' ⊢
    exact ⟨hkey'.1.2, hkey'.2⟩
  · exact le_rfl

theorem perm_keys_insert_erase {data : OrdDict K V} {key : K} (h : key ∈ data.keys) (value : V) :
    ((data.erase key).insert key value).keys.Perm data.keys := by
  rw [OrdDict.keys_insert_erase]
  refine (List.perm_ext_iff_of_nodup ?_ data.nodup_keys).mpr fun key' => ?_
  · rw [← OrdDict.keys_insert_erase data key value]
    exact OrdDict.nodup_keys _
  · rcases eq_or_ne key' key with rfl | hne
    · simp [h]
    · simp [hne]

end LRUCache

section Operations

variable [DecidableEq V] [Zero Time] [Sub Time] [LT Time] [DecidableLT Time]
  {cfg : LRUConfig V Time} {cache : LRUCache K V Time}

namespace LRUCache

omit [DecidableEq V] in
/-- What `get` can do: miss, drop an expired entry, or promote the entry it hits. -/
theorem get_cases (cfg : LRUConfig V Time) (now : Time) (cache : LRUCache K V Time) (key : K) :
    cache.get cfg now key = (cache, none) ∨ cache.get cfg now key = (cache.removeKey key, none) ∨
      ∃ value, cache.data.get? key = some value ∧
        cache.get cfg now key
          = ({ cache with data := (cache.data.erase key).insert key value }, some value) := by
  rcases hget : cache.data.get? key with _ | value
  · exact .inl (by simp [get, hget])
  rcases hexpired : cache.isExpired cfg now key with _ | _
  · exact .inr (.inr ⟨value, rfl, by simp [get, hget, hexpired, moveToEnd_of_get? hget]⟩)
  · exact .inr (.inl (by simp [get, hget, hexpired]))

omit [DecidableEq V] in
/-- What `pop` can do to the cache. -/
theorem pop_cases (cfg : LRUConfig V Time) (now : Time) (cache : LRUCache K V Time) (key : K) :
    (cache.pop cfg now key).1 = cache ∨ (cache.pop cfg now key).1 = cache.removeKey key := by
  rcases hget : cache.data.get? key with _ | value <;> simp [pop, hget]

omit [Zero Time] [Sub Time] [LT Time] [DecidableLT Time] in
/-- What a `put` of a value above the byte bound can do to the cache. -/
theorem put_cases_of_isOversized {value : V} {size : ℤ} (hsize : cfg.measure value = .ok size)
    (hover : isOversized cfg size = true) (now : Time) (cache : LRUCache K V Time) (key : K)
    (replacing : Option V) :
    (cache.put cfg now key value replacing).1 = cache ∨
      (cache.put cfg now key value replacing).1 = cache.removeKey key := by
  simp only [put, hsize, hover, if_true]
  split_ifs
  · exact .inr rfl
  · exact .inl rfl

end LRUCache

namespace LRUOp

/-- The key an operation uses. -/
def used (cfg : LRUConfig V Time) (cache : LRUCache K V Time) : LRUOp K V Time → Option K
  | .get now key => if (cache.get cfg now key).2.isSome then some key else none
  | .put _ key value _ =>
    match cfg.measure value with
    | .error _ => none
    | .ok size => if LRUCache.isOversized cfg size then none else some key
  | _ => none

/-- The cache an operation has made before it calls the eviction; the cache it leaves, for
the operations that do not. -/
def unevicted (cfg : LRUConfig V Time) (cache : LRUCache K V Time) : LRUOp K V Time →
    LRUCache K V Time
  | .put now key value replacing =>
    match cfg.measure value with
    | .error _ => cache
    | .ok size =>
      if LRUCache.isOversized cfg size then (cache.put cfg now key value replacing).1
      else cache.stored cfg now key value size
  | .unpin key =>
    { cache with pinned := cache.pinned.erase key, pinSlots := cache.pinSlots.erase key }
  | op => op.run cfg cache

/-- Whether an operation calls the eviction. -/
def evicts (cfg : LRUConfig V Time) : LRUOp K V Time → Bool
  | .put _ _ value _ =>
    match cfg.measure value with
    | .error _ => false
    | .ok size => !LRUCache.isOversized cfg size
  | .unpin _ => true
  | _ => false

theorem run_eq (cfg : LRUConfig V Time) (cache : LRUCache K V Time) (op : LRUOp K V Time) :
    op.run cfg cache
      = if op.evicts cfg then (op.unevicted cfg cache).evictIfOverCapacity cfg
        else op.unevicted cfg cache := by
  rcases op with _ | _ | _ | ⟨now, key, value, replacing⟩ | _ | _ | _ | _
  case put =>
    rcases hsize : cfg.measure value with e | size
    · simp [run, evicts, unevicted, LRUCache.put, hsize]
    · rcases hover : LRUCache.isOversized cfg size with _ | _ <;>
        simp [run, evicts, unevicted, LRUCache.put, hsize, hover]
  all_goals rfl

end LRUOp

namespace LRUCache

theorem accounted_unevicted (h : Accounted cfg cache) (op : LRUOp K V Time) :
    Accounted cfg (op.unevicted cfg cache) := by
  rcases op with ⟨now, key⟩ | _ | ⟨now, key⟩ | ⟨now, key, value,
    replacing⟩ | key | key | _ | predicate
  case get =>
    simp only [LRUOp.unevicted, LRUOp.run]
    rcases get_cases cfg now cache key with heq | heq | ⟨value, hget, heq⟩ <;> rw [heq]
    · exact h
    · exact h.removeKey key
    · -- a hit moves its entry to the end, which no sum notices
      refine h.of_data (fun key' => ?_) ?_ h.pinned
      · rw [get?_insert_erase]
        split_ifs with heq
        · rw [heq, hget]
        · rfl
      · rw [totalWeight_insert_erase, hget]
        simp
  case peek => exact h
  case pop =>
    simp only [LRUOp.unevicted, LRUOp.run]
    rcases pop_cases cfg now cache key with heq | heq <;> rw [heq]
    · exact h
    · exact h.removeKey key
  case put =>
    rcases hsize : cfg.measure value with e | size
    · simpa [LRUOp.unevicted, hsize] using h
    rcases hover : isOversized cfg size with _ | _
    · simpa [LRUOp.unevicted, hsize, hover] using h.stored now key
        (LRUConfig.weight_of_measure hsize)
    · simp only [LRUOp.unevicted, hsize, hover, if_true]
      rcases put_cases_of_isOversized hsize hover now cache key replacing
        with heq | heq <;> rw [heq]
      · exact h
      · exact h.removeKey key
  case pin =>
    simp only [LRUOp.unevicted, LRUOp.run, pin]
    split_ifs with hmem
    · refine h.of_data (fun _ => rfl) rfl fun key' hkey' => ?_
      rcases Finset.mem_insert.mp hkey' with rfl | hkey'
      · exact hmem
      · exact h.pinned key' hkey'
    · exact h
  case unpin =>
    exact h.of_data (fun _ => rfl) rfl fun key' hkey' =>
      h.pinned key' (Finset.mem_of_mem_erase hkey')
  case clear => exact ⟨fun _ => by simp [LRUOp.unevicted, LRUOp.run, clear],
      by simp [LRUOp.unevicted, LRUOp.run, clear, LRUConfig.totalWeight],
      fun _ hkey => hkey, fun _ hkey => absurd hkey (Finset.notMem_empty _)⟩
  case evictWhere =>
    simp only [LRUOp.unevicted, LRUOp.run, data_evictWhere]
    exact h.foldl_removeKey _

/-- **Every operation keeps the accounting.** -/
theorem Accounted.run (h : Accounted cfg cache) (op : LRUOp K V Time) :
    Accounted cfg (op.run cfg cache) := by
  rw [LRUOp.run_eq]
  split_ifs
  · exact (accounted_unevicted h op).evictIfOverCapacity
  · exact accounted_unevicted h op

/-- **Every operation leaves a settled cache settled**: those that can break a bound end with
the eviction, the others neither add a candidate nor weight. -/
theorem Settled.run (h : Settled cfg cache) (hacc : Accounted cfg cache) (op : LRUOp K V Time) :
    Settled cfg (op.run cfg cache) := by
  rcases hevicts : op.evicts cfg with _ | _
  · rcases op
      with ⟨now, key⟩ | _ | ⟨now, key⟩ | ⟨now, key, value, replacing⟩ | key | key | _ | predicate
    case get =>
      simp only [LRUOp.run]
      rcases get_cases cfg now cache key with heq | heq | ⟨value, hget, heq⟩ <;> rw [heq]
      · exact h
      · exact h.removeKey hacc key
      · refine h.mono (le_of_eq ?_) le_rfl
        have hmem : key ∈ cache.data.keys := OrdDict.mem_keys_iff.mpr ⟨value, hget⟩
        exact ((perm_keys_insert_erase hmem value).filter _).length_eq
    case peek => exact h
    case pop =>
      simp only [LRUOp.run]
      rcases pop_cases cfg now cache key with heq | heq <;> rw [heq]
      · exact h
      · exact h.removeKey hacc key
    case put =>
      simp only [LRUOp.run]
      rcases hsize : cfg.measure value with e | size
      · simpa [put, hsize] using h
      have hover : isOversized cfg size = true := by
        simpa [LRUOp.evicts, hsize] using hevicts
      rcases put_cases_of_isOversized hsize hover now cache key replacing
        with heq | heq <;> rw [heq]
      · exact h
      · exact h.removeKey hacc key
    case pin =>
      -- a pinned key is no candidate any more
      refine h.mono (unpinned_pin_sublist cache key) (le_of_eq ?_)
      simp only [LRUOp.run, pin]
      split_ifs <;> rfl
    case unpin => cases hevicts
    case clear => exact .inr rfl
    case evictWhere =>
      simp only [LRUOp.run, data_evictWhere]
      exact h.foldl_removeKey hacc _
  · rw [LRUOp.run_eq, if_pos hevicts]
    exact settled_evictIfOverCapacity cfg _

end LRUCache

/-! ### Runs -/

/-- A run of the cache beside a clock and the time each key was last used. -/
structure UseTrace (K V Time : Type) where
  /-- The cache. -/
  cache : LRUCache K V Time
  /-- How many operations have run. -/
  clock : ℕ
  /-- When a key was last used; `0` before its first use. -/
  lastUse : K → ℕ

namespace UseTrace

/-- A new cache. -/
def start (pinSlots : Finset K) : UseTrace K V Time := ⟨.new pinSlots, 0, fun _ => 0⟩

/-- The times of last use once `used` has been used at `time`. -/
def recordUse (lastUse : K → ℕ) (time : ℕ) : Option K → K → ℕ
  | none => lastUse
  | some key => Function.update lastUse key time

/-- One operation. -/
def next (cfg : LRUConfig V Time) (trace : UseTrace K V Time) (op : LRUOp K V Time) :
    UseTrace K V Time where
  cache := op.run cfg trace.cache
  clock := trace.clock + 1
  lastUse := recordUse trace.lastUse (trace.clock + 1) (op.used cfg trace.cache)

/-- The runs of a cache. -/
def machine (cfg : LRUConfig V Time) (pinSlots : Finset K) :
    Machine (UseTrace K V Time) (LRUOp K V Time) :=
  .ofFn (start pinSlots) (next cfg)

/-- The operations before the eviction put the key they use last, and only remove others. -/
theorem recent_unevicted (cfg : LRUConfig V Time) {trace : UseTrace K V Time}
    (h : LRUCache.Recent trace.lastUse trace.clock trace.cache.data) (op : LRUOp K V Time) :
    LRUCache.Recent (trace.next cfg op).lastUse (trace.next cfg op).clock
      (op.unevicted cfg trace.cache).data := by
  rcases op with ⟨now, key⟩ | _ | ⟨now, key⟩ | ⟨now, key, value,
    replacing⟩ | key | key | _ | predicate
  case get =>
    simp only [LRUOp.unevicted, LRUOp.run, next, LRUOp.used]
    rcases LRUCache.get_cases cfg now trace.cache key with heq | heq | ⟨value, -, heq⟩ <;> rw [heq]
    · exact h.tick
    · exact h.removeKey key
    · exact h.use key value
  case peek => exact h.tick
  case pop =>
    simp only [LRUOp.unevicted, LRUOp.run, next, LRUOp.used]
    rcases LRUCache.pop_cases cfg now trace.cache key with heq | heq <;> rw [heq]
    · exact h.tick
    · exact h.removeKey key
  case put =>
    simp only [LRUOp.unevicted, next, LRUOp.used]
    rcases hsize : cfg.measure value with e | size
    · exact h.tick
    rcases hover : LRUCache.isOversized cfg size with _ | _
    · simp only [hover, Bool.false_eq_true, if_false, LRUCache.data_stored]
      exact h.use key value
    · simp only [hover, if_true]
      rcases LRUCache.put_cases_of_isOversized hsize hover now trace.cache key replacing
        with heq | heq <;> rw [heq]
      · exact h.tick
      · exact h.removeKey key
  case pin =>
    simp only [LRUOp.unevicted, LRUOp.run, next, LRUOp.used, LRUCache.pin]
    split_ifs <;> exact h.tick
  case unpin => exact h.tick
  case clear => exact ⟨List.Pairwise.nil, fun _ hkey => absurd hkey List.not_mem_nil⟩
  case evictWhere =>
    simp only [LRUOp.unevicted, LRUOp.run, next, LRUOp.used, LRUCache.data_evictWhere,
      LRUCache.keys_foldl_removeKey]
    exact (h.filterKeys _).tick

/-- What holds of every run: the accounting, the bounds and the order of use. -/
structure Invariant (cfg : LRUConfig V Time) (trace : UseTrace K V Time) : Prop where
  accounted : trace.cache.Accounted cfg
  settled : trace.cache.Settled cfg
  recent : LRUCache.Recent trace.lastUse trace.clock trace.cache.data

omit [DecidableEq V] [Zero Time] [Sub Time] [LT Time] [DecidableLT Time] in
theorem Invariant.start (cfg : LRUConfig V Time) (pinSlots : Finset K) :
    Invariant cfg (UseTrace.start pinSlots) where
  accounted := ⟨fun _ => by simp [UseTrace.start, LRUCache.new],
    by simp [UseTrace.start, LRUCache.new, LRUConfig.totalWeight],
    fun _ hkey => hkey, fun _ hkey => absurd hkey (Finset.notMem_empty _)⟩
  settled := .inr rfl
  recent := ⟨List.Pairwise.nil, fun _ hkey => absurd hkey List.not_mem_nil⟩

theorem Invariant.next {trace : UseTrace K V Time} (h : Invariant cfg trace) (op : LRUOp K V Time) :
    Invariant cfg (trace.next cfg op) where
  accounted := h.accounted.run op
  settled := h.settled.run h.accounted op
  recent := by
    have hrecent := recent_unevicted cfg h.recent op
    change LRUCache.Recent _ _ (op.run cfg trace.cache).data
    rw [LRUOp.run_eq]
    split_ifs
    · obtain ⟨evicted, hev⟩ := LRUCache.evictIfOverCapacity_spec cfg (op.unevicted cfg trace.cache)
      rw [hev.after_eq, LRUCache.keys_foldl_removeKey]
      exact hrecent.filterKeys _
    · exact hrecent

theorem Invariant.of_reachable {pinSlots : Finset K} {trace : UseTrace K V Time}
    (h : (machine cfg pinSlots).Reachable trace) : Invariant cfg trace := by
  refine h.invariant ?_ ?_
  · rintro s rfl
    exact .start cfg pinSlots
  · rintro s op t hs rfl
    exact hs.next op

end UseTrace

/-! ### The accounting is exact -/

omit [DecidableEq V] [Zero Time] [Sub Time] [LT Time] [DecidableLT Time] in
/-- An eviction, read off the entries: the keys it removes are the candidates used least
recently, and removing fewer of them would leave a bound broken. -/
theorem LRUCache.Evicts.exact {after : LRUCache K V Time} {evicted : List K} {lastUse : K → ℕ}
    {clock : ℕ} (h : LRUCache.Evicts cfg cache evicted after) (hacc : cache.Accounted cfg)
    (hrecent : LRUCache.Recent lastUse clock cache.data) :
    after.data = cache.data.filterKeys (fun key => key ∉ evicted) ∧
      (∀ key ∈ evicted, key ∈ cache.data.keys ∧ cache.isPinned key = false) ∧
      (∀ key ∈ evicted, ∀ kept ∈ after.data.keys, cache.isPinned kept = false →
        lastUse key < lastUse kept) ∧
      ∀ fewer, fewer <+: evicted → fewer ≠ evicted →
        cfg.Exceeds cache.isPinned (cache.data.filterKeys fun key => key ∉ fewer) := by
  have hcandidate : ∀ key ∈ evicted, key ∈ cache.data.keys ∧ cache.isPinned key = false := by
    intro key hkey
    simpa using List.mem_filter.mp (h.least.subset hkey)
  have hdata : after.data = cache.data.filterKeys fun key => key ∉ evicted := by
    rw [h.after_eq, LRUCache.keys_foldl_removeKey]
  refine ⟨hdata, hcandidate, fun key hkey kept hkept hpin => ?_, fun fewer hfewer hne => ?_⟩
  · -- the candidates are sorted by last use, and the evicted ones come first
    rw [hdata, OrdDict.keys_filterKeys, List.mem_filter, decide_eq_true_eq] at hkept
    obtain ⟨later, hlater⟩ := h.least
    have hsorted := hrecent.sorted.filter fun key => !cache.isPinned key
    change cache.unpinned.Pairwise _ at hsorted
    have hmem : kept ∈ cache.unpinned := List.mem_filter.mpr ⟨hkept.1, by simp [hpin]⟩
    rw [← hlater] at hmem hsorted
    exact (List.pairwise_append.mp hsorted).2.2 key hkey kept
      ((List.mem_append.mp hmem).resolve_left hkept.2)
  · have hover := h.needed fewer hfewer hne
    rw [(hacc.foldl_removeKey fewer).overCapacity_iff, LRUCache.keys_foldl_removeKey] at hover
    have hpins := @LRUCache.isPinned_foldl_removeKey _ _ _ _ cache fewer fun key hkey =>
      (hcandidate key (hfewer.subset hkey)).2
    rwa [funext hpins] at hover

/-- **The cache's accounting is exact in every reachable state.** After any run of
operations of a cache the constructor accepts: the running total is the summed weight of the
stored values; times, weights and pins are kept for stored keys only; the unpinned entries
and the total are within the bounds, or every entry is pinned; and whatever operation comes
next, the entries it evicts are unpinned ones, each used less recently than every unpinned
entry that stays, and evicting fewer of them would leave a bound broken. -/
theorem lru_exact {cfg : LRUConfig V Time} (hcfg : cfg.validate = .ok ()) {pinSlots : Finset K}
    {trace : UseTrace K V Time} (hrun : (UseTrace.machine cfg pinSlots).Reachable trace) :
    trace.cache.currentBytes = cfg.totalWeight trace.cache.data ∧
      ((∀ key ∈ trace.cache.timestamps.keys, key ∈ trace.cache.data.keys) ∧
        (∀ key ∈ trace.cache.sizes.keys, key ∈ trace.cache.data.keys) ∧
        ∀ key ∈ trace.cache.pinned, key ∈ trace.cache.data.keys) ∧
      ((((trace.cache.data.keys.filter fun key => !trace.cache.isPinned key).length : ℤ) ≤
        cfg.maxSize ∧
          ∀ maxBytes, cfg.maxBytes = some maxBytes → trace.cache.currentBytes ≤ maxBytes) ∨
        ∀ key ∈ trace.cache.data.keys, trace.cache.isPinned key = true) ∧
      ∀ op : LRUOp K V Time, ∃ evicted : List K,
        let before := op.unevicted cfg trace.cache
        let after := (trace.next cfg op).cache
        (op.evicts cfg = false → evicted = []) ∧
        after.data = before.data.filterKeys (fun key => key ∉ evicted) ∧
        (∀ key ∈ evicted, key ∈ before.data.keys ∧ before.isPinned key = false) ∧
        (∀ key ∈ evicted, ∀ kept ∈ after.data.keys, before.isPinned kept = false →
          (trace.next cfg op).lastUse key < (trace.next cfg op).lastUse kept) ∧
        ∀ fewer, fewer <+: evicted → fewer ≠ evicted →
          cfg.Exceeds before.isPinned (before.data.filterKeys fun key => key ∉ fewer) := by
  have h := UseTrace.Invariant.of_reachable hrun
  refine ⟨?_, ⟨h.accounted.timestamps, fun key hkey => ?_, h.accounted.pinned⟩, ?_, fun op => ?_⟩
  · rw [h.accounted.currentBytes]
    -- without a bound in bytes nothing is weighed
    rcases hbytes : cfg.maxBytes with _ | maxBytes
    · have hzero : cfg.weight = fun _ => 0 := funext (LRUConfig.weight_eq_zero hcfg hbytes)
      simp [LRUConfig.totalWeight, hzero]
    · rfl
  · obtain ⟨size, hsize⟩ := OrdDict.mem_keys_iff.mp hkey
    rw [h.accounted.sizes] at hsize
    split_ifs at hsize
    obtain ⟨value, hvalue, -⟩ := Option.map_eq_some_iff.mp hsize
    exact OrdDict.mem_keys_iff.mpr ⟨value, hvalue⟩
  · rcases h.settled with hover | hnone
    · left
      rw [LRUCache.overCapacity, Bool.or_eq_false_iff, decide_eq_false_iff_not, not_lt] at hover
      refine ⟨hover.1, fun maxBytes hmax => ?_⟩
      have hbytes := hover.2
      simp only [hmax, decide_eq_false_iff_not, not_lt] at hbytes
      exact hbytes
    · right
      intro key hkey
      by_contra hpin
      exact List.eq_nil_iff_forall_not_mem.mp hnone key
        (List.mem_filter.mpr ⟨hkey, by simpa using hpin⟩)
  · have hacc := LRUCache.accounted_unevicted h.accounted op
    have hrecent := UseTrace.recent_unevicted cfg h.recent op
    simp only [UseTrace.next, LRUOp.run_eq]
    -- an operation that cannot pass a bound evicts nothing
    rcases hevicts : op.evicts cfg with _ | _
    · refine ⟨[], fun _ => rfl, ?_, by simp, by simp, fun fewer hfewer hne => ?_⟩
      · exact OrdDict.ext (List.filter_eq_self.mpr fun _ _ => by simp).symm
      · exact absurd ( List.prefix_nil.mp hfewer) hne
    · obtain ⟨evicted, hev⟩ := LRUCache.evictIfOverCapacity_spec cfg (op.unevicted cfg trace.cache)
      exact ⟨evicted, by simp, hev.exact hacc hrecent⟩

end Operations

/-- One entry at most, ten bytes at most. -/
def lruSample : LRUConfig ℕ ℤ := ⟨1, none, some 10, some fun value => .ok (value : ℤ)⟩

/-- A cache for one entry, with its first value stored. -/
def storedHome : UseTrace String ℕ ℤ :=
  (UseTrace.start ∅).next lruSample (.put 0 "home" 5 none)

/-- The second value stored evicts the first, which was used before it. -/
theorem lru_exact_two_stores :
    storedHome.cache.currentBytes = lruSample.totalWeight storedHome.cache.data ∧
      let next := storedHome.next lruSample (.put 1 "motor" 7 none)
      next.cache.data.entries = [("motor", 7)] ∧ next.lastUse "home" < next.lastUse "motor" := by
  have hrun : (UseTrace.machine lruSample (∅ : Finset String)).Reachable storedHome :=
    ⟨[.put 0 "home" 5 none], Machine.run_ofFn_iff.mpr rfl⟩
  obtain ⟨hweight, -, -, hnext⟩ := lru_exact (by rfl) hrun
  obtain ⟨evicted, -, hdata, -, hleast, -⟩ := hnext (.put 1 "motor" 7 none)
  refine ⟨hweight, by decide, hleast "home" ?_ "motor" (by decide) (by decide)⟩
  -- what was stored and is there no more has been evicted
  by_contra hstays
  have hkept : "home" ∈ (storedHome.next lruSample (.put 1 "motor" 7 none)).cache.data.keys := by
    rw [hdata, OrdDict.keys_filterKeys]
    exact List.mem_filter.mpr ⟨by decide, decide_eq_true hstays⟩
  exact absurd hkept (by decide)

end Haute
