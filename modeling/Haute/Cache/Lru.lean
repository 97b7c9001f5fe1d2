import Haute.Data.OrdDict
import Haute.Data.Runs
import Haute.Json.Errors
import Mathlib.Data.Finset.Basic

/-!
# The bounded LRU cache

`LRUCache` keeps its entries in an ordered dictionary, least recently used first, beside
the bookkeeping each entry may have: the time it was stored, a pin, and the byte weight
measured when it was stored, with the running total of those weights. The bounds are on
the entries that are not pinned and on the total weight; a store that breaks one evicts
from the old end, skipping pins.

Each method here is one critical section of the lock. `put` has two: the value about to be
replaced is read in the first, the new value is measured with the lock dropped, and the
second stores it. `put` takes what the first read as `replacing`, so an operation of
another thread may come between; `putNow` is the two in a row. Clock readings are
arguments. A value is the reference the cache holds, so `is` is equality.
-/

namespace Haute

universe u

/-- What the constructor fixes. -/
structure LRUConfig (V Time : Type) where
  /-- `max_size`. -/
  maxSize : ℤ
  /-- `ttl`. -/
  ttl : Option Time
  /-- `max_bytes`. -/
  maxBytes : Option ℤ
  /-- `size_of`, which may raise. -/
  sizeOf : Option (V → Except PyError ℤ)

/-- What changes under the lock. -/
structure LRUCache (K V Time : Type) where
  /-- The entries, least recently used first. -/
  data : OrdDict K V
  /-- When each entry was stored; kept only with a `ttl`. -/
  timestamps : OrdDict K Time
  /-- The keys pinned while stored. -/
  pinned : Finset K
  /-- The keys protected whether stored or not. -/
  pinSlots : Finset K
  /-- The measured weight of each entry; kept only with `max_bytes`. -/
  sizes : OrdDict K ℤ
  /-- The running total of the weights. -/
  currentBytes : ℤ

variable {K V Time : Type} [DecidableEq K]

/-- The checks of `__init__`. -/
def LRUConfig.validate (cfg : LRUConfig V Time) : Except PyError Unit := do
  require (1 ≤ cfg.maxSize) (.value s!"max_size must be >= 1, got {cfg.maxSize}")
  match cfg.maxBytes, cfg.sizeOf with
  | some maxBytes, size =>
    require (1 ≤ maxBytes) (.value s!"max_bytes must be >= 1, got {maxBytes}")
    require size.isSome (.value "size_of is required when max_bytes is configured")
  | none, some _ => .error (.value "max_bytes is required when size_of is configured")
  | none, none => .ok ()

/-- `_measure`: the weight of a value when byte bounds are enabled. -/
def LRUConfig.measure (cfg : LRUConfig V Time) (value : V) : Except PyError ℤ :=
  match cfg.sizeOf with
  | none => .ok 0
  | some size => do
    let size ← size value
    require (0 ≤ size) (.value s!"size_of must return a non-negative int, got {size}")
    return size

namespace LRUCache

/-- The cache as `__init__` leaves it. -/
def new (pinSlots : Finset K) : LRUCache K V Time where
  data := .empty
  timestamps := .empty
  pinned := ∅
  pinSlots := pinSlots
  sizes := .empty
  currentBytes := 0

/-- `_is_pinned`. -/
def isPinned (cache : LRUCache K V Time) (key : K) : Bool :=
  decide (key ∈ cache.pinned) || decide (key ∈ cache.pinSlots)

/-- The keys that count against `max_size`, least recently used first. -/
def unpinned (cache : LRUCache K V Time) : List K :=
  cache.data.keys.filter fun key => !cache.isPinned key

/-- `_capacity_entry_count`. -/
def capacityEntryCount (cache : LRUCache K V Time) : ℕ := cache.unpinned.length

/-- `_remove_key`: the entry and all its bookkeeping. -/
def removeKey (cache : LRUCache K V Time) (key : K) : LRUCache K V Time where
  data := cache.data.erase key
  timestamps := cache.timestamps.erase key
  pinned := cache.pinned.erase key
  pinSlots := cache.pinSlots
  sizes := cache.sizes.erase key
  currentBytes := cache.currentBytes - (cache.sizes.get? key).getD 0

/-- The condition of the eviction loop. -/
def overCapacity (cfg : LRUConfig V Time) (cache : LRUCache K V Time) : Bool :=
  decide (cfg.maxSize < cache.capacityEntryCount) ||
    match cfg.maxBytes with
    | none => false
    | some maxBytes => decide (maxBytes < cache.currentBytes)

/-- The loop of `_evict_if_over_capacity`. Each turn but the last removes an entry, so as
many turns as there are entries are enough (`evictIfOverCapacity_settled`). -/
def evictLoop (cfg : LRUConfig V Time) : ℕ → LRUCache K V Time → LRUCache K V Time
  | 0, cache => cache
  | turns + 1, cache =>
    if cache.overCapacity cfg then
      match cache.unpinned.head? with
      | some candidate => evictLoop cfg turns (cache.removeKey candidate)
      | none => cache
    else cache

/-- `_evict_if_over_capacity`. -/
def evictIfOverCapacity (cfg : LRUConfig V Time) (cache : LRUCache K V Time) : LRUCache K V Time :=
  evictLoop cfg cache.data.keys.length cache

section Clock

variable [Zero Time] [Sub Time] [LT Time] [DecidableLT Time]

/-- Whether the entry at `key` has outlived the `ttl` at time `now`. -/
def isExpired (cfg : LRUConfig V Time) (now : Time) (cache : LRUCache K V Time) (key : K) : Bool :=
  match cfg.ttl with
  | none => false
  | some ttl => decide (ttl < now - (cache.timestamps.get? key).getD 0)

/-- `get`. -/
def get (cfg : LRUConfig V Time) (now : Time) (cache : LRUCache K V Time) (key : K) :
    LRUCache K V Time × Option V :=
  match cache.data.get? key with
  | none => (cache, none)
  | some value =>
    if cache.isExpired cfg now key then (cache.removeKey key, none)
    else ({ cache with data := cache.data.moveToEnd key }, some value)

/-- `peek`. -/
def peek (cfg : LRUConfig V Time) (now : Time) (cache : LRUCache K V Time) (key : K) : Option V :=
  match cache.data.get? key with
  | none => none
  | some value => if cache.isExpired cfg now key then none else some value

/-- `pop`. -/
def pop (cfg : LRUConfig V Time) (now : Time) (cache : LRUCache K V Time) (key : K) :
    LRUCache K V Time × Option V :=
  match cache.data.get? key with
  | none => (cache, none)
  | some value => (cache.removeKey key, if cache.isExpired cfg now key then none else some value)

end Clock

/-- The entry a `put` has written, before the bounds are enforced. -/
def stored (cfg : LRUConfig V Time) (now : Time) (cache : LRUCache K V Time) (key : K) (value : V)
    (size : ℤ) : LRUCache K V Time :=
  let present := decide (key ∈ cache.data.keys)
  let sizes := if present then cache.sizes.erase key else cache.sizes
  let bytes := if present then cache.currentBytes - (cache.sizes.get? key).getD 0
    else cache.currentBytes
  { cache with
    data := (if present then cache.data.moveToEnd key else cache.data).insert key value
    sizes := if cfg.maxBytes.isSome then sizes.insert key size else sizes
    currentBytes := if cfg.maxBytes.isSome then bytes + size else bytes
    timestamps := if cfg.ttl.isSome then cache.timestamps.insert key now else cache.timestamps }

/-- Whether a weight is above `max_bytes`. -/
def isOversized (cfg : LRUConfig V Time) (size : ℤ) : Bool :=
  match cfg.maxBytes with
  | none => false
  | some maxBytes => decide (maxBytes < size)

/-- The second section of `put`; `replacing` is what the first one read. A measure that
raises leaves the cache as it was. -/
def put [DecidableEq V] (cfg : LRUConfig V Time) (now : Time) (cache : LRUCache K V Time) (key : K)
    (value : V) (replacing : Option V) : LRUCache K V Time × Except PyError Bool :=
  match cfg.measure value with
  | .error e => (cache, .error e)
  | .ok size =>
    if isOversized cfg size then
      -- an entry another thread has stored since is not the one this call replaces
      if key ∈ cache.data.keys ∧ cache.data.get? key = replacing then
        (cache.removeKey key, .ok false)
      else (cache, .ok false)
    else
      let kept := (cache.stored cfg now key value size).evictIfOverCapacity cfg
      (kept, .ok (decide (key ∈ kept.data.keys)))

/-- `put` with nothing in between: the first section reads the entry only under a byte bound. -/
def putNow [DecidableEq V] (cfg : LRUConfig V Time) (now : Time) (cache : LRUCache K V Time)
    (key : K)
    (value : V) : LRUCache K V Time × Except PyError Bool :=
  cache.put cfg now key value (if cfg.maxBytes.isSome then cache.data.get? key else none)

/-- `pin`. -/
def pin (cache : LRUCache K V Time) (key : K) : LRUCache K V Time :=
  if key ∈ cache.data.keys then { cache with pinned := insert key cache.pinned } else cache

/-- `unpin`. -/
def unpin (cfg : LRUConfig V Time) (cache : LRUCache K V Time) (key : K) : LRUCache K V Time :=
  ({ cache with
    pinned := cache.pinned.erase key
    pinSlots := cache.pinSlots.erase key } : LRUCache K V Time).evictIfOverCapacity cfg

/-- `clear`; the slots are policy and stay. -/
def clear (cache : LRUCache K V Time) : LRUCache K V Time :=
  { cache with
    data := .empty
    timestamps := .empty
    pinned := ∅
    sizes := .empty
    currentBytes := 0 }

/-- `evict_where`, with the values of the evicted entries. -/
def evictWhere (cache : LRUCache K V Time) (predicate : K → Bool) : LRUCache K V Time × List V :=
  let evicted := cache.data.entries.filter fun entry => predicate entry.1
  (evicted.foldl (fun cache entry => cache.removeKey entry.1) cache, evicted.map Prod.snd)

end LRUCache

/-- One operation of one thread, with the clock it reads. -/
inductive LRUOp (K V Time : Type) where
  | get (now : Time) (key : K)
  | peek (now : Time) (key : K)
  | pop (now : Time) (key : K)
  | put (now : Time) (key : K) (value : V) (replacing : Option V)
  | pin (key : K)
  | unpin (key : K)
  | clear
  | evictWhere (predicate : K → Bool)

variable [DecidableEq V] [Zero Time] [Sub Time] [LT Time] [DecidableLT Time]

/-- The cache an operation leaves. -/
def LRUOp.run (cfg : LRUConfig V Time) (cache : LRUCache K V Time) : LRUOp K V Time →
    LRUCache K V Time
  | .get now key => (cache.get cfg now key).1
  | .peek _ _ => cache
  | .pop now key => (cache.pop cfg now key).1
  | .put now key value replacing => (cache.put cfg now key value replacing).1
  | .pin key => cache.pin key
  | .unpin key => cache.unpin cfg key
  | .clear => cache.clear
  | .evictWhere predicate => (cache.evictWhere predicate).1

end Haute
