import Haute.Path.Grammar

/-!
# Levels

A *level* is an array prefix: a path's segments through its last array, object hops
included. `arrayPrefix` cuts a path there and `ownPart` is the object hops after it, so the
two give the path back (`arrayPrefix_append_ownPart`), and a level followed by object hops
is cut exactly at the level (`arrayPrefix_append`). Levels nest by segment prefix:
`ancestorLevels` lists a level and everything above it, root first.
-/

namespace Haute

/-- A position of the document: the segments through an array. -/
abbrev Level := List Seg

/-- The relational depth: the number of array hops. -/
def arrayDepth (segments : List Seg) : ℕ := segments.countP Seg.isArray

/-- The segments through the last array. -/
def arrayPrefix : List Seg → Level
  | [] => []
  | seg :: rest => if (arrayPrefix rest).isEmpty && !seg.isArray then []
    else seg :: arrayPrefix rest

/-- The segments after the last array. -/
def ownPart (segments : List Seg) : List Seg := segments.drop (arrayPrefix segments).length

/-- The object hops as segments. -/
def objectHops (keys : List String) : List Seg := keys.map fun key => ⟨key, false⟩

/-- A level is the root or ends at an array. -/
def IsLevel (level : Level) : Prop := ∀ seg ∈ level.getLast?, seg.isArray = true

/-- `level` and every level above it, root first. -/
def ancestorLevels (level : Level) : List Level :=
  [] :: (level.inits.tail.filter fun pre => (pre.getLast?.map Seg.isArray) = some true)

/-- The level a non-root `level` nests directly under. -/
def parentLevel (level : Level) : Level := (ancestorLevels level).dropLast.getLastD []

/-- Where a child level's array sits in a parent object: its object hops, then its key. -/
def childHop (parent child : Level) : List String := (child.drop parent.length).map Seg.name

@[simp] theorem arrayDepth_nil : arrayDepth [] = 0 := rfl

@[simp] theorem arrayDepth_append (xs ys : List Seg) :
    arrayDepth (xs ++ ys) = arrayDepth xs + arrayDepth ys := List.countP_append

@[simp] theorem arrayDepth_objectHops (keys : List String) : arrayDepth (objectHops keys) = 0 := by
  simp [arrayDepth, objectHops, List.countP_eq_zero]

@[simp] theorem isLevel_nil : IsLevel [] := by simp [IsLevel]

@[simp] theorem isLevel_concat (level : Level) (seg : Seg) :
    IsLevel (level ++ [seg]) ↔ seg.isArray = true := by simp [IsLevel]

/-- The array prefix of a path begins it. -/
theorem arrayPrefix_isPrefix_of (segments : List Seg) : arrayPrefix segments <+: segments := by
  induction segments with
  | nil => exact List.prefix_rfl
  | cons seg rest ih =>
    rw [arrayPrefix]
    split_ifs
    · exact List.nil_prefix
    · exact (List.prefix_cons_inj seg).mpr ih

/-- A path is its array prefix and its own part. -/
theorem arrayPrefix_append_ownPart (segments : List Seg) :
    arrayPrefix segments ++ ownPart segments = segments :=
  List.prefix_iff_eq_append.mp (arrayPrefix_isPrefix_of segments)

/-- What follows the last array is object hops. -/
theorem isArray_of_mem_ownPart {segments : List Seg} {seg : Seg} (h : seg ∈ ownPart segments) :
    seg.isArray = false := by
  induction segments with
  | nil => simp [ownPart] at h
  | cons first rest ih =>
    by_cases hc : ((arrayPrefix rest).isEmpty && !first.isArray) = true
    · obtain ⟨hempty, hfirst⟩ : arrayPrefix rest = [] ∧ first.isArray = false := by
        simpa using hc
      have hown : ownPart (first :: rest) = first :: ownPart rest := by
        simp [ownPart, arrayPrefix, hempty, hfirst]
      rw [hown] at h
      rcases List.mem_cons.mp h with rfl | h
      · exact hfirst
      · exact ih h
    · have hown : ownPart (first :: rest) = ownPart rest := by
        simp [ownPart, arrayPrefix, hc]
      exact ih (hown ▸ h)

/-- The own part of a path crosses no array. -/
theorem objectHops_ownPart (segments : List Seg) :
    objectHops ((ownPart segments).map Seg.name) = ownPart segments := by
  rw [objectHops, List.map_map]
  conv_rhs => rw [← List.map_id (ownPart segments)]
  refine List.map_congr_left fun seg hseg => ?_
  exact Seg.ext rfl (isArray_of_mem_ownPart hseg).symm

/-- The array prefix of a path is a level. -/
theorem isLevel_arrayPrefix (segments : List Seg) : IsLevel (arrayPrefix segments) := by
  induction segments with
  | nil => simp [arrayPrefix]
  | cons seg rest ih =>
    rw [arrayPrefix]
    split_ifs with hc
    · exact isLevel_nil
    · intro last hlast
      cases hrest : arrayPrefix rest with
      | nil =>
        simp only [hrest, List.isEmpty_nil, Bool.true_and, Bool.not_eq_true'] at hc
        obtain rfl : seg = last := by simpa [hrest] using hlast
        simpa using hc
      | cons r rs =>
        refine ih last ?_
        simpa [hrest, List.getLast?_cons_cons] using hlast

/-- A level followed by object hops is cut exactly at the level. -/
theorem arrayPrefix_append {level hops : List Seg} (hlevel : IsLevel level)
    (hhops : ∀ seg ∈ hops, seg.isArray = false) : arrayPrefix (level ++ hops) = level := by
  induction level with
  | nil =>
    induction hops with
    | nil => rfl
    | cons seg hops ih =>
      have hrest := ih fun s hs => hhops s (List.mem_cons_of_mem _ hs)
      simp only [List.nil_append] at hrest ⊢
      simp [arrayPrefix, hrest, hhops seg List.mem_cons_self]
  | cons seg level ih =>
    have hlevel' : IsLevel level := by
      intro last hlast
      refine hlevel last ?_
      cases level with
      | nil => simp at hlast
      | cons r rs => simpa [List.getLast?_cons_cons] using hlast
    rw [List.cons_append, arrayPrefix, ih hlevel']
    cases level with
    | nil =>
      have : seg.isArray = true := hlevel seg (by simp)
      simp [this]
    | cons r rs => simp

/-- The own part of a level with object hops behind it is those hops. -/
theorem ownPart_append {level hops : List Seg} (hlevel : IsLevel level)
    (hhops : ∀ seg ∈ hops, seg.isArray = false) : ownPart (level ++ hops) = hops := by
  rw [ownPart, arrayPrefix_append hlevel hhops, List.drop_left]

/-- A level is its own array prefix. -/
theorem arrayPrefix_eq_self {level : Level} (h : IsLevel level) : arrayPrefix level = level := by
  simpa using @arrayPrefix_append level [] h (by simp)

theorem isArray_of_mem_objectHops {keys : List String} {seg : Seg} (h : seg ∈ objectHops keys) :
    seg.isArray = false := by
  obtain ⟨key, -, rfl⟩ := List.mem_map.mp h
  rfl

/-! ### The order of levels -/

/-- A segment as the tuple Python compares. -/
def Seg.key (seg : Seg) : String ×ₗ Bool := toLex (seg.name, seg.isArray)

/-- A segment is determined by its key. -/
theorem Seg.key_injective : Function.Injective Seg.key := fun s t h => by
  have hpair := toLex.injective h
  exact Seg.ext (congrArg Prod.fst hpair) (congrArg Prod.snd hpair)

/-- Segments compare by name, then an object hop before an array; levels, being lists of
segments, compare lexicographically. -/
instance : LinearOrder Seg := LinearOrder.lift' Seg.key Seg.key_injective

/-- `sorted` on levels. -/
def sortLevels (levels : List Level) : List Level := levels.insertionSort (· ≤ ·)

@[simp] theorem mem_sortLevels {levels : List Level} {level : Level} :
    level ∈ sortLevels levels ↔ level ∈ levels := List.mem_insertionSort _

/-- Sorted levels are in order. -/
theorem pairwise_sortLevels (levels : List Level) : (sortLevels levels).Pairwise (· ≤ ·) :=
  List.pairwise_insertionSort _ _

/-- A prefix comes no later than what extends it. -/
theorem le_of_prefixes {a b : Level} (h : a <+: b) : a ≤ b := by
  obtain ⟨rest, rfl⟩ := h
  refine not_lt.mp fun hlt => ?_
  induction a with
  | nil => exact absurd hlt (by intro h; cases h)
  | cons seg a ih =>
    cases hlt with
    | rel h => exact lt_irrefl _ h
    | cons h => exact ih h

/-- Of two comparable levels the smaller is a prefix of the greater. -/
theorem prefix_of_le {a b : Level} (hle : a ≤ b) (h : b <+: a ∨ a <+: b) : a <+: b := by
  rcases h with h | h
  · rw [le_antisymm hle (le_of_prefixes h)]
  · exact h

/-! ### The levels above a level -/

@[simp] theorem ancestorLevels_nil : ancestorLevels [] = [[]] := rfl

/-- One more segment adds a level if it is an array. -/
theorem ancestorLevels_concat (segments : List Seg) (seg : Seg) :
    ancestorLevels (segments ++ [seg])
      = ancestorLevels segments ++ if seg.isArray then [segments ++ [seg]] else [] := by
  have htail : (segments ++ [seg]).inits.tail = segments.inits.tail ++ [segments ++ [seg]] := by
    rw [List.inits_append]
    cases h : segments.inits with
    | nil => exact absurd (congrArg List.length h) (by simp)
    | cons x xs => simp
  rw [ancestorLevels, ancestorLevels, htail, List.filter_append]
  cases hseg : seg.isArray <;> simp [hseg]

/-- One more segment moves the array prefix if it is an array. -/
theorem arrayPrefix_concat (segments : List Seg) (seg : Seg) :
    arrayPrefix (segments ++ [seg])
      = if seg.isArray then segments ++ [seg] else arrayPrefix segments := by
  split_ifs with h
  · exact arrayPrefix_eq_self (by simpa using h)
  · have hhops : ∀ s ∈ ownPart segments ++ [seg], s.isArray = false := by
      intro s hs
      rcases List.mem_append.mp hs with hs | hs
      · exact isArray_of_mem_ownPart hs
      · simpa [List.mem_singleton.mp hs] using h
    have hsplit : segments ++ [seg]
        = arrayPrefix segments ++ (ownPart segments ++ [seg]) := by
      rw [← List.append_assoc, arrayPrefix_append_ownPart]
    rw [hsplit, arrayPrefix_append (isLevel_arrayPrefix segments) hhops]

/-- The nearest of the levels above a path is its array prefix. -/
theorem getLast?_ancestorLevels (segments : List Seg) :
    (ancestorLevels segments).getLast? = some (arrayPrefix segments) := by
  induction segments using List.reverseRecOn with
  | nil => rfl
  | append_singleton segments seg ih =>
    rw [ancestorLevels_concat, arrayPrefix_concat]
    split_ifs with h
    · simp
    · simpa using ih

/-- The levels above: the prefixes that are levels. -/
theorem mem_ancestorLevels {level pre : Level} :
    pre ∈ ancestorLevels level ↔ pre <+: level ∧ IsLevel pre := by
  induction level using List.reverseRecOn with
  | nil => simp +contextual [ancestorLevels, List.prefix_nil]
  | append_singleton level seg ih =>
    rw [ancestorLevels_concat, List.mem_append, ih, List.prefix_concat_iff]
    cases hseg : seg.isArray with
    | true =>
      simp only [if_true, List.mem_singleton]
      constructor
      · rintro (⟨hp, hl⟩ | rfl)
        · exact ⟨Or.inr hp, hl⟩
        · exact ⟨Or.inl rfl, by simpa using hseg⟩
      · rintro ⟨rfl | hp, hl⟩
        · exact Or.inr rfl
        · exact Or.inl ⟨hp, hl⟩
    | false =>
      simp only [Bool.false_eq_true, if_false, List.not_mem_nil, or_false]
      constructor
      · exact fun ⟨hp, hl⟩ => ⟨Or.inr hp, hl⟩
      · rintro ⟨rfl | hp, hl⟩
        · simp [hseg] at hl
        · exact ⟨hp, hl⟩

/-- The levels strictly above a level are shorter. -/
theorem mem_dropLast_ancestorLevels {level pre : Level} (hlevel : IsLevel level)
    (h : pre ∈ (ancestorLevels level).dropLast) : pre <+: level ∧ pre.length < level.length := by
  induction level using List.reverseRecOn with
  | nil => simp at h
  | append_singleton segments seg =>
    rw [ancestorLevels_concat, if_pos (by simpa using hlevel), List.dropLast_concat] at h
    have hpre := (mem_ancestorLevels.mp h).1
    refine ⟨hpre.trans (List.prefix_append _ _), ?_⟩
    have := hpre.length_le
    rw [List.length_append, List.length_singleton]
    omega

/-- The parent of a level is the array prefix of what is above its own array. -/
theorem parentLevel_concat {segments : List Seg} {seg : Seg} (h : seg.isArray = true) :
    parentLevel (segments ++ [seg]) = arrayPrefix segments := by
  rw [parentLevel, ancestorLevels_concat, if_pos h, List.dropLast_concat,
    List.getLastD_eq_getLast?, getLast?_ancestorLevels]
  rfl

/-- A non-root level is its parent, object hops, and its own array. -/
theorem eq_parentLevel_append {level : Level} (h : IsLevel level) (hne : level ≠ []) :
    ∃ (keys : List String) (key : String),
      level = parentLevel level ++ objectHops keys ++ [⟨key, true⟩] := by
  obtain ⟨segments, seg, rfl⟩ : ∃ segments seg, level = segments ++ [seg] :=
    ⟨level.dropLast, level.getLast hne, (List.dropLast_concat_getLast hne).symm⟩
  have hseg : seg.isArray = true := by simpa using h
  refine ⟨(ownPart segments).map Seg.name, seg.name, ?_⟩
  rw [parentLevel_concat hseg, objectHops_ownPart, arrayPrefix_append_ownPart]
  rw [show (⟨seg.name, true⟩ : Seg) = seg from Seg.ext rfl hseg.symm]

/-- The parent of a level is a level. -/
theorem isLevel_parentLevel {level : Level} (h : IsLevel level) (hne : level ≠ []) :
    IsLevel (parentLevel level) := by
  obtain ⟨segments, seg, rfl⟩ : ∃ segments seg, level = segments ++ [seg] :=
    ⟨level.dropLast, level.getLast hne, (List.dropLast_concat_getLast hne).symm⟩
  rw [parentLevel_concat (by simpa using h)]
  exact isLevel_arrayPrefix segments

/-- The parent of a level is shorter. -/
theorem length_parentLevel_lt {level : Level} (h : IsLevel level) (hne : level ≠ []) :
    (parentLevel level).length < level.length := by
  obtain ⟨keys, key, heq⟩ := eq_parentLevel_append h hne
  have := congrArg List.length heq
  simp only [List.length_append, List.length_singleton] at this
  omega

/-- The parent of a level begins it. -/
theorem parentLevel_prefixes {level : Level} (h : IsLevel level) (hne : level ≠ []) :
    parentLevel level <+: level := by
  obtain ⟨keys, key, heq⟩ := eq_parentLevel_append h hne
  exact ⟨objectHops keys ++ [⟨key, true⟩], by rw [← List.append_assoc, ← heq]⟩

/-- A level strictly above another is above or at its parent. -/
theorem prefix_parentLevel {level deep : Level} (hlevel : IsLevel level) (hdeep : IsLevel deep)
    (hpre : level <+: deep) (hne : level ≠ deep) : level <+: parentLevel deep := by
  have hroot : deep ≠ [] := by
    rintro rfl
    exact hne (List.prefix_nil.mp hpre)
  obtain ⟨keys, key, heq⟩ := eq_parentLevel_append hdeep hroot
  have hshort : level <+: parentLevel deep ++ objectHops keys := by
    rw [heq, List.prefix_concat_iff] at hpre
    exact hpre.resolve_left fun e => hne (e.trans heq.symm)
  rcases Nat.le_total level.length (parentLevel deep).length with hlen | hlen
  · exact List.prefix_of_prefix_length_le hshort (List.prefix_append _ _) hlen
  · obtain ⟨hops, rfl⟩ := List.prefix_of_prefix_length_le (List.prefix_append _ _) hshort hlen
    have hhops : ∀ seg ∈ hops, seg.isArray = false := fun seg hseg =>
      isArray_of_mem_objectHops (((List.prefix_append_right_inj _).mp hshort).subset hseg)
    have hpre := arrayPrefix_append (isLevel_parentLevel hdeep hroot) hhops
    rw [arrayPrefix_eq_self hlevel] at hpre
    rw [hpre]

end Haute
