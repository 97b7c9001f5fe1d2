import Haute.Data.Grouping

/-!
# Nested dictionaries built by path writes

A type of nested dictionaries is one some of whose values are dictionaries of its values.
`setNested` writes a value at a path of keys, creating the dictionaries on the way, and
`read?` reads one back.

Two paths *diverge* when neither is a prefix of the other. Writes at pairwise diverging
paths never disturb each other (`read?_writeAll`), and the object they build is determined
key by key (`keys_writeAll`, `get?_writeAll`): its keys are the first keys of the paths in
order of first use, and below a key stands what was written there, or the object the
writes below that key build on their own.
-/

/-- Some values of `τ` are dictionaries of values of `τ`. -/
class NestedDict (κ : outParam Type*) (τ : Type*) where
  /-- The value that is this dictionary. -/
  dict : List (κ × τ) → τ
  /-- The dictionary a value is, if it is one. -/
  dict? : τ → Option (List (κ × τ))
  dict?_dict : ∀ fs, dict? (dict fs) = some fs

namespace NestedDict

variable {κ τ : Type*} [DecidableEq κ] [NestedDict κ τ]

attribute [simp] dict?_dict

/-- Write `v` at a path, creating the dictionaries on the way. -/
def setNested : List (κ × τ) → List κ → τ → List (κ × τ)
  | fs, [], _ => fs
  | fs, [k], v => Assoc.set fs k v
  | fs, k :: k' :: ks, v =>
    Assoc.set fs k (dict (setNested (((Assoc.get? fs k).bind dict?).getD []) (k' :: ks) v))

/-- The value at a path. -/
def read? : τ → List κ → Option τ
  | v, [] => some v
  | v, k :: ks => ((dict? v).bind (Assoc.get? · k)).bind (read? · ks)

/-- Writes in order, starting from the empty dictionary. -/
def writeAll (writes : List (List κ × τ)) : List (κ × τ) :=
  writes.foldl (fun fs w => setNested fs w.1 w.2) []

/-- Neither path is a prefix of the other. -/
def Diverge (ks js : List κ) : Prop := ¬ ks <+: js ∧ ¬ js <+: ks

/-! ### One write -/

omit [DecidableEq κ] [NestedDict κ τ] in
theorem Diverge.symm {ks js : List κ} (h : Diverge ks js) : Diverge js ks := ⟨h.2, h.1⟩

omit [DecidableEq κ] [NestedDict κ τ] in
theorem diverge_cons {k : κ} {ks js : List κ} : Diverge (k :: ks) (k :: js) ↔ Diverge ks js := by
  simp [Diverge]

@[simp] theorem read?_nil (v : τ) : read? v ([] : List κ) = some v := by rw [read?]

theorem read?_dict_cons (fs : List (κ × τ)) (k : κ) (ks : List κ) :
    read? (dict fs : τ) (k :: ks) = (Assoc.get? fs k).bind (read? · ks) := by
  rw [read?, dict?_dict, Option.bind_some]

/-- What was written is read back. -/
theorem read?_setNested_self (fs : List (κ × τ)) {ks : List κ} (hne : ks ≠ []) (v : τ) :
    read? (dict (setNested fs ks v)) ks = some v := by
  induction fs, ks, v using setNested.induct with
  | case1 => exact absurd rfl hne
  | case2 fs k v => simp [setNested, read?_dict_cons]
  | case3 fs k k' ks v ih =>
    rw [setNested, read?_dict_cons, Assoc.get?_set_self, Option.bind_some]
    exact ih (by simp)

/-- Reading a path below a value that is no dictionary finds nothing. -/
private theorem read?_getD (fs : List (κ × τ)) (k : κ) {js : List κ} (hne : js ≠ []) :
    (Assoc.get? fs k).bind (read? · js)
      = read? (dict (((Assoc.get? fs k).bind dict?).getD []) : τ) js := by
  obtain ⟨j, js, rfl⟩ := List.exists_cons_of_ne_nil hne
  rcases Assoc.get? fs k with _ | w
  · simp [read?_dict_cons]
  · rcases hw : dict? w with _ | gs
    · simp [read?, hw]
    · simp [read?, hw]

/-- A write leaves every diverging path as it was. -/
theorem read?_setNested_of_diverge (fs : List (κ × τ)) {ks js : List κ} (h : Diverge ks js)
    (v : τ) : read? (dict (setNested fs ks v) : τ) js = read? (dict fs) js := by
  obtain ⟨j, js, rfl⟩ : ∃ j l, js = j :: l :=
    List.exists_cons_of_ne_nil fun e => h.2 (e ▸ List.nil_prefix)
  induction fs, ks, v using setNested.induct generalizing j js with
  | case1 => exact absurd List.nil_prefix h.1
  | case2 fs k v =>
    have hj : j ≠ k := fun e => h.1 (by simp [e])
    rw [setNested, read?_dict_cons, read?_dict_cons, Assoc.get?_set_ne hj]
  | case3 fs k k' ks v ih =>
    rw [setNested, read?_dict_cons, read?_dict_cons]
    by_cases hj : j = k
    · subst hj
      have hd := diverge_cons.mp h
      obtain ⟨i, is, rfl⟩ : ∃ i l, js = i :: l :=
        List.exists_cons_of_ne_nil fun e => hd.2 (e ▸ List.nil_prefix)
      rw [Assoc.get?_set_self, Option.bind_some, ih i is hd, read?_getD fs j (by simp)]
    · rw [Assoc.get?_set_ne hj]

/-- A proper prefix of a path written reads a dictionary. -/
theorem read?_setNested_above (fs : List (κ × τ)) {ks js : List κ} (h : js <+: ks)
    (hne : js ≠ ks) (v : τ) : ∃ gs, read? (dict (setNested fs ks v) : τ) js = some (dict gs) := by
  induction fs, ks, v using setNested.induct generalizing js with
  | case1 => exact absurd (List.prefix_nil.mp h) hne
  | case2 fs k v =>
    rcases js with _ | ⟨j, js⟩
    · exact ⟨_, read?_nil _⟩
    · obtain ⟨rfl, hjs⟩ := List.cons_prefix_cons.mp h
      exact absurd (by rw [List.prefix_nil.mp hjs]) hne
  | case3 fs k k' ks v ih =>
    rcases js with _ | ⟨j, js⟩
    · exact ⟨_, read?_nil _⟩
    · obtain ⟨rfl, hjs⟩ := List.cons_prefix_cons.mp h
      rw [setNested, read?_dict_cons, Assoc.get?_set_self, Option.bind_some]
      exact ih hjs fun e => hne (by rw [e])

/-! ### Writes at diverging paths -/

theorem writeAll_concat (writes : List (List κ × τ)) (w : List κ × τ) :
    writeAll (writes ++ [w]) = setNested (writeAll writes) w.1 w.2 := by
  simp [writeAll]

/-- Writes leave a path that diverges from all of theirs empty. -/
theorem read?_writeAll_of_diverge {writes : List (List κ × τ)} {js : List κ} (hne : js ≠ [])
    (h : ∀ w ∈ writes, Diverge w.1 js) : read? (dict (writeAll writes) : τ) js = none := by
  induction writes using List.reverseRecOn with
  | nil =>
    obtain ⟨j, js, rfl⟩ := List.exists_cons_of_ne_nil hne
    simp [writeAll, read?_dict_cons]
  | append_singleton writes w ih =>
    rw [writeAll_concat, read?_setNested_of_diverge _ (h w (by simp)),
      ih fun u hu => h u (by simp [hu])]

/-- A path no write reaches, except on the way to a longer one, reads at most a
dictionary. -/
theorem read?_writeAll_of_apart {writes : List (List κ × τ)} {js : List κ}
    (h : ∀ w ∈ writes, ¬ w.1 <+: js) {v : τ}
    (hv : read? (dict (writeAll writes) : τ) js = some v) : ∃ gs, v = dict gs := by
  induction writes using List.reverseRecOn generalizing v with
  | nil =>
    rcases js with _ | ⟨j, js⟩
    · exact ⟨[], by simpa [writeAll] using hv.symm⟩
    · simp [writeAll, read?_dict_cons] at hv
  | append_singleton writes w ih =>
    have hw := h w (by simp)
    rw [writeAll_concat] at hv
    by_cases hp : js <+: w.1
    · obtain ⟨gs, hgs⟩ := read?_setNested_above (writeAll writes) hp
        (fun e => hw (e ▸ List.prefix_rfl)) w.2
      exact ⟨gs, by rw [hgs] at hv; exact (Option.some.inj hv).symm⟩
    · rw [read?_setNested_of_diverge _ ⟨hw, hp⟩] at hv
      exact ih (fun u hu => h u (by simp [hu])) hv

/-- **Diverging writes do not disturb each other**: each is read back at the end. -/
theorem read?_writeAll {writes : List (List κ × τ)} (hne : ∀ w ∈ writes, w.1 ≠ [])
    (h : writes.Pairwise fun w u => Diverge w.1 u.1) {w : List κ × τ} (hw : w ∈ writes) :
    read? (dict (writeAll writes)) w.1 = some w.2 := by
  induction writes using List.reverseRecOn with
  | nil => simp at hw
  | append_singleton writes u ih =>
    obtain ⟨hpre, -, hlast⟩ := List.pairwise_append.mp h
    rw [writeAll_concat]
    rcases List.mem_append.mp hw with hw | hw
    · have hd : Diverge u.1 w.1 := (hlast w hw u (by simp)).symm
      rw [read?_setNested_of_diverge _ hd]
      exact ih (fun x hx => hne x (by simp [hx])) hpre hw
    · obtain rfl := List.mem_singleton.mp hw
      exact read?_setNested_self _ (hne w (by simp)) _

/-! ### The object writes build -/

/-- The writes below `k`, with their paths from there. -/
def below (k : κ) (writes : List (List κ × τ)) : List (List κ × τ) :=
  writes.filterMap fun w =>
    match w.1 with
    | [] => none
    | k' :: ks => if k' = k then some (ks, w.2) else none

omit [NestedDict κ τ] in
theorem mem_below {k : κ} {ks : List κ} {v : τ} {writes : List (List κ × τ)} :
    (ks, v) ∈ below k writes ↔ (k :: ks, v) ∈ writes := by
  rw [below, List.mem_filterMap]
  constructor
  · rintro ⟨⟨path, u⟩, hmem, hw⟩
    rcases path with _ | ⟨k', path⟩
    · simp at hw
    · simp only at hw
      split_ifs at hw with hk
      obtain ⟨rfl, rfl⟩ : path = ks ∧ u = v := by simpa using hw
      exact hk ▸ hmem
  · exact fun h => ⟨(k :: ks, v), h, by simp⟩

omit [NestedDict κ τ] in
theorem below_append (k : κ) (writes more : List (List κ × τ)) :
    below k (writes ++ more) = below k writes ++ below k more := List.filterMap_append

omit [NestedDict κ τ] in
/-- The writes below a key diverge when all do. -/
theorem pairwise_below {writes : List (List κ × τ)}
    (h : writes.Pairwise fun w u => Diverge w.1 u.1) (k : κ) :
    (below k writes).Pairwise fun w u => Diverge w.1 u.1 := by
  refine List.Pairwise.filterMap _ (fun w u hwu => ?_) h
  rintro ⟨ks, v⟩ hks ⟨js, v'⟩ hjs
  rcases hw : w.1 with _ | ⟨k', path⟩
  · simp [hw] at hks
  · rcases hu : u.1 with _ | ⟨k'', path'⟩
    · simp [hu] at hjs
    · simp only [hw] at hks
      simp only [hu] at hjs
      split_ifs at hks with h₁
      split_ifs at hjs with h₂
      obtain ⟨rfl, -⟩ : path = ks ∧ w.2 = v := by simpa using hks
      obtain ⟨rfl, -⟩ : path' = js ∧ u.2 = v' := by simpa using hjs
      rw [hw, hu, h₁, h₂] at hwu
      exact diverge_cons.mp hwu

/-- **The keys of the object writes build**: the first keys of the paths, in order of first
use. -/
theorem keys_writeAll {writes : List (List κ × τ)} (hne : ∀ w ∈ writes, w.1 ≠ []) :
    Assoc.keys (writeAll writes)
      = Grouping.firstsBy id (writes.filterMap fun w => w.1.head?) := by
  induction writes using List.reverseRecOn with
  | nil => rfl
  | append_singleton writes w ih =>
    have ih := ih fun u hu => hne u (by simp [hu])
    obtain ⟨k, ks, hw⟩ := List.exists_cons_of_ne_nil (hne w (by simp))
    have hkeys : Assoc.keys (writeAll (writes ++ [w]))
        = if k ∈ Assoc.keys (writeAll writes) then Assoc.keys (writeAll writes)
          else Assoc.keys (writeAll writes) ++ [k] := by
      rw [writeAll_concat, hw]
      cases ks with
      | nil => rw [setNested, Assoc.keys_set]
      | cons k' ks => rw [setNested, Assoc.keys_set]
    have hhead : ([w].filterMap fun w => w.1.head?) = [k] := by simp [hw]
    have hmem : k ∈ Grouping.firstsBy id (writes.filterMap fun w => w.1.head?)
        ↔ k ∈ writes.filterMap fun w => w.1.head? := by
      simpa using @Grouping.mem_map_firstsBy _ _ _ id (writes.filterMap fun w => w.1.head?) k
    rw [hkeys, List.filterMap_append, hhead, Grouping.firstsBy_append, ih,
      if_congr hmem rfl rfl]
    split_ifs with h
    · simp [Grouping.firstsBy, h]
    · simp [Grouping.firstsBy, h]

theorem nodup_keys_writeAll {writes : List (List κ × τ)} (hne : ∀ w ∈ writes, w.1 ≠ []) :
    (Assoc.keys (writeAll writes)).Nodup := by
  rw [keys_writeAll hne]
  simpa using Grouping.nodup_map_firstsBy id (writes.filterMap fun w => w.1.head?)

/-- **What stands below a key**: the value written there, or the object the writes below it
build. -/
theorem get?_writeAll {writes : List (List κ × τ)} (hne : ∀ w ∈ writes, w.1 ≠ [])
    (h : writes.Pairwise fun w u => Diverge w.1 u.1) (k : κ) :
    (∃ v, ([k], v) ∈ writes ∧ Assoc.get? (writeAll writes) k = some v) ∨
    (∃ w ∈ below k writes, w.1 ≠ []) ∧ (∀ w ∈ below k writes, w.1 ≠ []) ∧
      Assoc.get? (writeAll writes) k = some (dict (writeAll (below k writes))) ∨
    below k writes = [] ∧ Assoc.get? (writeAll writes) k = none := by
  induction writes using List.reverseRecOn with
  | nil => exact Or.inr (Or.inr ⟨rfl, rfl⟩)
  | append_singleton writes w ih =>
    obtain ⟨hpre, -, hlast⟩ := List.pairwise_append.mp h
    have ih := ih (fun u hu => hne u (by simp [hu])) hpre
    have hdiv : ∀ u ∈ writes, Diverge u.1 w.1 := fun u hu => hlast u hu w (by simp)
    obtain ⟨k', ks, hw⟩ := List.exists_cons_of_ne_nil (hne w (by simp))
    rw [writeAll_concat, below_append]
    -- the last write goes to `k` or below it, or elsewhere and changes nothing at `k`
    by_cases hk : k' = k
    · subst hk
      have hbelow : below k' [w] = [(ks, w.2)] := by simp [below, hw]
      rw [hbelow]
      cases ks with
      | nil =>
        exact Or.inl ⟨w.2, by simp [← hw], by rw [hw, setNested, Assoc.get?_set_self]⟩
      | cons k'' ks =>
        rcases ih with ⟨v, hv, -⟩ | ⟨-, hall, hget⟩ | ⟨hnil, hget⟩
        · refine absurd ?_ (hdiv _ hv).1
          rw [hw]
          simp
        · refine Or.inr (Or.inl ⟨⟨(k'' :: ks, w.2), by simp, by simp⟩, ?_, ?_⟩)
          · intro u hu
            rcases List.mem_append.mp hu with hu | hu
            · exact hall u hu
            · simp [List.mem_singleton.mp hu]
          · rw [hw, setNested, Assoc.get?_set_self, hget, Option.bind_some, dict?_dict,
              Option.getD_some, writeAll_concat]
        · refine Or.inr (Or.inl ⟨⟨(k'' :: ks, w.2), by simp, by simp⟩, ?_, ?_⟩)
          · intro u hu
            rw [hnil] at hu
            simp [List.mem_singleton.mp hu]
          · rw [hw, setNested, Assoc.get?_set_self, hget, hnil, writeAll_concat]
            rfl
    · have hbelow : below k [w] = [] := by simp [below, hw, hk]
      have hget : Assoc.get? (setNested (writeAll writes) w.1 w.2) k
          = Assoc.get? (writeAll writes) k := by
        rw [hw]
        cases ks with
        | nil => rw [setNested, Assoc.get?_set_ne (Ne.symm hk)]
        | cons k'' ks => rw [setNested, Assoc.get?_set_ne (Ne.symm hk)]
      rw [hbelow, List.append_nil, hget]
      rcases ih with ⟨v, hv, hget⟩ | ih
      · exact Or.inl ⟨v, by simp [hv], hget⟩
      · exact Or.inr ih

/-! ### Filling part of a skeleton

One sequence of writes lays out a skeleton, another fills part of it: its first writes are
all made, and of the rest, which come sorted, some are left out. Leaving them out moves no
key: the filled object's keys are some of the skeleton's, in its order, at every depth. -/

section Fills

variable {σ : Type*} [NestedDict κ σ]

/-- Two writes at one path, the second's value related to the first's. -/
def Fill (R : τ → σ → Prop) (w : List κ × τ) (u : List κ × σ) : Prop := w.1 = u.1 ∧ R w.2 u.2

/-- `us` makes the writes of `own`, and some of the sorted writes of `tail`. -/
structure Fills [PartialOrder κ] (R : τ → σ → Prop) (ws : List (List κ × τ))
    (us : List (List κ × σ)) : Prop where
  parts : ∃ own tail kept own' tail', ws = own ++ tail ∧ us = own' ++ tail' ∧
    List.Forall₂ (Fill R) own own' ∧ kept.Sublist tail ∧ List.Forall₂ (Fill R) kept tail' ∧
    tail.Pairwise fun w u => List.Lex (· < ·) w.1 u.1

omit [DecidableEq κ] [NestedDict κ τ] [NestedDict κ σ] in
private theorem map_fst_of_forall₂_fill {R : τ → σ → Prop} {ws : List (List κ × τ)}
    {us : List (List κ × σ)} (h : List.Forall₂ (Fill R) ws us) :
    us.map Prod.fst = ws.map Prod.fst := by
  induction h with
  | nil => rfl
  | cons h _ ih => rw [List.map_cons, List.map_cons, ih, h.1]

omit [NestedDict κ τ] [NestedDict κ σ] in
private theorem forall₂_below {R : τ → σ → Prop} {ws : List (List κ × τ)}
    {us : List (List κ × σ)} (h : List.Forall₂ (Fill R) ws us) (k : κ) :
    List.Forall₂ (Fill R) (below k ws) (below k us) := by
  induction h with
  | nil => exact List.Forall₂.nil
  | @cons w u ws us hwu _ ih =>
    obtain ⟨path, x⟩ := w
    obtain ⟨path', y⟩ := u
    obtain ⟨rfl, hR⟩ : path = path' ∧ R x y := hwu
    rcases path with _ | ⟨k', ks⟩
    · exact ih
    · by_cases hk : k' = k
      · simp only [below, List.filterMap_cons, hk, if_true]
        exact List.Forall₂.cons ⟨rfl, hR⟩ ih
      · simp only [below, List.filterMap_cons, hk, if_false]
        exact ih

variable [PartialOrder κ] {R : τ → σ → Prop} {ws : List (List κ × τ)} {us : List (List κ × σ)}

omit [DecidableEq κ] [NestedDict κ τ] [NestedDict κ σ] in
theorem Fills.paths_sublist (h : Fills R ws us) : (us.map Prod.fst).Sublist (ws.map Prod.fst) := by
  obtain ⟨own, tail, kept, own', tail', rfl, rfl, hown, hkept, htail, -⟩ := h.parts
  rw [List.map_append, List.map_append, map_fst_of_forall₂_fill hown, map_fst_of_forall₂_fill htail]
  exact (hkept.map Prod.fst).append_left _

omit [DecidableEq κ] [NestedDict κ τ] [NestedDict κ σ] in
/-- A write that is made fills one of the skeleton. -/
theorem Fills.exists_fill (h : Fills R ws us) {u : List κ × σ} (hu : u ∈ us) :
    ∃ w ∈ ws, w.1 = u.1 ∧ R w.2 u.2 := by
  obtain ⟨own, tail, kept, own', tail', rfl, rfl, hown, hkept, htail, -⟩ := h.parts
  rcases List.mem_append.mp hu with hu | hu
  · obtain ⟨w, hw, hfill⟩ := hown.exists_of_mem_right hu
    exact ⟨w, by simp [hw], hfill⟩
  · obtain ⟨w, hw, hfill⟩ := htail.exists_of_mem_right hu
    exact ⟨w, List.mem_append_right _ (hkept.subset hw), hfill⟩

omit [NestedDict κ τ] [NestedDict κ σ] in
theorem Fills.below (h : Fills R ws us) (k : κ) : Fills R (below k ws) (below k us) := by
  obtain ⟨own, tail, kept, own', tail', rfl, rfl, hown, hkept, htail, hsorted⟩ := h.parts
  refine ⟨NestedDict.below k own, NestedDict.below k tail, NestedDict.below k kept,
    NestedDict.below k own', NestedDict.below k tail', below_append .., below_append ..,
    forall₂_below hown k, hkept.filterMap _, forall₂_below htail k, ?_⟩
  refine List.Pairwise.filterMap _ (fun w u hwu => ?_) hsorted
  rintro ⟨ks, v⟩ hks ⟨js, v'⟩ hjs
  rcases hw : w.1 with _ | ⟨k', path⟩
  · simp [hw] at hks
  · rcases hu : u.1 with _ | ⟨k'', path'⟩
    · simp [hu] at hjs
    · simp only [hw] at hks
      simp only [hu] at hjs
      split_ifs at hks with h₁
      split_ifs at hjs with h₂
      obtain ⟨rfl, -⟩ : path = ks ∧ w.2 = v := by simpa using hks
      obtain ⟨rfl, -⟩ : path' = js ∧ u.2 = v' := by simpa using hjs
      rw [hw, hu, h₁, h₂] at hwu
      cases hwu with
      | rel h => exact absurd h (lt_irrefl _)
      | cons h => exact h

/-- The keys of the filled object are some of the skeleton's, in order. -/
private theorem Fills.keys_sublist (h : Fills R ws us) (hne : ∀ w ∈ ws, w.1 ≠ []) :
    (Assoc.keys (writeAll us)).Sublist (Assoc.keys (writeAll ws)) := by
  have hne' : ∀ u ∈ us, u.1 ≠ [] := by
    intro u hu
    obtain ⟨w, hw, hpath, -⟩ := h.exists_fill hu
    exact hpath ▸ hne w hw
  rw [keys_writeAll hne, keys_writeAll hne']
  obtain ⟨own, tail, kept, own', tail', rfl, rfl, hown, hkept, htail, hsorted⟩ := h.parts
  have hheads : ∀ {xs : List (List κ × τ)} {ys : List (List κ × σ)},
      List.Forall₂ (Fill R) xs ys → ys.filterMap (fun u => u.1.head?)
        = xs.filterMap fun w => w.1.head? := by
    intro xs ys hxy
    have := congrArg (List.filterMap List.head?) (map_fst_of_forall₂_fill hxy)
    simpa [List.filterMap_map, Function.comp_def] using this
  have hle : (tail.filterMap fun w => w.1.head?).Pairwise (· ≤ ·) := by
    refine List.Pairwise.filterMap _ (fun w u hwu k hk j hj => ?_) hsorted
    rcases hw : w.1 with _ | ⟨k', path⟩
    · simp [hw] at hk
    · rcases hu : u.1 with _ | ⟨j', path'⟩
      · simp [hu] at hj
      · obtain rfl : k' = k := by simpa [hw] using hk
        obtain rfl : j' = j := by simpa [hu] using hj
        rw [hw, hu] at hwu
        cases hwu with
        | rel h => exact h.le
        | cons h => exact le_rfl
  rw [List.filterMap_append, List.filterMap_append, hheads hown, hheads htail,
    Grouping.firstsBy_append, Grouping.firstsBy_append]
  exact ((Grouping.firstsBy_sublist_of_pairwise_le hle (hkept.filterMap _)).filter _).append_left _

/-- **Filling part of a skeleton moves no key.** Let `R` relate two dictionaries when the
second's keys are some of the first's, in order, with related values. Then filling part of
a skeleton's writes with related values gives a related object. -/
theorem Fills.rel_writeAll
    (hdict : ∀ (fs : List (κ × τ)) (gs : List (κ × σ)), (Assoc.keys fs).Nodup →
      (Assoc.keys gs).Sublist (Assoc.keys fs) →
      (∀ k v, Assoc.get? gs k = some v → ∃ w, Assoc.get? fs k = some w ∧ R w v) →
      R (dict fs) (dict gs))
    (h : Fills R ws us) (hne : ∀ w ∈ ws, w.1 ≠ [])
    (hdiv : ws.Pairwise fun w u => Diverge w.1 u.1) :
    R (dict (writeAll ws)) (dict (writeAll us)) := by
  obtain ⟨n, hn⟩ : ∃ n, ∀ w ∈ ws, w.1.length ≤ n :=
    ⟨(ws.map fun w => w.1.length).sum, fun w hw =>
      List.single_le_sum (by simp) _ (List.mem_map_of_mem hw)⟩
  -- on the lengths of the paths, which are shorter below a key
  induction n generalizing ws us with
  | zero =>
    obtain rfl : ws = [] := by
      rcases ws with _ | ⟨w, ws⟩
      · rfl
      · exact absurd (List.length_eq_zero_iff.mp (Nat.le_zero.mp (hn w (by simp))))
          (hne w (by simp))
    obtain rfl : us = [] := by simpa using h.paths_sublist
    exact hdict _ _ List.nodup_nil List.Sublist.slnil (by simp [writeAll])
  | succ n ih =>
    have hne' : ∀ u ∈ us, u.1 ≠ [] := by
      intro u hu
      obtain ⟨w, hw, hpath, -⟩ := h.exists_fill hu
      exact hpath ▸ hne w hw
    have hdiv' : us.Pairwise fun w u => Diverge w.1 u.1 := by
      have := (List.pairwise_map.mpr hdiv : (ws.map Prod.fst).Pairwise Diverge)
      exact List.pairwise_map.mp (this.sublist h.paths_sublist)
    refine hdict _ _ (nodup_keys_writeAll hne) (h.keys_sublist hne) fun k v hv => ?_
    rcases get?_writeAll hne' hdiv' k with ⟨v', hmem, hget⟩ | ⟨⟨u, hu, hune⟩, -, hget⟩ | ⟨-, hget⟩
    · obtain rfl : v' = v := Option.some.inj (hget.symm.trans hv)
      obtain ⟨⟨path, x⟩, hw, rfl, hR⟩ := h.exists_fill hmem
      have hread := read?_writeAll hne hdiv hw
      rw [read?_dict_cons] at hread
      exact ⟨x, by simpa using hread, hR⟩
    · obtain rfl : dict (writeAll (NestedDict.below k us)) = v :=
        Option.some.inj (hget.symm.trans hv)
      obtain ⟨⟨path, x⟩, hw, hpath, -⟩ := (h.below k).exists_fill hu
      simp only at hpath
      rcases get?_writeAll hne hdiv k with ⟨x', hmem, -⟩ | ⟨-, hall, hget'⟩ | ⟨hnil, -⟩
      · -- a write at `k` itself and one below it would not diverge
        have hw' := mem_below.mp hw
        have hdiff : (([k], x') : List κ × τ) ≠ (k :: path, x) := by
          intro heq
          have : [] = path := by simpa using congrArg (fun w => w.1.tail) heq
          exact hune (hpath ▸ this.symm)
        have hsymm : Std.Symm fun w u : List κ × τ => Diverge w.1 u.1 := ⟨fun _ _ hd => hd.symm⟩
        exact absurd (by simp) (hdiv.forall hmem hw' hdiff).1
      · refine ⟨_, hget', ih (h.below k) hall (pairwise_below hdiv k) fun w hw => ?_⟩
        have hlen := hn (k :: w.1, w.2) (mem_below.mp hw)
        simpa using hlen
      · rw [hnil] at hw
        simp at hw
    · rw [hget] at hv
      simp at hv

end Fills

end NestedDict
