import Haute.Schema.Validate

/-!
# Spelling a path

The writer and the four parsers are inverse. What the writer spells, each parser reads back
wherever it accepts it, and what a parser accepts is what the writer spells from the result, so
a path has one spelling and no text is read two ways (`path_spelling`).

A parser may refuse what the writer spells: the root names no leaf, and a table sits at an
array. `path_spelling_refused` is the two refusals.
-/

namespace Haute

variable {error : PathError} {noun : PathNoun}

/-- A column's path as its parts spell it: its locating segments, and its dotted leaf. -/
def columnSpelling (column : Level × List String) : String :=
  makeTablePath column.1 ++ "." ++ ".".intercalate column.2

/-! ### What the data parser accepts -/

theorem makeOutputPath_concat (segments : List Seg) (name : String) :
    makeOutputPath (segments ++ [⟨name, false⟩]) = makeOutputPath segments ++ "." ++ name :=
  makeOutputPath_append_objects segments [name]

/-- A text with a suffix is what stands before it and the suffix. -/
private theorem ofList_take_append {raw suffix : String}
    (h : suffix.toList.isSuffixOf raw.toList = true) :
    String.ofList (raw.toList.take (raw.length - suffix.length)) ++ suffix = raw := by
  obtain ⟨pre, hpre⟩ := List.isSuffixOf_iff_suffix.mp h
  have htake : raw.toList.take (raw.length - suffix.length) = pre := by
    rw [← String.length_toList, ← String.length_toList, ← hpre, List.length_append,
      Nat.add_sub_cancel, List.take_left]
  rw [htake, ← String.toList_inj, String.toList_append, String.toList_ofList, hpre]

/-- **A data path has one spelling**: an accepted text is the one the writer spells. -/
theorem makeOutputPath_of_parseDataPath {raw leaf : String} {allowRoot : Bool} {parsed : ParsedPath}
    (h : parseDataPath error noun raw allowRoot leaf = .ok parsed) :
    parsed.raw = raw ∧ makeOutputPath parsed.segments = raw := by
  rw [parseDataPath] at h
  by_cases hleaf : ("." ++ leaf).toList.isSuffixOf raw.toList = true
  · have hsplit := ofList_take_append hleaf
    simp only [hleaf, if_true, and_true] at h
    generalize String.ofList (raw.toList.take (raw.length - ("." ++ leaf).length)) =
      core at h hsplit
    rw [← String.append_assoc] at hsplit
    split_ifs at h with hroot hbare
    · cases h
      refine ⟨rfl, ?_⟩
      rw [← hsplit, hroot]
      exact makeOutputPath_concat [] leaf
    · exact absurd hbare.1 hroot
    · obtain ⟨inner, hinner, h⟩ := bind_eq_ok_iff.mp h
      split_ifs at h
      cases h
      refine ⟨rfl, ?_⟩
      rw [makeOutputPath_concat, (makeOutputPath_of_parsePath hinner).2.1, hsplit]
  · simp only [hleaf, Bool.false_eq_true, if_false, and_false, false_and] at h
    split_ifs at h with hroot
    · cases h
      exact ⟨rfl, hroot.1.symm⟩
    · obtain ⟨inner, hinner, h⟩ := bind_eq_ok_iff.mp h
      cases h
      refine ⟨rfl, ?_⟩
      rw [List.append_nil]
      exact (makeOutputPath_of_parsePath hinner).2.1

/-! ### What the four parsers read back -/

theorem parsePath_root : ∃ e, parsePath error noun (makeOutputPath []) = .error e := ⟨_, rfl⟩

private theorem dollar_mem_reservedLeaf : '$' ∈ reservedLeaf.toList := by decide

theorem parseTablePath_makeTablePath {segments : List Seg} (h : Addressable segments) :
    parseTablePath (makeTablePath segments) = .ok segments ↔ IsLevel segments := by
  rw [parseTablePath, makeTablePath,
    parseDataPath_makeOutputPath _ _ h (.inr rfl) dollar_mem_reservedLeaf, bind_eq_ok_iff]
  simp only [Except.ok.injEq, exists_eq_left', bind_eq_ok_iff, require_eq_ok_iff, decide_eq_true_eq]
  constructor
  · rintro ⟨_, hlast, -⟩ seg hseg
    rw [Option.mem_def.mp hseg] at hlast
    simpa using hlast
  · intro hlevel
    refine ⟨(), ?_, rfl⟩
    cases hlast : segments.getLast? with
    | none => simp
    | some seg => simp [hlevel seg hlast]

/-- A column is read back where its path ends at an object hop. -/
theorem parseColumnPathFull_makeTablePath {segments : List Seg} (h : Addressable segments) :
    parseColumnPathFull (makeTablePath segments)
      = .ok (arrayPrefix segments, (ownPart segments).map Seg.name) ↔ ¬ IsLevel segments := by
  rcases eq_or_ne segments [] with rfl | hne
  · refine iff_of_false (fun h => ?_) (fun h => h isLevel_nil)
    cases h
  have hown : IsLevel segments ↔ ownPart segments = [] := by
    constructor
    · intro hlevel
      rw [ownPart, arrayPrefix_eq_self hlevel, List.drop_length]
    · intro hnil
      have := arrayPrefix_append_ownPart segments
      rw [hnil, List.append_nil] at this
      exact this ▸ isLevel_arrayPrefix segments
  rw [parseColumnPathFull, makeTablePath,
    parseDataPath_makeOutputPath _ _ h (.inl hne) dollar_mem_reservedLeaf, bind_eq_ok_iff, hown]
  simp only [Except.ok.injEq, exists_eq_left', bind_eq_ok_iff, require_eq_ok_iff]
  constructor
  · rintro ⟨_, hleaf, -⟩ hnil
    simp [hnil] at hleaf
  · intro hleaf
    exact ⟨(), by simpa using hleaf, rfl⟩

/-- A column path is spelled by its parts. -/
theorem columnSpelling_of_parseColumnPathFull {raw : String} {column : Level × List String}
    (h : parseColumnPathFull raw = .ok column) : columnSpelling column = raw := by
  obtain ⟨parsed, hparsed, h⟩ := bind_eq_ok_iff.mp h
  obtain ⟨_, hleaf, h⟩ := bind_eq_ok_iff.mp h
  cases h
  have hkeys : ∀ (text : String) (keys : List String), keys ≠ [] →
      keys.foldl (fun out key => out ++ "." ++ key) text = text ++ "." ++ ".".intercalate keys := by
    intro text keys hne
    induction keys generalizing text with
    | nil => exact absurd rfl hne
    | cons key keys ih =>
      cases keys with
      | nil => simp
      | cons next keys =>
        rw [List.foldl_cons, ih _ (List.cons_ne_nil _ _), String.intercalate_cons_cons]
        simp only [String.append_assoc]
  have hne : (ownPart parsed.segments).map Seg.name ≠ [] := by
    simpa using (require_eq_ok_iff.mp hleaf)
  rw [← (makeOutputPath_of_parseDataPath hparsed).2, columnSpelling, makeTablePath, ← hkeys _ _ hne,
    ← makeOutputPath_append_objects]
  have hhops := objectHops_ownPart parsed.segments
  rw [objectHops] at hhops
  rw [hhops, arrayPrefix_append_ownPart]

/-! ### The round trips -/

/-- **Spelling and parsing are inverse.** A list of names is read back from what the writer spells:
by the data parser always, by the output parser unless it is the root, by the table parser where it
is a level, and by the column parser, split at its last array, where it is not one; the reserved
leaf is read back after a level. What any of the four accepts is the writer's spelling of what it
reads, and two column paths that read the same are one text. -/
theorem path_spelling (error : PathError) (noun : PathNoun) :
    (∀ segments, Addressable segments →
      parseDataPath error noun (makeTablePath segments) true reservedLeaf
        = .ok ⟨makeTablePath segments, segments⟩ ∧
      (parsePath error noun (makeOutputPath segments) = .ok ⟨makeOutputPath segments, segments⟩ ↔
        segments ≠ []) ∧
      (parseTablePath (makeTablePath segments) = .ok segments ↔ IsLevel segments) ∧
      (parseColumnPathFull (makeTablePath segments)
        = .ok (arrayPrefix segments, (ownPart segments).map Seg.name) ↔ ¬ IsLevel segments) ∧
      (IsLevel segments → parseColumnPathFull (makeTablePath (segments ++ [⟨reservedLeaf, false⟩]))
        = .ok (segments, [reservedLeaf]))) ∧
    (∀ raw parsed, parsePath error noun raw = .ok parsed → makeOutputPath parsed.segments = raw ∧
      parsePath error noun (makeOutputPath parsed.segments) = .ok parsed) ∧
    (∀ raw allowRoot leaf parsed, parseDataPath error noun raw allowRoot leaf = .ok parsed →
      makeOutputPath parsed.segments = raw ∧
        parseDataPath error noun (makeOutputPath parsed.segments) allowRoot leaf = .ok parsed) ∧
    (∀ raw segments, parseTablePath raw = .ok segments → makeTablePath segments = raw ∧
      parseTablePath (makeTablePath segments) = .ok segments) ∧
    (∀ raw column, parseColumnPathFull raw = .ok column → columnSpelling column = raw ∧
      parseColumnPathFull (columnSpelling column) = .ok column) ∧
    ∀ raw raw' column column', parseColumnPathFull raw = .ok column →
      parseColumnPathFull raw' = .ok column' → column.1 = column'.1 →
      ".".intercalate column.2 = ".".intercalate column'.2 → raw = raw' := by
  refine ⟨fun segments h =>
    ⟨?_, ?_, parseTablePath_makeTablePath h, parseColumnPathFull_makeTablePath h,
    fun hlevel => ?_⟩, fun raw parsed h => ?_, fun raw allowRoot leaf parsed h => ?_,
    fun raw segments h => ?_, fun raw column h =>
      ?_, fun raw raw' column column' h h' hlevel hleaf => ?_⟩
  · exact parseDataPath_makeOutputPath error noun h (.inr rfl) dollar_mem_reservedLeaf
  · refine ⟨fun hparse hnil => ?_, parsePath_makeOutputPath error noun h⟩
    obtain ⟨e, he⟩ := @parsePath_root error noun
    rw [hnil, he] at hparse
    cases hparse
  · -- the element itself, which the reserved leaf names
    have hparse :=
      parseDataPath_reservedLeaf .apiInputSchema columnPathNoun h hlevel false reservedLeaf
    have hhops : ∀ seg ∈ [(⟨reservedLeaf, false⟩ : Seg)], seg.isArray = false := by simp
    rw [parseColumnPathFull, makeTablePath, makeOutputPath_concat, hparse]
    simp only [bind, Except.bind, ownPart_append hlevel hhops, arrayPrefix_append hlevel hhops]
    rfl
  · have hraw := (makeOutputPath_of_parsePath h).2.1
    exact ⟨hraw, hraw.symm ▸ h⟩
  · have hraw := (makeOutputPath_of_parseDataPath h).2
    exact ⟨hraw, hraw.symm ▸ h⟩
  · have hraw : makeTablePath segments = raw := by
      obtain ⟨parsed, hparsed, h⟩ := bind_eq_ok_iff.mp h
      obtain ⟨_, -, h⟩ := bind_eq_ok_iff.mp h
      cases h
      exact (makeOutputPath_of_parseDataPath hparsed).2
    exact ⟨hraw, hraw.symm ▸ h⟩
  · have hraw := columnSpelling_of_parseColumnPathFull h
    exact ⟨hraw, hraw.symm ▸ h⟩
  · rw [← columnSpelling_of_parseColumnPathFull h, ← columnSpelling_of_parseColumnPathFull h',
      columnSpelling, columnSpelling, hlevel, hleaf]

/-- The claims of a driver, and the amount of each. -/
def claimsOfDriver : Level := [⟨"drivers", true⟩, ⟨"profile", false⟩, ⟨"claims", true⟩]

theorem path_spelling_claims :
    parseTablePath "$[:].drivers[:].profile.claims[:]" = .ok claimsOfDriver ∧
      parseColumnPathFull "$[:].drivers[:].profile.claims[:].cost.paid"
        = .ok (claimsOfDriver, ["cost", "paid"]) := by
  have haddr : Addressable claimsOfDriver := by
    unfold Addressable
    decide
  obtain ⟨hback, -, -, -, hcolumns, -⟩ := path_spelling .apiInputSchema tablePathNoun
  refine ⟨(hback claimsOfDriver haddr).2.2.1.mpr (by simp [claimsOfDriver, IsLevel]), ?_⟩
  have haddr' : Addressable (claimsOfDriver ++ objectHops ["cost", "paid"]) := by
    unfold Addressable
    decide
  have hlevel : ¬ IsLevel (claimsOfDriver ++ objectHops ["cost", "paid"]) := by
    simp [claimsOfDriver, IsLevel, objectHops]
  exact (hcolumns _ _ ((hback _ haddr').2.2.2.1.mpr hlevel)).2

/-- The output parser refuses the root, which names no leaf, and the table parser refuses a path
that ends at an object key, which is no table. -/
theorem path_spelling_refused : ¬ ∀ segments, Addressable segments →
    parsePath .outputMapping outputPathNoun (makeOutputPath segments)
        = .ok ⟨makeOutputPath segments, segments⟩ ∧
      parseTablePath (makeTablePath segments) = .ok segments := by
  intro h
  obtain ⟨e, he⟩ := @parsePath_root .outputMapping outputPathNoun
  have hroot := (h [] fun _ hseg => absurd hseg List.not_mem_nil).1
  rw [he] at hroot
  cases hroot

end Haute
