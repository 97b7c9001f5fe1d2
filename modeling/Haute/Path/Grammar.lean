import Haute.Json.Errors

/-!
# The path grammar

The one parser and the one writer of document paths. A path enters the document through
the root array `$[:]` and steps through segments, each a key that is read as an object
(`.name`) or iterated as an array (`.name[:]`); nothing else is accepted. An input path may
also end at the reserved leaf, the array element itself, directly after an array.

`parsePath_makeOutputPath` and the `parseDataPath` theorems beside it are the round trips
the schema code relies on: what the writer spells, the parser reads back.
-/

namespace Haute

/-- One path segment: a JSON key, and whether it iterates an array. -/
@[ext]
structure Seg where
  name : String
  isArray : Bool
  deriving DecidableEq, Inhabited

/-- A parsed path: the keys after the root. -/
structure ParsedPath where
  raw : String
  segments : List Seg
  deriving DecidableEq

/-- What a rejection calls the path: in prose, before "selector", and as its context key. -/
structure PathNoun where
  prose : String
  selector : String
  key : String

def outputPathNoun : PathNoun := ⟨"output path", "output-path", "output_path"⟩
def tablePathNoun : PathNoun := ⟨"table path", "table-path", "table_path"⟩
def columnPathNoun : PathNoun := ⟨"column path", "column-path", "column_path"⟩

/-- The error a side of the grammar injects: `error(message, **context)`. -/
abbrev PathError := String → List (String × Value) → PyError

/-! ### Acceptance -/

/-- `[A-Za-z_]`. -/
def isNameStart (c : Char) : Bool := c.isAlpha || c == '_'

/-- `[A-Za-z0-9_]`. -/
def isNameChar (c : Char) : Bool := c.isAlphanum || c == '_'

/-- Whether `name` is exactly addressable by the grammar. -/
def isIdentifierName (name : String) : Bool :=
  match name.toList with
  | [] => false
  | c :: cs => isNameStart c && cs.all isNameChar

/-- The array selector `[:]`. -/
def arraySelector : List Char := ['[', ':', ']']

/-- The canonical data root. -/
def rootArray : String := "$[:]"

/-- `\.([A-Za-z_][A-Za-z0-9_]*)` matched at the head: the name, and the text after it. -/
def matchDotName : List Char → Option (String × List Char)
  | '.' :: c :: cs =>
    if isNameStart c then some
      (String.ofList (c :: cs.takeWhile isNameChar), cs.dropWhile isNameChar)
    else none
  | _ => none

/-- Whether `[:]` stands at the head, and the text after it. -/
def matchArray (cs : List Char) : Bool × List Char :=
  if arraySelector.isPrefixOf cs then (true, cs.drop arraySelector.length) else (false, cs)

section Parse

variable (error : PathError) (noun : PathNoun)

/-- The scan after the root: a `.name`, an optional `[:]`, and on. Every step consumes a
character, so a fuel of the text's length is never used up. -/
def parseSegments (context : List (String × Value)) : ℕ → List Char → Except PyError (List Seg)
  | _, [] => .ok []
  | 0, _ :: _ => .error (error ("malformed " ++ noun.prose) context)
  | fuel + 1, c :: cs =>
    if c = '.' then
      match matchDotName (c :: cs) with
      | none => .error (error ("unsupported " ++ noun.selector ++
          " selector (only '.name' and whole-array '[:]' are accepted)") context)
      | some (name, rest) =>
        (parseSegments context fuel (matchArray rest).2).map (⟨name, (matchArray rest).1⟩ :: ·)
    else .error (error ("malformed " ++ noun.prose) context)

/-- Parse a path, rejecting every selector outside the accepted subset. -/
def parsePath (raw : String) : Except PyError ParsedPath :=
  let context := [(noun.key, Value.str raw)]
  if rootArray.toList.isPrefixOf raw.toList then
    let text := raw.toList.drop rootArray.length
    (parseSegments error noun context text.length text).bind fun segments =>
      if segments.isEmpty then
        .error (error (noun.prose ++ " must name a leaf field, not the bare root array") context)
      else .ok ⟨raw, segments⟩
  else .error (error (noun.prose ++ " must start with '$[:]'") context)

/-- Parse an array-outer data path, the input side's mode of the grammar: the root array
itself where `allowRoot`, and the reserved leaf directly after an array. -/
def parseDataPath (raw : String) (allowRoot : Bool) (reservedLeaf : String) :
    Except PyError ParsedPath :=
  let suffix := "." ++ reservedLeaf
  let hasSentinel := suffix.toList.isSuffixOf raw.toList
  let sentinel : List Seg := if hasSentinel then [⟨reservedLeaf, false⟩] else []
  let core :=
    if hasSentinel then String.ofList (raw.toList.take (raw.length - suffix.length)) else raw
  if core = rootArray ∧ hasSentinel then .ok ⟨raw, sentinel⟩
  else if core = rootArray ∧ allowRoot then .ok ⟨raw, []⟩
  else
    (parsePath error noun core).bind fun parsed =>
      if hasSentinel ∧ (parsed.segments.getLast?.map Seg.isArray) ≠ some true then
        .error (error ("'" ++ reservedLeaf ++
          "' names an array element itself, so it must follow '[:]'") [(noun.key, .str raw)])
      else .ok ⟨raw, parsed.segments ++ sentinel⟩

end Parse

/-- The canonical writer: the root, `.name` per segment, `[:]` after each array segment. -/
def makeOutputPath (segments : List Seg) : String :=
  segments.foldl
    (fun out seg => out ++ "." ++ seg.name ++ (if seg.isArray then "[:]" else "")) rootArray

/-! ### The writer's text -/

/-- One segment as the writer spells it. -/
def Seg.spelling (seg : Seg) : List Char :=
  '.' :: seg.name.toList ++ (if seg.isArray then arraySelector else [])

theorem toList_makeOutputPath (segments : List Seg) :
    (makeOutputPath segments).toList = rootArray.toList ++ segments.flatMap Seg.spelling := by
  suffices h : ∀ out : String,
      (segments.foldl (fun out seg =>
          out ++ "." ++ seg.name ++ (if seg.isArray then "[:]" else "")) out).toList
        = out.toList ++ segments.flatMap Seg.spelling from h rootArray
  induction segments with
  | nil => simp
  | cons seg segments ih =>
    intro out
    rw [List.foldl_cons, ih, List.flatMap_cons]
    have harray : (if seg.isArray = true then "[:]" else "").toList
        = if seg.isArray = true then arraySelector else [] := by
      split_ifs <;> rfl
    simp [Seg.spelling, String.toList_append, harray]

/-- A column's path, its table's path and then dotted keys, is the writer's spelling of the
table's segments followed by object segments. -/
theorem makeOutputPath_append_objects (segments : List Seg) (keys : List String) :
    makeOutputPath (segments ++ keys.map fun key => ⟨key, false⟩)
      = keys.foldl (fun out key => out ++ "." ++ key) (makeOutputPath segments) := by
  rw [makeOutputPath, List.foldl_append, List.foldl_map]
  simp [makeOutputPath]

/-! ### What the writer spells, the parser reads -/

/-- Every key of the path is an identifier. -/
def Addressable (segments : List Seg) : Prop :=
  ∀ seg ∈ segments, isIdentifierName seg.name = true

theorem isNameChar_of_isNameStart {c : Char} (h : isNameStart c = true) : isNameChar c = true := by
  simp only [isNameStart, isNameChar, Bool.or_eq_true, Char.isAlphanum] at h ⊢
  tauto

theorem isIdentifierName_iff {name : String} :
    isIdentifierName name = true ↔
      ∃ c cs, name.toList = c :: cs ∧ isNameStart c = true ∧ ∀ d ∈ cs, isNameChar d = true := by
  rw [isIdentifierName]
  rcases name.toList with _ | ⟨c, cs⟩
  · simp
  · simp

theorem isNameChar_of_mem_identifier {name : String} (h : isIdentifierName name = true)
    {c : Char} (hc : c ∈ name.toList) : isNameChar c = true := by
  obtain ⟨d, ds, hname, hd, hds⟩ := isIdentifierName_iff.mp h
  rw [hname] at hc
  rcases List.mem_cons.mp hc with rfl | hc
  · exact isNameChar_of_isNameStart hd
  · exact hds c hc

/-- The text after a name: nothing, or a delimiter. -/
private def Delimited (cs : List Char) : Prop := ∀ c ∈ cs.head?, isNameChar c = false

private theorem matchDotName_spelling {name : String} (h : isIdentifierName name = true)
    {rest : List Char} (hrest : Delimited rest) :
    matchDotName ('.' :: name.toList ++ rest) = some (name, rest) := by
  obtain ⟨c, cs, hname, hc, hcs⟩ := isIdentifierName_iff.mp h
  have htake : (cs ++ rest).takeWhile isNameChar = cs := by
    rw [List.takeWhile_append_of_pos hcs]
    rcases rest with _ | ⟨d, ds⟩
    · simp
    · simp [hrest d (by simp)]
  have hdrop : (cs ++ rest).dropWhile isNameChar = rest := by
    rw [List.dropWhile_append_of_pos hcs]
    rcases rest with _ | ⟨d, ds⟩
    · simp
    · simp [hrest d (by simp)]
  have hof : String.ofList (c :: cs) = name := by rw [← hname, String.ofList_toList]
  rw [hname]
  simp only [List.cons_append, matchDotName, hc, if_true, htake, hdrop, hof]

private theorem matchArray_spelling (isArray : Bool) {rest : List Char}
    (hrest : rest.head? ≠ some '[') :
    matchArray ((if isArray then arraySelector else []) ++ rest) = (isArray, rest) := by
  cases isArray with
  | true => simp [matchArray, arraySelector]
  | false =>
    rcases rest with _ | ⟨c, cs⟩
    · rfl
    · have hc : ('[' == c) = false := beq_eq_false_iff_ne.mpr fun h => hrest (by rw [h]; rfl)
      simp [matchArray, arraySelector, List.isPrefixOf, hc]

private theorem head?_flatMap_spelling (segments : List Seg) :
    (segments.flatMap Seg.spelling).head? = none ∨
      (segments.flatMap Seg.spelling).head? = some '.' := by
  cases segments with
  | nil => exact Or.inl rfl
  | cons seg segments => exact Or.inr (by simp [Seg.spelling])

/-- The scan reads back a spelled segment list. -/
theorem parseSegments_spelling (error : PathError) (noun : PathNoun)
    (context : List (String × Value)) {segments : List Seg} (h : Addressable segments)
    {fuel : ℕ} (hfuel : (segments.flatMap Seg.spelling).length ≤ fuel) :
    parseSegments error noun context fuel (segments.flatMap Seg.spelling) = .ok segments := by
  induction segments generalizing fuel with
  | nil => cases fuel <;> rfl
  | cons seg segments ih =>
    have htail : Addressable segments := fun s hs => h s (List.mem_cons_of_mem _ hs)
    have hhead := head?_flatMap_spelling segments
    have hdot : Delimited ((if seg.isArray then arraySelector else [])
        ++ segments.flatMap Seg.spelling) := by
      intro c hc
      cases hseg : seg.isArray with
      | true =>
        obtain rfl : '[' = c := by simpa [hseg, arraySelector] using hc
        decide
      | false =>
        rcases hhead with hh | hh
        · simp [hseg, hh] at hc
        · obtain rfl : '.' = c := by simpa [hseg, hh] using hc
          decide
    have hbracket : (segments.flatMap Seg.spelling).head? ≠ some '[' := by
      rcases hhead with hh | hh <;> simp [hh]
    rw [List.flatMap_cons] at hfuel ⊢
    cases fuel with
    | zero => simp [Seg.spelling] at hfuel
    | succ fuel =>
      have hlen : (segments.flatMap Seg.spelling).length ≤ fuel := by
        simp only [Seg.spelling, List.cons_append, List.length_cons, List.length_append] at hfuel
        omega
      have hspell : seg.spelling ++ segments.flatMap Seg.spelling
          = '.' :: seg.name.toList ++ ((if seg.isArray then arraySelector else [])
            ++ segments.flatMap Seg.spelling) := by
        simp [Seg.spelling]
      have hmatch := matchDotName_spelling (h seg List.mem_cons_self) hdot
      rw [hspell]
      rw [List.cons_append] at hmatch ⊢
      rw [parseSegments, if_pos rfl, hmatch]
      simp only [matchArray_spelling seg.isArray hbracket, ih htail hlen]
      rfl

/-- **Round trip.** The parser reads back what the writer spells. -/
theorem parsePath_makeOutputPath (error : PathError) (noun : PathNoun) {segments : List Seg}
    (h : Addressable segments) (hne : segments ≠ []) :
    parsePath error noun (makeOutputPath segments)
      = .ok ⟨makeOutputPath segments, segments⟩ := by
  have hlist := toList_makeOutputPath segments
  have hpre : rootArray.toList.isPrefixOf (makeOutputPath segments).toList = true := by
    rw [hlist, List.isPrefixOf_iff_prefix]
    exact List.prefix_append _ _
  have hdrop : (makeOutputPath segments).toList.drop rootArray.length
      = segments.flatMap Seg.spelling := by
    rw [hlist]
    exact List.drop_left' rfl
  have hempty : segments.isEmpty = false := by simpa using hne
  simp only [parsePath, hpre, if_true, hdrop, parseSegments_spelling error noun _ h le_rfl]
  simp [Except.bind, hempty]

private theorem dollar_notMem_spelling {segments : List Seg} (h : Addressable segments) :
    '$' ∉ segments.flatMap Seg.spelling := by
  intro hmem
  obtain ⟨seg, hseg, hc⟩ := List.mem_flatMap.mp hmem
  simp only [Seg.spelling, List.cons_append, List.mem_cons, List.mem_append] at hc
  rcases hc with hc | hc | hc
  · exact absurd hc (by decide)
  · exact absurd (isNameChar_of_mem_identifier (h seg hseg) hc) (by decide)
  · split_ifs at hc
    · exact absurd hc (by decide)
    · simp at hc

/-- A spelled path of identifiers does not end at a leaf whose name starts with `$`: its
only `$` is the root's. -/
private theorem not_isSuffixOf_makeOutputPath {segments : List Seg} (h : Addressable segments)
    {leaf : List Char} (hleaf : '$' ∈ leaf) :
    ('.' :: leaf).isSuffixOf (makeOutputPath segments).toList = false := by
  rw [Bool.eq_false_iff]
  intro hsuffix
  obtain ⟨pre, hpre⟩ := List.isSuffixOf_iff_suffix.mp hsuffix
  rw [toList_makeOutputPath] at hpre
  cases pre with
  | nil => exact absurd (congrArg List.head? hpre) (by simp [rootArray])
  | cons c pre =>
    have htail : pre ++ '.' :: leaf = ['[', ':', ']'] ++ segments.flatMap Seg.spelling := by
      have := congrArg List.tail hpre
      simpa [rootArray] using this
    have hmem : '$' ∈ ['[', ':', ']'] ++ segments.flatMap Seg.spelling := by
      rw [← htail]
      simp [hleaf]
    rcases List.mem_append.mp hmem with hm | hm
    · exact absurd hm (by decide)
    · exact dollar_notMem_spelling h hm

/-- A data path of identifiers is read back; the empty one is the root array. -/
theorem parseDataPath_makeOutputPath (error : PathError) (noun : PathNoun) {segments : List Seg}
    (h : Addressable segments) {allowRoot : Bool} (hroot : segments ≠ [] ∨ allowRoot = true)
    {leaf : String} (hleaf : '$' ∈ leaf.toList) :
    parseDataPath error noun (makeOutputPath segments) allowRoot leaf
      = .ok ⟨makeOutputPath segments, segments⟩ := by
  have hsuffix : ("." ++ leaf).toList.isSuffixOf (makeOutputPath segments).toList = false := by
    rw [String.toList_append]
    exact not_isSuffixOf_makeOutputPath h hleaf
  simp only [parseDataPath, hsuffix]
  by_cases hne : segments = []
  · subst hne
    simp [makeOutputPath, hroot.resolve_left (by simp)]
  · have hnot : makeOutputPath segments ≠ rootArray := by
      intro he
      have := congrArg String.toList he
      rw [toList_makeOutputPath] at this
      obtain ⟨seg, rest, rfl⟩ := List.exists_cons_of_ne_nil hne
      simp [Seg.spelling] at this
    simp [hnot, parsePath_makeOutputPath error noun h hne, Except.bind]

/-- A data path of identifiers ending at an array, then the reserved leaf, is read back. -/
theorem parseDataPath_reservedLeaf (error : PathError) (noun : PathNoun) {segments : List Seg}
    (h : Addressable segments) (harray : ∀ seg ∈ segments.getLast?, seg.isArray = true)
    (allowRoot : Bool) (leaf : String) :
    parseDataPath error noun (makeOutputPath segments ++ "." ++ leaf) allowRoot leaf
      = .ok ⟨makeOutputPath segments ++ "." ++ leaf, segments ++ [⟨leaf, false⟩]⟩ := by
  have hsuffix : ("." ++ leaf).toList.isSuffixOf
      (makeOutputPath segments ++ "." ++ leaf).toList = true := by
    rw [List.isSuffixOf_iff_suffix]
    exact ⟨(makeOutputPath segments).toList, by simp [String.toList_append]⟩
  have hcore : String.ofList ((makeOutputPath segments ++ "." ++ leaf).toList.take
      ((makeOutputPath segments ++ "." ++ leaf).length - ("." ++ leaf).length))
        = makeOutputPath segments := by
    have hlen : (makeOutputPath segments ++ "." ++ leaf).length - ("." ++ leaf).length
        = (makeOutputPath segments).toList.length := by
      simp only [← String.length_toList, String.toList_append, List.length_append]
      omega
    rw [hlen, String.toList_append, String.toList_append, List.append_assoc, List.take_left,
      String.ofList_toList]
  simp only [parseDataPath, hsuffix, if_true, hcore]
  by_cases hne : segments = []
  · subst hne
    simp [makeOutputPath]
  · have hnot : makeOutputPath segments ≠ rootArray := by
      intro he
      have := congrArg String.toList he
      rw [toList_makeOutputPath] at this
      obtain ⟨seg, rest, rfl⟩ := List.exists_cons_of_ne_nil hne
      simp [Seg.spelling] at this
    have hlast : segments.getLast?.map Seg.isArray = some true := by
      rw [List.getLast?_eq_some_getLast hne] at harray ⊢
      simp [harray _ rfl]
    simp [hnot, parsePath_makeOutputPath error noun h hne, Except.bind, hlast]

/-! ### What the parser reads was spelled so -/

private theorem matchDotName_eq_some {cs rest : List Char} {name : String}
    (h : matchDotName cs = some (name, rest)) :
    cs = '.' :: name.toList ++ rest ∧ isIdentifierName name = true := by
  unfold matchDotName at h
  split at h
  · rename_i c cs
    split_ifs at h with hc
    obtain ⟨rfl, rfl⟩ : String.ofList (c :: cs.takeWhile isNameChar) = name
        ∧ cs.dropWhile isNameChar = rest := by simpa using h
    refine ⟨by simp, isIdentifierName_iff.mpr
      ⟨c, cs.takeWhile isNameChar, String.toList_ofList, hc, fun d hd => ?_⟩⟩
    exact List.mem_takeWhile_imp hd
  · simp at h

private theorem matchArray_append (cs : List Char) :
    (if (matchArray cs).1 then arraySelector else []) ++ (matchArray cs).2 = cs := by
  by_cases h : arraySelector.isPrefixOf cs = true
  · obtain ⟨rest, rfl⟩ := List.isPrefixOf_iff_prefix.mp h
    simp [matchArray, h]
  · simp [matchArray, h]

private theorem eq_spelling_of_parseSegments {error : PathError} {noun : PathNoun}
    {context : List (String × Value)} {fuel : ℕ} {cs : List Char} {segments : List Seg}
    (h : parseSegments error noun context fuel cs = .ok segments) :
    cs = segments.flatMap Seg.spelling ∧ Addressable segments := by
  induction fuel generalizing cs segments with
  | zero =>
    cases cs with
    | nil =>
      obtain rfl : [] = segments := by simpa [parseSegments] using h
      exact ⟨rfl, by simp [Addressable]⟩
    | cons c cs => simp [parseSegments] at h
  | succ fuel ih =>
    cases cs with
    | nil =>
      obtain rfl : [] = segments := by simpa [parseSegments] using h
      exact ⟨rfl, by simp [Addressable]⟩
    | cons c cs =>
      rw [parseSegments] at h
      split_ifs at h with hc
      split at h
      · simp at h
      · rename_i name rest hname
        obtain ⟨segs, hsegs, rfl⟩ := map_eq_ok_iff.mp h
        obtain ⟨hrest, haddr⟩ := ih hsegs
        obtain ⟨hcs, hid⟩ := matchDotName_eq_some hname
        refine ⟨?_, List.forall_mem_cons.mpr ⟨hid, haddr⟩⟩
        rw [hcs, List.flatMap_cons, ← hrest, Seg.spelling, List.append_assoc, matchArray_append]

/-- **The grammar has one spelling for each path**: an accepted path is the one the writer
spells from its segments. -/
theorem makeOutputPath_of_parsePath {error : PathError} {noun : PathNoun} {raw : String}
    {parsed : ParsedPath} (h : parsePath error noun raw = .ok parsed) :
    parsed.raw = raw ∧ makeOutputPath parsed.segments = raw ∧ Addressable parsed.segments := by
  rw [parsePath] at h
  split_ifs at h with hroot
  obtain ⟨segments, hsegs, h⟩ := bind_eq_ok_iff.mp h
  split_ifs at h
  obtain rfl : ⟨raw, segments⟩ = parsed := by simpa using h
  obtain ⟨htext, haddr⟩ := eq_spelling_of_parseSegments hsegs
  refine ⟨rfl, String.toList_injective ?_, haddr⟩
  rw [toList_makeOutputPath, ← htext]
  have hpre := List.isPrefixOf_iff_prefix.mp hroot
  exact (List.prefix_append_drop hpre).symm

end Haute
