import Haute.Inference.Chunks
import Haute.Inference.Learned

/-!
# Inference in parallel, with a filter

A large JSON Lines file is inferred in three steps: a prefix is walked record by record and what it
shows is learned, the rest is cut into ranges, and each range is inferred in a process of its own
that skips the records the prefix has made known; the states are merged in file order.

A filter is sound for a state when what it has learned is known there. A sound filter lets through
only records whose walk would change nothing (`Sound.walk_of_accepts`), and it stays sound as the
records it does not let through are walked (`Sound.learn`). So a scan with the filter is the scan
without it (`inferRecords_eq`), and since a range is walked on from the prefix exactly as it is
walked apart and merged, the parallel scan is the serial one (`inferJsonl_eq_ok_iff`).
-/

namespace Haute

open InferenceState Shred
open Relation (ReflTransGen)

variable {M : Converter} {loads : Bytes → Except PyError Value} {limit : ℕ}

/-! ### Walking values and lines -/

/-- Walk records one after the other. -/
def walkValues (values : List Value) (s : InferenceState) : Except PyError InferenceState :=
  values.foldlM (fun s value => walk [] [] value s) s

/-- Read a line and walk its record, if it has one. -/
def walkLine (loads : Bytes → Except PyError Value) (s : InferenceState) (raw : Bytes) :
    Except PyError InferenceState := do
  match ← jsonlRecord loads raw with
  | .record value => walk [] [] value s
  | _ => .ok s

/-- Walk lines one after the other. -/
def walkLines (loads : Bytes → Except PyError Value) (rawLines : List Bytes) (s : InferenceState) :
    Except PyError InferenceState := rawLines.foldlM (walkLine loads) s

/-- Walking lines in two parts is walking them in one. -/
theorem walkLines_append (first rest : List Bytes) (s : InferenceState) :
    walkLines loads (first ++ rest) s = walkLines loads first s >>= walkLines loads rest :=
  List.foldlM_append

/-- A line's record is a dict. -/
theorem isDict_of_jsonlRecord {raw : Bytes} {value : Value}
    (h : jsonlRecord loads raw = .ok (.record value)) :
    value.isDict = true := by
  unfold jsonlRecord at h
  split_ifs at h
  · cases h
  · obtain ⟨read, -, hread⟩ := map_eq_ok_iff.mp h
    split_ifs at hread with hdict
    cases hread
    exact hdict

/-- A line with a record ends in what walking the record ends in. -/
theorem walkLine_eq {raw : Bytes} {r : LineRecord} (h : jsonlRecord loads raw = .ok r)
    (s : InferenceState) :
    walkLine loads s raw = walkValues r.value?.toList s := by
  rw [walkLine, h]
  cases r with
  | record value =>
    simp only [LineRecord.value?, Option.toList, walkValues, List.foldlM_cons,
      List.foldlM_nil, bind_pure]
    rfl
  | _ => rfl

/-- A line changes the state by notes alone. -/
theorem walkLine_noted {raw : Bytes} {s s' : InferenceState} (h : walkLine loads s raw = .ok s') :
    ReflTransGen Noted s s' := by
  obtain ⟨r, -, h⟩ := bind_eq_ok_iff.mp h
  cases r with
  | record value => exact walk_noted isLevel_nil value h
  | _ =>
    cases h
    exact .refl

/-- Lines change the state by notes alone. -/
theorem walkLines_noted {rawLines : List Bytes} {s s' : InferenceState}
    (h : walkLines loads rawLines s = .ok s') : ReflTransGen Noted s s' := by
  induction rawLines generalizing s with
  | nil =>
    cases h
    exact .refl
  | cons raw rawLines ih =>
    obtain ⟨mid, hmid, h⟩ := bind_eq_ok_iff.mp h
    exact (walkLine_noted hmid).trans (ih h)

/-- A walk has come to the state: the root is there, and the keys let through are addressable. -/
structure InferenceState.Underway (s : InferenceState) : Prop where
  started : s.Started
  checked : s.KeysChecked

theorem underway_new : InferenceState.new.Underway := ⟨started_new, keysChecked_new⟩

/-- A state underway stays so under notes. -/
theorem InferenceState.Underway.noted {s s' : InferenceState} (hs : s.Underway)
    (h : ReflTransGen Noted s s') :
    s'.Underway := by
  have hroot : s.Holds (.level []) := hs.started
  refine ⟨holds_of_noted h hroot, ?_⟩
  induction h with
  | refl => exact hs.checked
  | tail _ hlast ih => exact hlast.keysChecked ih

/-! ### Sound filters -/

/-- What the filter has learned is known. -/
structure InferenceFilter.Sound (f : InferenceFilter) (s : InferenceState) : Prop where
  observed : ∀ o, f.observed = some o → KnownRecord s o []
  native : ∀ type, f.native = some type → ∃ o, KnownRecord s o [] ∧
    nativeType f.jsonMode o = some type

namespace InferenceFilter

variable {f : InferenceFilter} {s s' : InferenceState}

/-- A new filter is as sound as what it starts from. -/
theorem Sound.new {seed : Option ObservedValue} (h : ∀ o, seed = some o → KnownRecord s o [])
    (jsonMode : Bool) :
    (InferenceFilter.new seed jsonMode).Sound s := by
  cases seed with
  | none =>
    refine ⟨fun o ho => ?_, fun type htype => nomatch htype⟩
    cases ho
    exact .new s []
  | some observed =>
    refine ⟨fun o ho => ?_, fun type htype => ⟨observed, h _ rfl, htype⟩⟩
    cases ho
    exact h _ rfl

/-- A filter that is sound stays so as the state takes notes. -/
theorem Sound.noted (hf : f.Sound s) (h : ReflTransGen Noted s s') : f.Sound s' := by
  have hmono : ∀ fact, s.Holds fact → s'.Holds fact := fun _ => holds_of_noted h
  refine ⟨fun o ho => .mono hmono o (hf.observed o ho), fun type htype => ?_⟩
  obtain ⟨o, ho, hnative⟩ := hf.native type htype
  exact ⟨o, .mono hmono o ho, hnative⟩

/-- What a sound filter hands on is known. -/
theorem Sound.snapshot (hf : f.Sound s) {o : ObservedValue} (h : f.snapshot = some o) :
    KnownRecord s o [] := by
  unfold InferenceFilter.snapshot at h
  cases hnative : f.native with
  | none =>
    rw [hnative] at h
    cases h
  | some type =>
    rw [hnative] at h
    exact hf.observed o h

/-- Walking an object makes what is observed of it known. -/
theorem walk_observe {value : Value} (hdict : value.isDict = true) {o : ObservedValue}
    (ho : KnownRecord s o []) (h : walk [] [] value s = .ok s') :
    KnownRecord s' (observe value 0 o) [] := by
  cases value with
  | dict entries =>
    obtain ⟨types, fields, array, unsupported⟩ := o
    have hmono : ∀ fact, s.Holds fact → s'.Holds fact :=
      fun _ => holds_of_noted (walk_noted isLevel_nil _ h)
    have hkept := KnownRecord.mono hmono _ ho
    rw [observe]
    split_ifs
    · exact hkept
    · exact hkept
    rw [walk] at h
    have hnoted : ∀ fact, s.Holds fact → (s.noteLevel []).Holds fact := fun _ =>
      (Noted.level isLevel_nil).extends.holds
    have hfields :=
      walkFields_observe entries isLevel_nil (.mono hnoted _ (KnownRoot.getD ho.2.2)) h 0
    exact ⟨hkept.1, hkept.2.1, holds_of_noted (walkFields_noted isLevel_nil entries h)
      holds_noteLevel, hfields⟩
  | _ => cases hdict

/-- **A filter stays sound** as it learns the records that are walked. -/
theorem Sound.learn (hf : f.Sound s) {value : Value} (hdict : value.isDict = true)
    (h : walk [] [] value s = .ok s') : (f.learn value).Sound s' := by
  have hkept := hf.noted (walk_noted isLevel_nil value h)
  unfold InferenceFilter.learn
  cases hobserved : f.observed with
  | none => exact hkept
  | some observed =>
    have hknown := walk_observe hdict (hf.observed observed hobserved) h
    dsimp only
    split_ifs with hcompile hlast
    · exact ⟨fun o ho => (nomatch ho), fun type htype => ⟨_, hknown, htype⟩⟩
    · refine ⟨fun o ho => ?_, fun type htype => ⟨_, hknown, htype⟩⟩
      cases ho
      exact hknown
    · refine ⟨fun o ho => ?_, hkept.native⟩
      cases ho
      exact hknown

/-- **What a sound filter lets through** is walked without a change. -/
theorem Sound.walk_of_convert (hf : f.Sound s) {type : NativeType} (htype : f.native = some type)
    {value : Value} (h : M.convert type value = true) :
    value.isDict = true ∧ walk [] [] value s = .ok s := by
  obtain ⟨o, ho, hnative⟩ := hf.native type htype
  obtain ⟨entries, fields, natives, rfl, hlevel, hfields, hnatives, hentries⟩ :=
    convert_nativeRecord ho hnative h
  refine ⟨rfl, ?_⟩
  rw [walk, noteLevel_eq_self hlevel]
  exact walkFields_of_convert entries hfields hnatives hentries

/-- A value that a sound filter accepts leaves the state as it is. -/
theorem Sound.walk_of_accepts (hf : f.Sound s) {value : Value} (h : f.accepts M value = true) :
    walk [] [] value s = .ok s := by
  unfold accepts at h
  cases htype : f.native with
  | none =>
    rw [htype] at h
    cases h
  | some type =>
    rw [htype] at h
    exact (hf.walk_of_convert htype h).2

end InferenceFilter

/-- A decoder of a type of JSON values accepts text that is read as a value of the type. Of other
types it need not: a decoder of any integer accepts one of more than 64 bits, which the parser reads
as a float. -/
def Converter.Decodes (M : Converter) (loads : Bytes → Except PyError Value) : Prop :=
  ∀ type raw, type.Json → M.decode type raw = true →
    ∃ value, loads (stripBytes raw) = .ok value ∧ M.convert type value = true

/-! ### A scan with the filter -/

/-- With a sound filter, records are walked as they are without it. -/
theorem inferRecordsLoop_eq {records : List Value}
    (hdict : ∀ record ∈ records, record.isDict = true)
    {f : InferenceFilter} {s : InferenceState} (hf : f.Sound s) :
    inferRecordsLoop M records f s = walkValues records s := by
  induction records generalizing f s with
  | nil => rfl
  | cons record records ih =>
    obtain ⟨hrecord, hrecords⟩ := List.forall_mem_cons.mp hdict
    rw [inferRecordsLoop, walkValues, List.foldlM_cons]
    split_ifs with haccepts
    · rw [hf.walk_of_accepts haccepts]
      exact ih hrecords hf
    · cases hwalk : walk [] [] record s with
      | error e => rfl
      | ok s' => exact ih hrecords (hf.learn hrecord hwalk)

/-- **Skipping what is known changes nothing**: a scan with the filter, which skips the records it
finds known as it goes, comes to the state, and to the error, of walking every record. -/
theorem inferRecords_eq (records : List Record) :
    inferRecords M none (records.map Record.toValue) = walkRecords records .new := by
  have hdict : ∀ value ∈ records.map Record.toValue, value.isDict = true := by
    intro value hvalue
    obtain ⟨record, -, rfl⟩ := List.mem_map.mp hvalue
    rfl
  have hf : (InferenceFilter.new none false).Sound .new := .new (fun o ho => by cases ho) false
  rw [inferRecords, inferRecordsLoop_eq hdict hf, walkValues, List.foldlM_map]
  rfl

/-- With a filter that is sound once the state is merged, lines are walked apart and merged as they
are walked on. -/
theorem inferLinesLoop_merge (hdecode : M.Decodes loads) {merged : InferenceState}
    (hchecked : merged.KeysChecked)
    {rawLines : List Bytes} {f : InferenceFilter} {s : InferenceState}
    (hf : f.Sound (merged.merge s)) :
    (inferLinesLoop M loads rawLines f s).map merged.merge = walkLines loads rawLines
      (merged.merge s) := by
  induction rawLines generalizing f s with
  | nil => rfl
  | cons raw rawLines ih =>
    rw [inferLinesLoop, walkLines, List.foldlM_cons]
    split_ifs with haccepts
    · -- the line is read as a record that is known
      have hline : walkLine loads (merged.merge s) raw = .ok (merged.merge s) := by
        unfold InferenceFilter.acceptsJson at haccepts
        cases htype : f.native with
        | none =>
          rw [htype] at haccepts
          cases haccepts
        | some type =>
          rw [htype, Bool.and_eq_true] at haccepts
          obtain ⟨o, ho, hnative⟩ := hf.native type htype
          rw [haccepts.1] at hnative
          obtain ⟨value, hvalue, hconvert⟩ :=
            hdecode type raw (json_nativeRecord o ho hnative) haccepts.2
          obtain ⟨hdict, hwalk⟩ := hf.walk_of_convert htype hconvert
          by_cases hblank : stripBytes raw = []
          · rw [walkLine, jsonlRecord, if_pos hblank]
            rfl
          · have hrecord : jsonlRecord loads raw = .ok (.record value) := by
              rw [jsonlRecord, if_neg hblank, hvalue]
              simp only [Except.map, hdict, if_true]
            rw [walkLine, hrecord]
            exact hwalk
      rw [hline]
      exact ih hf
    · cases hread : jsonlRecord loads raw with
      | error e =>
        rw [walkLine, hread]
        rfl
      | ok r =>
        rw [walkLine, hread]
        cases r with
        | blank => exact ih hf
        | skipped => exact ih hf
        | record value =>
          have hmerge := walk_merge hchecked [] [] value s
          cases hwalk : walk [] [] value s with
          | error e =>
            rw [hwalk] at hmerge
            simp only [bind, Except.bind, hwalk, hmerge]
            rfl
          | ok s' =>
            rw [hwalk] at hmerge
            simp only [bind, Except.bind, hwalk, hmerge]
            exact ih (hf.learn (isDict_of_jsonlRecord hread) hmerge)

/-- A range is inferred apart and merged as it is walked on. -/
theorem inferJsonlLines_merge (hdecode : M.Decodes loads) {merged : InferenceState}
    (hmerged : merged.Underway)
    {seed : Option ObservedValue} (hseed : ∀ o, seed = some o → KnownRecord merged o [])
    (rawLines : List Bytes) :
    (inferJsonlLines M loads seed rawLines).map merged.merge = walkLines loads rawLines merged := by
  have hnew := merge_new hmerged.started
  have hf : (InferenceFilter.new seed true).Sound (merged.merge .new) := by
    rw [hnew]
    exact .new hseed true
  rw [inferJsonlLines, inferLinesLoop_merge hdecode hmerged.checked hf, hnew]

/-! ### Reading a file -/

/-- No line is too long, and walking the lines from one state ends in the other. -/
def ReadsTo (loads : Bytes → Except PyError Value) (limit : ℕ) (rawLines : List Bytes)
    (s t : InferenceState) :
    Prop := WithinLimit limit rawLines ∧ walkLines loads rawLines s = .ok t

section ReadsTo

variable {raw : Bytes} {rawLines : List Bytes} {s t : InferenceState}

/-- Lines read to a state when the first one fits the limit and walks, and the others read on from
there. -/
theorem readsTo_cons : ReadsTo loads limit (raw :: rawLines) s t ↔
    raw.length ≤ limit ∧ ∃ mid, walkLine loads s raw = .ok mid ∧
      ReadsTo loads limit rawLines mid t := by
  rw [ReadsTo, WithinLimit, List.forall_mem_cons, walkLines, List.foldlM_cons, bind_eq_ok_iff]
  constructor
  · rintro ⟨⟨hraw, hrest⟩, mid, hmid, h⟩
    exact ⟨hraw, mid, hmid, hrest, h⟩
  · rintro ⟨hraw, mid, hmid, hrest, h⟩
    exact ⟨⟨hraw, hrest⟩, mid, hmid, h⟩

/-- Lines read in two parts pass through a state between them. -/
theorem readsTo_append {first rest : List Bytes} : ReadsTo loads limit (first ++ rest) s t ↔
    ∃ mid, ReadsTo loads limit first s mid ∧ ReadsTo loads limit rest mid t := by
  rw [ReadsTo, WithinLimit, List.forall_mem_append, walkLines_append, bind_eq_ok_iff]
  constructor
  · rintro ⟨⟨hfirst, hrest⟩, mid, hmid, h⟩
    exact ⟨mid, ⟨hfirst, hmid⟩, hrest, h⟩
  · rintro ⟨mid, ⟨hfirst, hmid⟩, hrest, h⟩
    exact ⟨⟨hfirst, hrest⟩, mid, hmid, h⟩

/-- The records of lines are objects. -/
theorem isDict_of_mapM {records : List LineRecord}
    (h : rawLines.mapM (jsonlRecord loads) = .ok records) :
    ∀ value ∈ records.filterMap LineRecord.value?, value.isDict = true := by
  have hrecords := mapM_eq_ok_iff.mp h
  clear h
  induction hrecords with
  | nil => exact fun _ h => (nomatch h)
  | @cons raw r _ _ hread _ ih =>
    cases r with
    | record value => exact List.forall_mem_cons.mpr ⟨isDict_of_jsonlRecord hread, ih⟩
    | _ => exact ih

/-- Lines are walked where they can all be read and their records walked. -/
theorem walkLines_eq_ok_iff : walkLines loads rawLines s = .ok t ↔
    ∃ records, rawLines.mapM (jsonlRecord loads) = .ok records ∧
      walkValues (records.filterMap LineRecord.value?) s = .ok t := by
  induction rawLines generalizing s with
  | nil =>
    refine ⟨fun h => ⟨[], rfl, h⟩, ?_⟩
    rintro ⟨records, hrecords, h⟩
    cases hrecords
    exact h
  | cons raw rawLines ih =>
    have hcons : ∀ r : LineRecord, ∀ records,
        walkValues ((r :: records).filterMap LineRecord.value?) s =
        walkValues r.value?.toList s >>= walkValues (records.filterMap LineRecord.value?) := by
      intro r records
      cases r with
      | record value =>
        simp only [LineRecord.value?, Option.toList, walkValues, List.filterMap_cons,
          List.foldlM_cons,
          List.foldlM_nil, bind_pure]
        rfl
      | _ => rfl
    rw [walkLines, List.foldlM_cons, bind_eq_ok_iff, List.mapM_cons]
    constructor
    · rintro ⟨mid, hmid, h⟩
      obtain ⟨r, hread, -⟩ := bind_eq_ok_iff.mp hmid
      obtain ⟨records, hrecords, hwalk⟩ := ih.mp h
      refine ⟨r :: records, by rw [hread, hrecords]; rfl, ?_⟩
      rw [hcons, ← walkLine_eq hread, hmid]
      exact hwalk
    · rintro ⟨all, hall, h⟩
      obtain ⟨r, hread, hall⟩ := bind_eq_ok_iff.mp hall
      obtain ⟨records, hrecords, hall⟩ := bind_eq_ok_iff.mp hall
      cases hall
      rw [hcons, ← walkLine_eq hread] at h
      obtain ⟨mid, hmid, h⟩ := bind_eq_ok_iff.mp h
      exact ⟨mid, hmid, ih.mpr ⟨records, hrecords, h⟩⟩

end ReadsTo

/-- The scan in one process reads the file to its end. -/
theorem inferSerially_eq_ok_iff {data : Bytes} {t : InferenceState} :
    inferSerially M loads limit data = .ok t ↔ ReadsTo loads limit (lines data) .new t := by
  have hf : (InferenceFilter.new none false).Sound .new := .new (fun o ho => by cases ho) false
  rw [inferSerially, bind_eq_ok_iff, ReadsTo, walkLines_eq_ok_iff]
  constructor
  · rintro ⟨rawLines, hlines, h⟩
    obtain ⟨records, hrecords, hscan⟩ := bind_eq_ok_iff.mp h
    obtain ⟨hwithin, rfl⟩ := iterLines_eq_ok_iff.mp hlines
    refine ⟨hwithin, records, hrecords, ?_⟩
    rw [← inferRecordsLoop_eq (isDict_of_mapM hrecords) hf]
    exact hscan
  · rintro ⟨hwithin, records, hrecords, h⟩
    refine ⟨lines data, iterLines_eq_ok_iff.mpr ⟨hwithin, rfl⟩,
      bind_eq_ok_iff.mpr ⟨records, hrecords, ?_⟩⟩
    rw [inferRecords, inferRecordsLoop_eq (isDict_of_mapM hrecords) hf]
    exact h

/-! ### Learning a prefix -/

/-- What learning a file's prefix leaves to read, or that the file cannot be read. -/
def LearnsTo (loads : Bytes → Except PyError Value) (limit : ℕ) (bs : Bytes)
    (s : InferenceState) (offset : ℕ) :
    Except PyError (InferenceState × InferenceFilter × ℕ) → Prop
  | .error _ => ∀ t, ¬ ReadsTo loads limit (lines bs) s t
  | .ok (s', f', stop) => f'.Sound s' ∧ s'.Underway ∧ ∃ k ≤ bs.length, stop = offset + k ∧
      ∀ t, ReadsTo loads limit (lines bs) s t ↔ ReadsTo loads limit (lines (bs.drop k)) s' t

/-- A line that was read, and what comes after it. -/
theorem LearnsTo.after {bs : Bytes} {s mid : InferenceState} {offset n : ℕ} (hn : n ≤ bs.length)
    (hread : ∀ t, ReadsTo loads limit (lines bs) s t ↔
      ReadsTo loads limit (lines (bs.drop n)) mid t)
    {x : Except PyError (InferenceState × InferenceFilter × ℕ)}
    (h : LearnsTo loads limit (bs.drop n) mid (offset + n) x) :
    LearnsTo loads limit bs s offset x := by
  cases x with
  | error e => exact fun t ht => h t ((hread t).mp ht)
  | ok result =>
    obtain ⟨hsound, hunderway, k, hk, hstop, hrest⟩ := h
    rw [List.length_drop] at hk
    refine ⟨hsound, hunderway, n + k, by omega, by omega, fun t => ?_⟩
    rw [hread t, hrest t, List.drop_drop]

/-- **The learning loop**: with a sound filter it reads its lines to the state that walking them
gives. -/
theorem learnLoop_spec (n : ℕ) : ∀ {bs : Bytes} {remaining learned : ℕ} {f : InferenceFilter}
    {s : InferenceState} {offset : ℕ}, bs.length ≤ n → bs.length ≤ remaining →
    f.Sound s → s.Underway →
      LearnsTo loads limit bs s offset (learnLoop loads limit remaining bs learned f s offset) := by
  induction n with
  | zero =>
    intro bs remaining learned f s offset hn _ hf hs
    obtain rfl : bs = [] := List.length_eq_zero_iff.mp (Nat.le_zero.mp hn)
    have hdone : LearnsTo loads limit [] s offset (.ok (s, f, offset)) :=
      ⟨hf, hs, 0, le_rfl, rfl, fun t => by rw [List.drop_nil]⟩
    rw [learnLoop, dif_pos (readline_eq_nil_iff.mpr rfl), ite_self]
    exact hdone
  | succ n ih =>
    intro bs remaining learned f s offset hn hle hf hs
    have hdone : LearnsTo loads limit bs s offset (.ok (s, f, offset)) :=
      ⟨hf, hs, 0, Nat.zero_le _, rfl, fun t => by rw [List.drop_zero]⟩
    rw [learnLoop]
    by_cases hnil : bs = []
    · rw [dif_pos (readline_eq_nil_iff.mpr hnil), ite_self]
      exact hdone
    have hlength := List.length_pos_of_ne_nil hnil
    rw [if_neg (by omega), dif_neg fun h => hnil (readline_eq_nil_iff.mp h)]
    by_cases hlimit : limit < (readline (limit + 1) bs).length
    · -- the line is too long
      rw [if_pos hlimit]
      intro t ht
      rw [lines_eq_cons hnil, readsTo_cons] at ht
      exact absurd ht.1 (not_le.mpr (length_readline.mp hlimit))
    · rw [if_neg hlimit]
      have hline := readline_eq_of_length (Nat.le_of_not_lt hlimit)
      have hpos := List.length_pos_of_ne_nil (firstLine_ne_nil hnil)
      have hfirst := length_firstLine_le bs
      have hshort : (firstLine bs).length ≤ limit := by
        rw [← hline]
        exact Nat.le_of_not_lt hlimit
      have hdrop : (bs.drop (firstLine bs).length).length = bs.length - (firstLine bs).length :=
        List.length_drop
      rw [hline]
      have hstep : ∀ mid, walkLine loads s (firstLine bs) = .ok mid → ∀ t,
          ReadsTo loads limit (lines bs) s t ↔
            ReadsTo loads limit (lines (bs.drop (firstLine bs).length)) mid t := by
        intro mid hmid t
        rw [lines_eq_cons hnil, readsTo_cons]
        refine ⟨?_, fun h => ⟨hshort, mid, hmid, h⟩⟩
        rintro ⟨-, mid', hmid', h⟩
        rw [hmid] at hmid'
        cases hmid'
        exact h
      have hfails : ∀ e, walkLine loads s (firstLine bs) = .error e → ∀ t,
          ¬ ReadsTo loads limit (lines bs) s t := by
        intro e he t ht
        rw [lines_eq_cons hnil, readsTo_cons] at ht
        obtain ⟨-, mid, hmid, -⟩ := ht
        rw [he] at hmid
        cases hmid
      cases hread : jsonlRecord loads (firstLine bs) with
      | error e => exact hfails e (by rw [walkLine, hread]; rfl)
      | ok r =>
        have hskip : walkLine loads s (firstLine bs) = .ok s → LearnsTo loads limit bs s offset
            (learnLoop loads limit (remaining - (firstLine bs).length)
              (bs.drop (firstLine bs).length) learned f s
              (offset + (firstLine bs).length)) := fun hwalk =>
          .after hfirst (hstep s hwalk) (ih (by omega) (by omega) hf hs)
        cases r with
        | blank => exact hskip (by rw [walkLine, hread]; rfl)
        | skipped => exact hskip (by rw [walkLine, hread]; rfl)
        | record value =>
          have hsame : walkLine loads s (firstLine bs) = walk [] [] value s := by
            rw [walkLine, hread]
            rfl
          cases hwalk : walk [] [] value s with
          | error e =>
            simp only [bind, Except.bind, hwalk]
            exact hfails e (hsame.trans hwalk)
          | ok mid =>
            have hmid := hs.noted (walk_noted isLevel_nil value hwalk)
            have hlearned := hf.learn (isDict_of_jsonlRecord hread) hwalk
            refine .after hfirst (hstep mid (hsame.trans hwalk)) ?_
            simp only [bind, Except.bind, hwalk]
            split_ifs
            · exact ⟨hlearned, hmid, 0, Nat.zero_le _, rfl, fun t => by rw [List.drop_zero]⟩
            · exact ih (by omega) (by omega) hlearned hmid

/-- What a learned prefix makes known, and what it leaves of the file. -/
theorem learnJsonlPrefix_spec {data : Bytes} {stop : ℕ} (hstop : data.length ≤ stop)
    {merged : InferenceState}
    {seed : Option ObservedValue} {prefixEnd : ℕ}
    (h : learnJsonlPrefix loads limit data stop = .ok (merged, seed, prefixEnd)) :
    merged.Underway ∧ (∀ o, seed = some o → KnownRecord merged o []) ∧ prefixEnd ≤ data.length ∧
      ∀ t, ReadsTo loads limit (lines data) .new t ↔
        ReadsTo loads limit (lines (data.drop prefixEnd)) merged t := by
  obtain ⟨⟨s, f, offset⟩, hloop, h⟩ := bind_eq_ok_iff.mp h
  cases h
  have hf : (InferenceFilter.new none false).Sound .new := .new (fun o ho => by cases ho) false
  have hspec :=
    @learnLoop_spec loads limit data.length data stop 0 _ .new 0 le_rfl hstop hf underway_new
  rw [hloop] at hspec
  obtain ⟨hsound, hunderway, k, hk, hoffset, hrest⟩ := hspec
  rw [Nat.zero_add] at hoffset
  subst hoffset
  exact ⟨hunderway, fun o ho => hsound.snapshot ho, hk, hrest⟩

/-- A file that can be read has a prefix that can be learned. -/
theorem exists_learnJsonlPrefix {data : Bytes} {stop : ℕ} (hstop : data.length ≤ stop)
    {t : InferenceState}
    (h : ReadsTo loads limit (lines data) .new t) :
    ∃ result, learnJsonlPrefix loads limit data stop = .ok result := by
  have hf : (InferenceFilter.new none false).Sound .new := .new (fun o ho => by cases ho) false
  have hspec :=
    @learnLoop_spec loads limit data.length data stop 0 _ .new 0 le_rfl hstop hf underway_new
  cases hloop : learnLoop loads limit stop data 0 (.new none false) .new 0 with
  | error e =>
    rw [hloop] at hspec
    exact absurd h (hspec t)
  | ok result =>
    rw [learnJsonlPrefix, hloop]
    exact ⟨_, rfl⟩

/-! ### The ranges that are left -/

/-- A range that ends after the resumed offset begins there at the earliest. -/
theorem resumeAt_cons_of_lt {n a b : ℕ} (h : n < b) (ranges : List (ℕ × ℕ)) :
    resumeAt n ((a, b) :: ranges) = (max a n, b) :: resumeAt n ranges := by
  simp [resumeAt, h]

/-- A range that ends before the resumed offset is done. -/
theorem resumeAt_cons_of_le {n a b : ℕ} (h : b ≤ n) (ranges : List (ℕ × ℕ)) :
    resumeAt n ((a, b) :: ranges) = resumeAt n ranges := by
  simp [resumeAt, h]

theorem betweenBounds_pair {a b : ℕ} (h : a < b) : betweenBounds [a, b] = [(a, b)] :=
  betweenBounds_cons h []

/-- The ranges of bounds that tile the rest of a file. -/
abbrev rangesFrom (data : Bytes) (a : ℕ) (bounds : List ℕ) : List (ℕ × ℕ) :=
  betweenBounds (a :: bounds ++ [data.length])

/-- Ranges that all begin later are left as they are. -/
theorem Shred.Tiles.resumeAt_of_le {data : Bytes} {a n : ℕ} {bounds : List ℕ}
    (h : Tiles data a bounds)
    (hn : n ≤ a) : resumeAt n (rangesFrom data a bounds) = rangesFrom data a bounds := by
  induction h with
  | @last a ha =>
    have hrange : rangesFrom data a [] = [(a, data.length)] := betweenBounds_pair ha
    rw [hrange, resumeAt_cons_of_lt (by omega), max_eq_left hn]
    rfl
  | @cut a b bounds hab hb hends rest ih =>
    have hranges : rangesFrom data a (b :: bounds) = (a, b) :: rangesFrom data b bounds :=
      betweenBounds_cons hab _
    rw [hranges, resumeAt_cons_of_lt (by omega), ih (by omega), max_eq_left hn]

/-- The ranges that are left tile what is left of the file. -/
theorem Shred.Tiles.resumeAt {data : Bytes} {a n : ℕ} {bounds : List ℕ} (h : Tiles data a bounds)
    (ha : a ≤ n)
    (hn : n < data.length) : ∃ bounds', Tiles data n bounds' ∧
      Haute.resumeAt n (rangesFrom data a bounds) = rangesFrom data n bounds' := by
  induction h with
  | @last a hlast =>
    have hrange : rangesFrom data a [] = [(a, data.length)] := betweenBounds_pair hlast
    have hrest : rangesFrom data n [] = [(n, data.length)] := betweenBounds_pair hn
    refine ⟨[], .last hn, ?_⟩
    rw [hrange, hrest, resumeAt_cons_of_lt hn, max_eq_right ha]
    rfl
  | @cut a b bounds hab hb hends rest ih =>
    have hranges : rangesFrom data a (b :: bounds) = (a, b) :: rangesFrom data b bounds :=
      betweenBounds_cons hab _
    rcases Nat.lt_or_ge n b with hnb | hbn
    · refine ⟨b :: bounds, .cut hnb hb ?_ rest, ?_⟩
      · -- the rest of a piece ends where the piece does
        have hpiece : (data.drop n).take (b - n) = ((data.drop a).take (b - a)).drop (n - a) := by
          rw [List.drop_take, List.drop_drop, Nat.add_sub_cancel' ha,
            Nat.sub_sub_sub_cancel_right ha]
        rw [hpiece]
        refine (hends.drop (n - a)).resolve_left fun hnil => ?_
        have hlength := congrArg List.length hnil
        simp only [List.length_drop, List.length_take, List.length_nil] at hlength
        omega
      · have hrest : rangesFrom data n (b :: bounds) = (n, b) :: rangesFrom data b bounds :=
          betweenBounds_cons hnb _
        rw [hranges, hrest, resumeAt_cons_of_lt hnb, rest.resumeAt_of_le hnb.le, max_eq_right ha]
    · obtain ⟨bounds', htiles, heq⟩ := ih hbn
      exact ⟨bounds', htiles, by rw [hranges, resumeAt_cons_of_le hbn, heq]⟩

/-- Nothing is left of a file that was read to its end. -/
theorem Shred.Tiles.resumeAt_length {data : Bytes} {a : ℕ} {bounds : List ℕ}
    (h : Tiles data a bounds) :
    Haute.resumeAt data.length (rangesFrom data a bounds) = [] := by
  induction h with
  | @last a ha =>
    have hrange : rangesFrom data a [] = [(a, data.length)] := betweenBounds_pair ha
    rw [hrange, resumeAt_cons_of_le le_rfl]
    rfl
  | @cut a b bounds hab hb hends rest ih =>
    have hranges : rangesFrom data a (b :: bounds) = (a, b) :: rangesFrom data b bounds :=
      betweenBounds_cons hab _
    rw [hranges, resumeAt_cons_of_le hb.le, ih]

/-- The last range ends where the file does. -/
theorem Shred.Tiles.getLastD_snd {data : Bytes} {a : ℕ} {bounds : List ℕ} (h : Tiles data a bounds)
    (r : ℕ × ℕ) : ((rangesFrom data a bounds).getLastD r).2 = data.length := by
  induction h generalizing r with
  | @last a ha =>
    have hrange : rangesFrom data a [] = [(a, data.length)] := betweenBounds_pair ha
    rw [hrange]
    rfl
  | @cut a b bounds hab hb hends rest ih =>
    have hranges : rangesFrom data a (b :: bounds) = (a, b) :: rangesFrom data b bounds :=
      betweenBounds_cons hab _
    rw [hranges, List.getLastD_cons, ih]

/-- More than one range are cuts of the file. -/
theorem exists_tiles {chunk : ℕ} {data : Bytes} {ranges : List (ℕ × ℕ)}
    (h : jsonlByteRanges limit chunk data = .ok ranges) (hranges : 1 < ranges.length) :
    ∃ cuts, Tiles data 0 cuts ∧ ranges = rangesFrom data 0 cuts := by
  unfold jsonlByteRanges at h
  split_ifs at h with hchunk hempty hsmall
  · cases h
    cases hranges
  · cases h
    exact absurd hranges (lt_irrefl 1)
  · obtain ⟨cuts, hcuts, h⟩ := bind_eq_ok_iff.mp h
    cases h
    exact ⟨cuts, cutsFrom_tiles _ le_rfl (Nat.zero_le _) (Nat.pos_of_ne_zero hempty) hcuts, rfl⟩

/-! ### A converter -/

mutual

/-- Strict conversion, dates spelled as text apart. -/
def converts : NativeType → Value → Bool
  | .scalar type, value => value.pyType = type || type = .float && value.pyType = .int
  | .jsonInt, .int n => -2 ^ 63 ≤ n && n < 2 ^ 63
  | .object fields, .dict entries => entries.all fun entry => convertsField fields entry.1 entry.2
  | .array item nonempty empty, .list items =>
    !(nonempty && items.isEmpty) && (!empty || items.isEmpty) && items.all fun value =>
      converts item value
  | .union choices, value => convertsAny choices value
  | _, _ => false

/-- The field of the key takes the value. -/
def convertsField : List (String × NativeType) → String → Value → Bool
  | [], _, _ => false
  | (name, type) :: fields, key, value => name = key && converts type value || convertsField
    fields key value

def convertsAny : List NativeType → Value → Bool
  | [], _ => false
  | type :: choices, value => converts type value || convertsAny choices value

end

/-- A field that converts is one of the record type's. -/
theorem exists_of_convertsField {fields : List (String × NativeType)} {key : String} {value : Value}
    (h : convertsField fields key value = true) :
    ∃ type, (key, type) ∈ fields ∧ converts type value = true := by
  induction fields with
  | nil => cases h
  | cons field fields ih =>
    obtain ⟨name, type⟩ := field
    rw [convertsField, Bool.or_eq_true, Bool.and_eq_true, decide_eq_true_eq] at h
    rcases h with ⟨rfl, h⟩ | h
    · exact ⟨type, List.mem_cons_self, h⟩
    · obtain ⟨type', hmem, h⟩ := ih h
      exact ⟨type', List.mem_cons_of_mem _ hmem, h⟩

/-- What converts to one of several types converts to a type among them. -/
theorem exists_of_convertsAny {choices : List NativeType} {value : Value}
    (h : convertsAny choices value = true) :
    ∃ type ∈ choices, converts type value = true := by
  induction choices with
  | nil => cases h
  | cons type choices ih =>
    rw [convertsAny, Bool.or_eq_true] at h
    rcases h with h | h
    · exact ⟨type, List.mem_cons_self, h⟩
    · obtain ⟨type', hmem, h⟩ := ih h
      exact ⟨type', List.mem_cons_of_mem _ hmem, h⟩

/-- Strict conversion of what a parser reads. -/
def strictConverter (loads : Bytes → Except PyError Value) : Converter where
  convert := converts
  decode type raw :=
    match loads (stripBytes raw) with
    | .ok value => converts type value
    | .error _ => false
  convert_scalar type value h := by
    rw [converts, Bool.or_eq_true, Bool.and_eq_true, decide_eq_true_eq, decide_eq_true_eq,
      decide_eq_true_eq] at h
    rcases h with h | ⟨rfl, h⟩
    · cases type with
      | float => exact .inl h
      | date => exact .inl h
      | _ => exact h
    · exact .inr h
  convert_jsonInt value h := by
    cases value with
    | int => rfl
    | _ => cases h
  convert_object fields value h := by
    cases value with
    | dict entries =>
      rw [converts, List.all_eq_true] at h
      exact ⟨entries, rfl, fun entry hentry => exists_of_convertsField (h entry hentry)⟩
    | _ => cases h
  convert_array item nonempty empty value h := by
    cases value with
    | list items =>
      simp only [converts, Bool.and_eq_true, List.all_eq_true] at h
      obtain ⟨⟨hnonempty, hempty⟩, hitems⟩ := h
      refine ⟨items, rfl, ?_, ?_, hitems⟩
      · rintro rfl rfl
        cases hnonempty
      · rintro rfl
        simpa using hempty
    | _ => cases h
  convert_union choices value h := exists_of_convertsAny (by rwa [converts] at h)

/-- The converter that decodes first and then checks agrees with the decoder. -/
theorem strictConverter_decodes (loads : Bytes → Except PyError Value) :
    (strictConverter loads).Decodes loads := by
  intro type raw _ h
  unfold strictConverter at h ⊢
  dsimp only at h ⊢
  cases hread : loads (stripBytes raw) with
  | error e =>
    rw [hread] at h
    cases h
  | ok value =>
    rw [hread] at h
    exact ⟨value, rfl, h⟩

/-! ### A file of more than the sample -/

/-- `orjson.loads` where it reads `{}` and `{"a":5}`. -/
def loadsField (bs : Bytes) : Except PyError Value :=
  if bs = [123, 125] then .ok (.dict [])
  else if bs = [123, 34, 97, 34, 58, 53, 125] then .ok (.dict [("a", .int 5)])
  else .error (.jsonDecode "unexpected character" 0)

/-- So many lines of an empty object, and a line of an object with a field. -/
def objectLines (n : ℕ) : Bytes :=
  (List.replicate n [123, 125, newline]).flatten ++ [123, 34, 97, 34, 58, 53, 125, newline]

theorem objectLines_succ (n : ℕ) : objectLines (n + 1) =
    123 :: 125 :: newline :: objectLines n := rfl

theorem length_objectLines (n : ℕ) : (objectLines n).length = 3 * n + 8 := by
  induction n with
  | zero => rfl
  | succ n ih =>
    rw [objectLines_succ, List.length_cons, List.length_cons, List.length_cons, ih]
    omega

theorem drop_objectLines (k n : ℕ) : (objectLines (n + k)).drop (3 * k) = objectLines n := by
  induction k with
  | zero => rfl
  | succ k ih =>
    rw [← Nat.add_assoc, objectLines_succ, Nat.mul_succ]
    exact ih

theorem lines_objectLines (n : ℕ) : lines (objectLines n)
    = List.replicate n [123, 125, newline] ++ [[123, 34, 97, 34, 58, 53, 125, newline]] := by
  induction n with
  | zero => decide
  | succ n ih =>
    rw [objectLines_succ, lines, if_neg (by decide), lines, if_neg (by decide),
      lines, if_pos rfl, ih]
    rfl

theorem readline_objectLines (n : ℕ) : readline 101 (objectLines (n + 1)) =
    [123, 125, newline] := rfl

/-- An empty object is learned and shows nothing new. -/
theorem learnLoop_objectLines_succ {m remaining : ℕ} (hremaining : remaining ≠ 0)
    (learned offset : ℕ)
    (f : InferenceFilter) : learnLoop loadsField 100 remaining (objectLines (m + 1))
    learned f .new offset
      = if learned + 1 = initialSampleRecords then .ok (.new, f.learn (.dict []), offset + 3)
        else learnLoop loadsField 100 (remaining - 3) (objectLines m) (learned + 1)
          (f.learn (.dict [])) .new
          (offset + 3) := by
  have hread : jsonlRecord loadsField [123, 125, newline] = .ok (.record (.dict [])) := by rfl
  have hwalk : walk [] [] (.dict []) .new = .ok .new := by rfl
  rw [learnLoop, if_neg hremaining,
    dif_neg (by rw [readline_objectLines]; exact List.cons_ne_nil _ _),
    readline_objectLines, if_neg (by decide), hread]
  simp only [bind, Except.bind, hwalk]
  rfl

/-- The sample is learned from as many lines as it has records, and no more is read. -/
theorem learnLoop_objectLines (n k remaining learned offset : ℕ) (f : InferenceFilter)
    (hlearned : learned + (k + 1) = initialSampleRecords) (hremaining : 3 * (k + 1) ≤ remaining) :
    ∃ f', learnLoop loadsField 100 remaining (objectLines (n + (k + 1))) learned f .new offset
      = .ok (.new, f', offset + 3 * (k + 1)) := by
  induction k generalizing remaining learned offset f with
  | zero =>
    refine ⟨f.learn (.dict []), ?_⟩
    rw [learnLoop_objectLines_succ (by omega), if_pos hlearned]
  | succ k ih =>
    rw [← Nat.add_assoc, learnLoop_objectLines_succ (by omega), if_neg (by omega)]
    obtain ⟨f', hf'⟩ :=
      ih (remaining - 3) (learned + 1) (offset + 3) (f.learn (.dict [])) (by omega) (by omega)
    refine ⟨f', hf'.trans ?_⟩
    congr 3
    omega

theorem walkLines_objectLines (n : ℕ) : walkLines loadsField (lines (objectLines n)) .new
    = walk [] [] (.dict [("a", .int 5)]) .new := by
  have hline : walkLine loadsField .new [123, 125, newline] = .ok .new := by rfl
  rw [lines_objectLines]
  induction n with
  | zero => rfl
  | succ n ih =>
    rw [List.replicate_succ, List.cons_append, walkLines, List.foldlM_cons, hline]
    exact ih

/-! ### In parallel -/

section InParallel

variable (hdecode : M.Decodes loads) {seed : Option ObservedValue} {data : Bytes}

include hdecode

/-- Ranges are inferred apart and merged as their lines are walked on. -/
theorem inferRanges_eq_ok_iff {ranges : List (ℕ × ℕ)} {pieces : List (List Bytes)}
    (hpieces : List.Forall₂ (fun range piece => ∀ ls, iterRangeLines limit data range = .ok ls ↔
      WithinLimit limit piece ∧ ls = piece) ranges pieces)
    {merged t : InferenceState} (hmerged : merged.Underway)
    (hseed : ∀ o, seed = some o → KnownRecord merged o []) :
    (ranges.foldlM (fun merged range => do
      let s ← inferJsonlRange M loads limit seed data range
      return merged.merge s) merged) = .ok t ↔ ReadsTo loads limit pieces.flatten merged t := by
  induction hpieces generalizing merged with
  | nil => simp [ReadsTo, WithinLimit, walkLines, pure, Except.pure]
  | @cons range piece ranges pieces hpiece _ ih =>
    have hrange : ∀ mid, (do
        let s ← inferJsonlRange M loads limit seed data range
        return merged.merge s) = .ok mid ↔ ReadsTo loads limit piece merged mid := by
      intro mid
      rw [ReadsTo, ← inferJsonlLines_merge hdecode hmerged hseed piece,
        map_eq_ok_iff, bind_eq_ok_iff]
      constructor
      · rintro ⟨s, hs, hmid⟩
        obtain ⟨ls, hls, hs⟩ := bind_eq_ok_iff.mp hs
        obtain ⟨hwithin, rfl⟩ := (hpiece ls).mp hls
        exact ⟨hwithin, s, hs, Except.ok.inj hmid⟩
      · rintro ⟨hwithin, s, hs, hmid⟩
        exact ⟨s, bind_eq_ok_iff.mpr ⟨piece, (hpiece piece).mpr ⟨hwithin, rfl⟩, hs⟩,
          congrArg _ hmid⟩
    rw [List.foldlM_cons, List.flatten_cons, readsTo_append, bind_eq_ok_iff]
    refine exists_congr fun mid => ?_
    rw [hrange mid]
    refine and_congr_right fun hmid => ?_
    have hnoted := walkLines_noted hmid.2
    exact ih (hmerged.noted hnoted) fun o ho =>
      .mono (fun _ => holds_of_noted hnoted) o (hseed o ho)

/-- Inference over several ranges gives what reading all lines gives, for any ranges of the file's
own making. -/
theorem inferJsonlInParallel_eq_ok_iff {chunk : ℕ} {ranges : List (ℕ × ℕ)}
    (h : jsonlByteRanges limit chunk data = .ok ranges) (hranges : 1 < ranges.length)
    {t : InferenceState} :
    inferJsonlInParallel M loads limit data ranges = .ok t ↔
      ReadsTo loads limit (lines data) .new t := by
  obtain ⟨cuts, htiles, rfl⟩ := exists_tiles h hranges
  rw [inferJsonlInParallel, htiles.getLastD_snd]
  -- what a learned prefix leaves is what its ranges have
  have hrest : ∀ merged seed prefixEnd,
      learnJsonlPrefix loads limit data data.length = .ok (merged, seed, prefixEnd) →
        ((resumeAt prefixEnd (rangesFrom data 0 cuts)).foldlM (fun merged range => do
          let s ← inferJsonlRange M loads limit seed data range
          return merged.merge s) merged = .ok t ↔ ReadsTo loads limit (lines data) .new t) := by
    intro merged seed prefixEnd hlearned
    obtain ⟨hunderway, hseed, hend, hreads⟩ := learnJsonlPrefix_spec le_rfl hlearned
    rw [hreads t]
    rcases Nat.lt_or_eq_of_le hend with hlt | rfl
    · obtain ⟨bounds, hbounds, hresume⟩ := htiles.resumeAt (Nat.zero_le _) hlt
      obtain ⟨pieces, hflatten, hpieces⟩ := @Tiles.lines_iff limit _ _ _ hbounds
      rw [hresume, inferRanges_eq_ok_iff hdecode hpieces hunderway hseed, hflatten]
    · rw [htiles.resumeAt_length, List.drop_length]
      exact inferRanges_eq_ok_iff hdecode .nil hunderway hseed
  constructor
  · intro h
    obtain ⟨⟨merged, seed, prefixEnd⟩, hlearned, h⟩ := bind_eq_ok_iff.mp h
    exact (hrest _ _ _ hlearned).mp h
  · intro h
    obtain ⟨⟨merged, seed, prefixEnd⟩, hlearned⟩ := exists_learnJsonlPrefix (le_refl data.length) h
    exact bind_eq_ok_iff.mpr ⟨_, hlearned, (hrest _ _ _ hlearned).mpr h⟩

/-- **Parallel inference with learned skipping is serial inference**: cut into ranges, with a
learned prefix shared by all, a file comes to the state that one scan of its records comes to, and a
file that the one refuses the other does too. -/
theorem inferJsonl_eq_ok_iff {chunk : ℕ} (hchunk : 0 < chunk) (inParallel : Bool)
    (t : InferenceState) :
    inferJsonl M loads limit chunk inParallel data = .ok t ↔
      inferSerially M loads limit data = .ok t := by
  unfold inferJsonl
  split_ifs
  · rw [bind_eq_ok_iff]
    cases hranges : jsonlByteRanges limit chunk data with
    | error e =>
      -- a cut is refused in a line that a scan refuses
      have hwithin := not_withinLimit_of_error hchunk hranges
      refine iff_of_false (fun ⟨_, h, _⟩ => nomatch h) fun h => ?_
      exact hwithin (inferSerially_eq_ok_iff.mp h).1
    | ok ranges =>
      have hsame : (if 1 < ranges.length then inferJsonlInParallel M loads limit data ranges
          else inferSerially M loads limit data) = .ok t ↔ inferSerially M loads limit data =
            .ok t := by
        split_ifs with hmany
        · rw [inferJsonlInParallel_eq_ok_iff hdecode hranges hmany, inferSerially_eq_ok_iff]
        · exact Iff.rfl
      rw [← hsame]
      refine ⟨?_, fun h => ⟨ranges, rfl, h⟩⟩
      rintro ⟨_, h, hscan⟩
      cases h
      exact hscan
  · exact Iff.rfl

end InParallel

/-- After ten thousand empty objects the prefix stops, and two ranges are left: one of a line that
is known, and one of a field that was not seen. -/
theorem inferJsonl_objectLines :
    (∃ ranges, jsonlByteRanges 100 30000 (objectLines 10001) = .ok ranges ∧ 1 < ranges.length) ∧
    (∃ seed stop, learnJsonlPrefix loadsField 100 (objectLines 10001) 30011 =
      .ok (.new, seed, stop) ∧
      stop < 30011) ∧
    inferJsonl (strictConverter loadsField) loadsField 100 30000 true (objectLines 10001)
      = walk [] [] (.dict [("a", .int 5)]) .new := by
  have hlength : (objectLines 10001).length = 30011 := length_objectLines 10001
  refine ⟨⟨[(0, 30003), (30003, 30011)], ?_, by decide⟩, ?_, ?_⟩
  · have hcut : (objectLines 10001).drop 30000 = objectLines 1 := drop_objectLines 10000 1
    rw [jsonlByteRanges, dif_pos (by decide), hlength, if_neg (by decide),
      if_neg (by decide), cutsFrom,
      dif_pos (by rw [hlength]; decide)]
    have hline : readline 101 (objectLines 1) = [123, 125, newline] := rfl
    simp only [hcut, hlength, hline]
    rw [cutsFrom, dif_neg (by rw [hlength]; decide)]
    rfl
  · obtain ⟨f, hf⟩ := learnLoop_objectLines 1 9999 30011 0 0 (.new none false) rfl (by decide)
    exact ⟨f.snapshot, 30000, by rw [learnJsonlPrefix, hf]; rfl, by decide⟩
  · have hwithin : WithinLimit 100 (lines (objectLines 10001)) := by
      rw [lines_objectLines]
      intro l hl
      rcases List.mem_append.mp hl with hl | hl
      · rw [List.eq_of_mem_replicate hl]
        decide
      · rw [List.mem_singleton.mp hl]
        decide
    obtain ⟨t, ht⟩ : ∃ t, walk [] [] (.dict [("a", .int 5)]) .new = .ok t := ⟨_, rfl⟩
    have hserial : inferSerially (strictConverter loadsField) loadsField 100
        (objectLines 10001) = .ok t :=
      inferSerially_eq_ok_iff.mpr ⟨hwithin, (walkLines_objectLines 10001).trans ht⟩
    rw [ht]
    exact (inferJsonl_eq_ok_iff (strictConverter_decodes loadsField) (by decide) true t).mpr hserial

end Haute
