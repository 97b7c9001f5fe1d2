import Haute.Banding.Rules
import Haute.Data.Decimals
import Haute.Json.Float

/-!
# The banding sidecar

A breakpoint factor is saved as a list of bands, each an upper edge and a label and the
open-ended one last; an edge is written as a number where it reads as one. Reading gives the
bands back as rows with the edges' texts (`bands_readBack`): the same edges, spelled as they were,
with the same labels and in the same order, but for the open-ended band, which comes last.

An edge is spelled by its text in all branches but one: digits that read as an integer are
written as that integer, whose own text they are when they are ASCII digits without a leading
zero and not `-0` (`strOfInt_readInteger`).
-/

namespace Haute.Banding

open Haute.Data

/-- What a sidecar's texts are read with: the value of a decimal digit of another script than
ASCII, `float`, and `str` of what is no text. -/
structure SidecarReaders where
  otherDecimal : Char → Option ℕ
  float : String → Option PyFloat
  str : Value → String

/-- Why a factor is not written or not read. -/
inductive SidecarError where
  /-- Rules must be objects. -/
  | notObject (label : String) (index : ℕ)
  /-- A rule requires its key. -/
  | requiresKey (label : String) (index : ℕ)
  /-- A rule requires its value. -/
  | requiresValue (label key : String) (index : ℕ)
  /-- A rule must map to a JSON scalar value. -/
  | notScalar (label key : String)
  /-- A rule key is there twice. -/
  | duplicateKey (label key : String)
  /-- A rule map is refused. -/
  | refusedMap (error : BandingError)
  /-- Banding rules must be a list. -/
  | notRules (bandingType : String)
  /-- More digits than an integer is read from or written with. -/
  | tooManyDigits
  /-- A band must be an upper edge and a label. -/
  | notBand (index : ℕ)
  /-- Only the last band may be open-ended. -/
  | openEndedEarly
  /-- A band's upper edge must be a number or text. -/
  | notEdge
  deriving DecidableEq

/-- `str(value)`. -/
def strOf (py : SidecarReaders) : Value → String
  | .str s => s
  | v => py.str v

/-! ### Edges -/

/-- The value of a decimal digit, which `\d` matches. -/
def digitValue (py : SidecarReaders) (c : Char) : Option ℕ :=
  if c.isDigit then some (c.toNat - '0'.toNat) else py.otherDecimal c

/-- A text without the sign it begins with. -/
def unsigned (cs : List Char) : List Char := if cs.head? = some '-' then cs.tail else cs

/-- `-?(?:0|[1-9]\d*)`, the whole of the text. -/
def isIntegerText (py : SidecarReaders) (cs : List Char) : Bool :=
  unsigned cs == ['0'] || (unsigned cs).head?.any (fun c => c.isDigit && c ≠ '0') &&
    (unsigned cs).tail.all fun c => (digitValue py c).isSome

/-- `int(text)` of such a text, which has a limit on its digits. -/
def readInteger (py : SidecarReaders) (cs : List Char) : Except SidecarError ℤ :=
  let magnitude : ℕ := (unsigned cs).foldl (fun n c => 10 * n + (digitValue py c).getD 0) 0
  if 4300 < (unsigned cs).length then .error .tooManyDigits
  else .ok (if cs.head? = some '-' then -(magnitude : ℤ) else magnitude)

/-- Whether a float is finite. -/
def isFinite : PyFloat → Bool
  | .finite _ | .negZero => true
  | _ => false

/-- A band's upper edge as its sidecar writes it: a number where its text reads as one. -/
def edgeAsWritten (py : SidecarReaders) (boundary : String) : Except SidecarError Value :=
  if isIntegerText py boundary.toList then do
    let n ← readInteger py boundary.toList
    .ok (.int n)
  else
    match py.float boundary with
    | some number =>
      .ok (if isFinite number ∧ number.repr = boundary then .float number else .str boundary)
    | none => .ok (.str boundary)

/-- A band's upper edge as the editor and the engine hold it: its text. -/
def edgeAsRead : Value → Except SidecarError String
  | .int n => (strOfInt n).mapError fun _ => .tooManyDigits
  | .float x => .ok x.repr
  | .str s => .ok s
  | _ => .error .notEdge

/-! ### Writing -/

/-- The key and the value of one rule row. -/
def ruleEntry (py : SidecarReaders) (keyField valueField label : String) (allowEmptyKey : Bool)
    (index : ℕ) (rule : Value) : Except SidecarError (String × Value) :=
  match rule with
  | .dict fields =>
    let rawKey := Value.getKey fields keyField
    let rawValue := Value.getKey fields valueField
    if rawKey = .none ∨ (rawKey = .str "" ∧ allowEmptyKey = false) then
      .error (.requiresKey label index)
    else
      let key := strOf py rawKey
      if rawValue = .none ∨ rawValue = .str "" then .error (.requiresValue label key index)
      else if !isJsonScalar rawValue then .error (.notScalar label key)
      else .ok (key, rawValue)
  | _ => .error (.notObject label index)

/-- Rule rows as a map from their keys, added to those before them. -/
def compactRuleRows (py : SidecarReaders) (keyField valueField label : String)
    (allowEmptyKey : Bool) :
    ℕ → List (String × Value) → List Value → Except SidecarError (List (String × Value))
  | _, compact, [] => .ok compact
  | index, compact, rule :: rest => do
    let entry ← ruleEntry py keyField valueField label allowEmptyKey index rule
    if entry.1 ∈ Assoc.keys compact then .error (.duplicateKey label entry.1)
    else
      compactRuleRows py keyField valueField label allowEmptyKey (index + 1) (compact ++ [entry])
        rest

/-- A rule map that is one already. -/
def compactRuleMap (bandingType : String) (rules : List (String × Value)) :
    Except SidecarError (List (String × Value)) :=
  ((rules.mapM (expandEntry bandingType)).mapError .refusedMap).map fun _ => rules

/-- A breakpoint factor's bands: one a band in order, the open-ended band last. -/
def bandsForSidecar (py : SidecarReaders) (compact : List (String × Value)) :
    Except SidecarError (List Value) := do
  let bands ← (compact.filter fun e => e.1 ≠ "").mapM fun e => do
    let upper ← edgeAsWritten py e.1
    .ok (Value.dict [("upper", upper), ("label", e.2)])
  match Assoc.get? compact "" with
  | some label => .ok (bands ++ [Value.dict [("label", label)]])
  | none => .ok bands

/-- Whether a key is a setting: what begins with an underscore is the editor's own. -/
def isSetting (key : String) : Bool := key.toList.head? ≠ some '_'

/-- A rule row without the editor's own fields. -/
def stripRow : Value → Value
  | .dict fields => .dict (fields.filter fun e => isSetting e.1)
  | rule => rule

/-- The factor's rules as its sidecar writes them. -/
def compactRules (py : SidecarReaders) (bandingType : String) (rules : Value) :
    Except SidecarError (List (String × Value)) :=
  match rules with
  | .none => .ok []
  | .dict entries => compactRuleMap bandingType entries
  | .list rows =>
    if bandingType = "categorical" then
      compactRuleRows py "value" "assignment" "categorical" false 0 [] (rows.map stripRow)
    else compactRuleRows py "boundary" "label" "breakpoint" true 0 [] (rows.map stripRow)
  | _ => .error (.notRules bandingType)

/-- `str(factor.get("banding") or "")`. -/
def bandingTypeOf (py : SidecarReaders) (factor : List (String × Value)) : String :=
  let banding := Value.getKey factor "banding"
  if banding.truthy then strOf py banding else ""

/-- A factor as its sidecar writes it. -/
def compactBandingFactorForSidecar (py : SidecarReaders) (factor : List (String × Value)) :
    Except SidecarError (List (String × Value)) := do
  let result := factor.filter fun e => isSetting e.1
  let bandingType := bandingTypeOf py result
  if bandingType ≠ "categorical" ∧ bandingType ≠ "breakpoints" then
    match Value.getKey result "rules" with
    | .list rows => .ok (Assoc.set result "rules" (.list (rows.map stripRow)))
    | _ => .ok result
  else do
    let compact ← compactRules py bandingType (Value.getKey result "rules")
    let rules ← if bandingType = "breakpoints" then (bandsForSidecar py compact).map Value.list
      else .ok (.dict compact)
    let written := Assoc.set result "rules" rules
    .ok (if Assoc.get? written "default" = some .none then
      written.filter fun e => e.1 ≠ "default" else written)

/-! ### Reading -/

/-- One band as a rule row. -/
def bandRow (last : Bool) (index : ℕ) (band : Value) : Except SidecarError Value :=
  match band with
  | .dict fields =>
    if (Assoc.keys fields).any (fun k => k ≠ "upper" && k ≠ "label") ∨
        "label" ∉ Assoc.keys fields then .error (.notBand index)
    else if "upper" ∉ Assoc.keys fields ∧ last = false then .error .openEndedEarly
    else do
      let boundary ← match Assoc.get? fields "upper" with
        | some upper => edgeAsRead upper
        | none => .ok ""
      let _ ← (validateMapValue (Value.getKey fields "label") boundary).mapError .refusedMap
      .ok (.dict [("boundary", .str boundary), ("label", Value.getKey fields "label")])
  | _ => .error (.notBand index)

/-- Bands as rule rows, from the band number `index` on. -/
def bandRows : ℕ → List Value → Except SidecarError (List Value)
  | _, [] => .ok []
  | index, band :: rest => do
    let row ← bandRow rest.isEmpty index band
    let rows ← bandRows (index + 1) rest
    .ok (row :: rows)

/-- A breakpoint factor's sidecar bands as the editor's and the engine's rule rows. -/
def bandsFromSidecar : Value → Except SidecarError (List Value)
  | .list bands => bandRows 0 bands
  | _ => .error (.notRules "breakpoints")

/-! ### Integers read back -/

/-- A text that is written as an integer with another text: `-0`, and digits that are not all
ASCII. -/
def Respelled (py : SidecarReaders) (boundary : String) : Prop :=
  isIntegerText py boundary.toList = true ∧
    (boundary.toList = ['-', '0'] ∨ ∃ c ∈ unsigned boundary.toList, c.isDigit = false)

instance (py : SidecarReaders) (boundary : String) : Decidable (Respelled py boundary) := by
  unfold Respelled
  infer_instance

theorem isDecimal_of_isIntegerText {py : SidecarReaders} {cs : List Char}
    (h : isIntegerText py cs = true) (hascii : ∀ c ∈ unsigned cs, c.isDigit = true) :
    IsDecimal (unsigned cs) := by
  unfold isIntegerText at h
  rw [Bool.or_eq_true, Bool.and_eq_true, beq_iff_eq, Option.any_eq_true] at h
  rcases h with hzero | ⟨⟨c, hhead, hc⟩, -⟩
  · rw [hzero]
    exact ⟨fun c hc => by rw [List.mem_singleton.mp hc]; rfl, List.cons_ne_nil _ _, fun _ => rfl⟩
  · refine ⟨hascii, fun hnil => (by rw [hnil] at hhead; cases hhead), fun hz => ?_⟩
    obtain rfl := Option.some.inj (hhead.symm.trans hz)
    simp at hc

theorem magnitude_eq {py : SidecarReaders} {ds : List Char} (h : ∀ c ∈ ds, c.isDigit = true)
    (n : ℕ) :
    ds.foldl (fun n c => 10 * n + (digitValue py c).getD 0) n = Nat.ofDigitChars 10 ds n := by
  induction ds generalizing n with
  | nil => rw [List.foldl_nil, Nat.ofDigitChars_nil]
  | cons c ds ih =>
    rw [List.foldl_cons, Nat.ofDigitChars_cons, ih fun d hd => h d (List.mem_cons_of_mem c hd),
      digitValue, if_pos (h c List.mem_cons_self), Option.getD_some]

/-- An integer's text is the text it was read from. -/
theorem strOfInt_readInteger {py : SidecarReaders} {cs : List Char} {n : ℤ}
    (h : isIntegerText py cs = true) (hascii : ∀ c ∈ unsigned cs, c.isDigit = true)
    (hneg : cs ≠ ['-', '0']) (hn : readInteger py cs = .ok n) :
    strOfInt n = .ok (String.ofList cs) := by
  have hdec := isDecimal_of_isIntegerText h hascii
  obtain ⟨hdigits, hpos⟩ := toDigits_ofDigitChars hdec
  unfold readInteger at hn
  rw [magnitude_eq hascii] at hn
  dsimp only at hn
  split_ifs at hn with hlen hsign
  · have hn := Except.ok.inj hn
    subst hn
    have hcs : cs = '-' :: unsigned cs := by
      unfold unsigned
      rw [if_pos hsign]
      rcases cs with _ | ⟨c, cs⟩
      · cases hsign
      · rw [Option.some.inj hsign, List.tail_cons]
    have hne : (unsigned cs).head? ≠ some '0' := fun hz =>
      hneg (by rw [hcs, hdec.2.2 hz])
    have hlt : Nat.ofDigitChars 10 (unsigned cs) 0 < 10 ^ 4300 := by
      rw [← Nat.length_toDigits_le_iff (by omega) (by omega), hdigits]
      omega
    obtain ⟨m, hm⟩ : ∃ m, Nat.ofDigitChars 10 (unsigned cs) 0 = m + 1 :=
      Nat.exists_eq_succ_of_ne_zero (hpos hne).ne'
    unfold strOfInt
    rw [Int.natAbs_neg, Int.natAbs_natCast, if_pos hlt]
    refine congrArg Except.ok (String.toList_inj.mp ?_)
    rw [hm] at hdigits ⊢
    change (String.append "-" (Nat.repr (m + 1))).toList = _
    rw [String.toList_ofList, hcs, ← hdigits]
    exact (String.toList_append).trans (congrArg _ Nat.toList_repr)
  · have hn := Except.ok.inj hn
    subst hn
    have hcs : unsigned cs = cs := if_neg hsign
    have hlt : Nat.ofDigitChars 10 (unsigned cs) 0 < 10 ^ 4300 := by
      rw [← Nat.length_toDigits_le_iff (by omega) (by omega), hdigits]
      omega
    unfold strOfInt
    rw [Int.natAbs_natCast, if_pos hlt]
    refine congrArg Except.ok (String.toList_inj.mp ?_)
    rw [String.toList_ofList]
    rw [hcs] at hdigits ⊢
    change (Nat.repr (Nat.ofDigitChars 10 cs 0)).toList = _
    rw [Nat.toList_repr, hdigits]

theorem edgeAsRead_int (n : ℤ) :
    edgeAsRead (.int n) = (strOfInt n).mapError fun _ => .tooManyDigits := rfl

/-- An edge is read back as the text it was written from. -/
theorem edgeAsRead_of_written {py : SidecarReaders} {boundary : String} {upper : Value}
    (hspelled : ¬ Respelled py boundary) (h : edgeAsWritten py boundary = .ok upper) :
    edgeAsRead upper = .ok boundary := by
  unfold edgeAsWritten at h
  split_ifs at h with hint
  · obtain ⟨n, hn, h⟩ := bind_eq_ok.mp h
    obtain rfl := Except.ok.inj h
    have hall : ¬ (boundary.toList = ['-', '0'] ∨
        ∃ c ∈ unsigned boundary.toList, c.isDigit = false) := fun hr => hspelled ⟨hint, hr⟩
    rw [not_or, not_exists] at hall
    have hascii : ∀ c ∈ unsigned boundary.toList, c.isDigit = true := fun c hc =>
      Bool.eq_true_of_not_eq_false fun hf => hall.2 c ⟨hc, hf⟩
    rw [edgeAsRead_int, strOfInt_readInteger hint hascii hall.1 hn, String.ofList_toList]
    rfl
  · cases hfloat : py.float boundary with
    | none =>
      rw [hfloat] at h
      obtain rfl := Except.ok.inj h
      rfl
    | some number =>
      rw [hfloat] at h
      obtain rfl := Except.ok.inj h
      split_ifs with hrepr
      · exact congrArg Except.ok hrepr.2
      · rfl

/-! ### Bands read back -/

/-- The edge and the label of one rule. -/
def bandEntry (py : SidecarReaders) (rule : Value) : String × Value :=
  match rule with
  | .dict fields => (strOf py (Value.getKey fields "boundary"), Value.getKey fields "label")
  | _ => ("", .none)

/-- The edges and labels of a factor's rules. -/
def bandEntries (py : SidecarReaders) : Value → List (String × Value)
  | .list rows => rows.map (bandEntry py)
  | .dict entries => entries
  | _ => []

/-- The row of an edge and a label. -/
def rowOf (entry : String × Value) : Value :=
  .dict [("boundary", .str entry.1), ("label", entry.2)]

/-- The rows that are read back: the bands in order, the open-ended one last. -/
def rowsReadBack (entries : List (String × Value)) : List Value :=
  (entries.filter (fun e => e.1 ≠ "") ++ entries.filter fun e => e.1 = "").map rowOf

/-- Whether a value may be a label. -/
def isLabel (value : Value) : Prop := value ≠ .none ∧ value ≠ .str "" ∧ isJsonScalar value = true

theorem validateMapValue_eq_ok_iff {value : Value} {key : String} {u : Unit} :
    validateMapValue value key = .ok u ↔ isLabel value := by
  unfold validateMapValue isLabel
  split_ifs with hmissing hscalar
  · simp only [false_iff]
    exact fun h => hmissing.elim h.1 h.2.1
  · simp only [false_iff]
    exact fun h => by simp [h.2.2] at hscalar
  · rw [not_or] at hmissing
    simp only [true_iff]
    exact ⟨hmissing.1, hmissing.2, by simpa using hscalar⟩

theorem ruleEntry_eq_ok {py : SidecarReaders} {label : String} {index : ℕ} {rule : Value}
    {entry : String × Value}
    (h : ruleEntry py "boundary" "label" label true index rule = .ok entry) :
    entry = bandEntry py rule ∧ isLabel entry.2 := by
  unfold ruleEntry at h
  cases rule with
  | dict fields =>
    simp only [Bool.true_eq_false, and_false, or_false] at h
    by_cases hkey : Value.getKey fields "boundary" = .none
    · rw [if_pos hkey] at h
      cases h
    · rw [if_neg hkey] at h
      by_cases hvalue : Value.getKey fields "label" = .none ∨ Value.getKey fields "label" = .str ""
      · rw [if_pos hvalue] at h
        cases h
      · rw [if_neg hvalue] at h
        cases hscalar : isJsonScalar (Value.getKey fields "label") with
        | false => simp [hscalar] at h
        | true =>
          simp only [hscalar, Bool.not_true, Bool.false_eq_true, if_false, Except.ok.injEq] at h
          subst h
          rw [not_or] at hvalue
          exact ⟨rfl, hvalue.1, hvalue.2, hscalar⟩
  | _ => cases h

theorem compactRuleRows_eq_ok {py : SidecarReaders} {label : String} {index : ℕ}
    {compact entries : List (String × Value)} {rules : List Value}
    (h : compactRuleRows py "boundary" "label" label true index compact rules = .ok entries)
    (hnodup : (Assoc.keys compact).Nodup) :
    entries = compact ++ rules.map (bandEntry py) ∧ (Assoc.keys entries).Nodup ∧
      ∀ rule ∈ rules, isLabel (bandEntry py rule).2 := by
  induction rules generalizing index compact with
  | nil =>
    obtain rfl := Except.ok.inj h
    exact ⟨(List.append_nil _).symm, hnodup, by simp⟩
  | cons rule rules ih =>
    rw [compactRuleRows] at h
    obtain ⟨entry, hentry, h⟩ := bind_eq_ok.mp h
    obtain ⟨rfl, hlabel⟩ := ruleEntry_eq_ok hentry
    split_ifs at h with hdup
    have hnodup' : (Assoc.keys (compact ++ [bandEntry py rule])).Nodup := by
      rw [Assoc.keys_append, List.nodup_append]
      refine ⟨hnodup, by simp, ?_⟩
      rintro a ha b hb rfl
      have : a = (bandEntry py rule).1 := by simpa using hb
      exact hdup (this ▸ ha)
    obtain ⟨rfl, hkeys, hlabels⟩ := ih h hnodup'
    refine ⟨by rw [List.append_assoc, List.map_cons, List.singleton_append], hkeys, ?_⟩
    exact List.forall_mem_cons.mpr ⟨hlabel, hlabels⟩

/-- The editor's own fields are no part of a band. -/
theorem bandEntry_stripRow (py : SidecarReaders) (rule : Value) :
    bandEntry py (stripRow rule) = bandEntry py rule := by
  cases rule with
  | dict fields =>
    have hkeep : ∀ key, isSetting key = true →
        Value.getKey (fields.filter fun e => isSetting e.1) key = Value.getKey fields key := by
      intro key hkey
      unfold Value.getKey
      rw [Assoc.get?_filter_key isSetting, if_pos hkey]
    unfold stripRow bandEntry
    dsimp only
    rw [hkeep "boundary" (by decide), hkeep "label" (by decide)]
  | _ => rfl

/-- What a factor's rules are compacted to: its bands, no edge twice. -/
theorem compactRules_eq_ok {py : SidecarReaders} {rules : Value} {entries : List (String × Value)}
    (h : compactRules py "breakpoints" rules = .ok entries)
    (hdict : ∀ fields, rules = .dict fields → (Assoc.keys fields).Nodup) :
    entries = bandEntries py rules ∧ (Assoc.keys entries).Nodup ∧
      ∀ e ∈ entries, isLabel e.2 := by
  cases rules with
  | none =>
    obtain rfl := Except.ok.inj h
    exact ⟨rfl, List.nodup_nil, by simp⟩
  | list rows =>
    have hrows : compactRuleRows py "boundary" "label" "breakpoint" true 0 [] (rows.map stripRow) =
        .ok entries := h
    obtain ⟨rfl, hnodup, hlabels⟩ := compactRuleRows_eq_ok hrows List.nodup_nil
    have hstrip : (rows.map stripRow).map (bandEntry py) = rows.map (bandEntry py) := by
      rw [List.map_map]
      exact List.map_congr_left fun rule _ => bandEntry_stripRow py rule
    rw [List.nil_append, hstrip] at hnodup ⊢
    refine ⟨rfl, hnodup, fun e he => ?_⟩
    obtain ⟨rule, hrule, rfl⟩ := List.mem_map.mp he
    rw [← bandEntry_stripRow]
    exact hlabels _ (List.mem_map_of_mem hrule)
  | dict fields =>
    unfold compactRules compactRuleMap at h
    dsimp only at h
    cases hall : fields.mapM (expandEntry "breakpoints") with
    | error e =>
      rw [hall] at h
      cases h
    | ok rows =>
      rw [hall] at h
      obtain rfl := Except.ok.inj h
      refine ⟨rfl, hdict _ rfl, fun e he => ?_⟩
      obtain ⟨row, -, hrow⟩ := List.Forall₂.exists_of_mem_left (forall₂_of_mapM hall) he
      unfold expandEntry at hrow
      rw [if_neg (by decide)] at hrow
      obtain ⟨u, hu, -⟩ := bind_eq_ok.mp hrow
      exact validateMapValue_eq_ok_iff.mp hu
  | _ => cases h

/-- A band with an upper edge is read as its row, wherever it stands. -/
theorem bandRow_bounded {last : Bool} {index : ℕ} {upper label : Value} {boundary : String}
    (hedge : edgeAsRead upper = .ok boundary) (hlabel : isLabel label) :
    bandRow last index (.dict [("upper", upper), ("label", label)]) =
      .ok (rowOf (boundary, label)) := by
  have hvalid : validateMapValue label boundary = .ok () := validateMapValue_eq_ok_iff.mpr hlabel
  have hget : Value.getKey [("upper", upper), ("label", label)] "label" = label := rfl
  unfold bandRow
  dsimp only
  rw [if_neg (by simp), if_neg (by simp), hget]
  simp only [Assoc.get?_cons_self, hedge, bind, Except.bind, hvalid]
  rfl

/-- The band without an upper edge is read as its row where it stands last. -/
theorem bandRow_openEnded {index : ℕ} {label : Value} (hlabel : isLabel label) :
    bandRow true index (.dict [("label", label)]) = .ok (rowOf ("", label)) := by
  have hvalid : validateMapValue label "" = .ok () := validateMapValue_eq_ok_iff.mpr hlabel
  have hget : Value.getKey [("label", label)] "label" = label := rfl
  have hupper : Assoc.get? [("label", label)] "upper" = none := rfl
  unfold bandRow
  dsimp only
  rw [if_neg (by simp), if_neg (by simp), hget, hupper]
  simp only [bind, Except.bind, hvalid]
  rfl

/-- Bands with upper edges are read as their rows, and then what follows them. -/
theorem bandRows_append {py : SidecarReaders} {es : List (String × Value)} {bands tail : List Value}
    {rows : List Value} {index : ℕ}
    (hbands : List.Forall₂ (fun e band => ∃ upper, edgeAsWritten py e.1 = .ok upper ∧
      band = .dict [("upper", upper), ("label", e.2)]) es bands)
    (hspelled : ∀ e ∈ es, ¬ Respelled py e.1) (hlabels : ∀ e ∈ es, isLabel e.2)
    (htail : bandRows (index + bands.length) tail = .ok rows) :
    bandRows index (bands ++ tail) = .ok (es.map rowOf ++ rows) := by
  induction hbands generalizing index with
  | nil => simpa using htail
  | @cons e band es bands hband _ ih =>
    obtain ⟨upper, hupper, rfl⟩ := hband
    have hrow : bandRow (bands ++ tail).isEmpty index
        (.dict [("upper", upper), ("label", e.2)]) = .ok (rowOf e) :=
      bandRow_bounded (edgeAsRead_of_written (hspelled e List.mem_cons_self) hupper)
        (hlabels e List.mem_cons_self)
    have hrest : bandRows (index + 1) (bands ++ tail) = .ok (es.map rowOf ++ rows) :=
      ih (fun e' he' => hspelled e' (List.mem_cons_of_mem e he'))
        (fun e' he' => hlabels e' (List.mem_cons_of_mem e he'))
        (by rw [List.length_cons] at htail; rwa [Nat.add_assoc, Nat.add_comm 1])
    rw [List.cons_append, bandRows, hrow, hrest]
    rfl

theorem filter_empty_of_get? {entries : List (String × Value)}
    (hnodup : (Assoc.keys entries).Nodup) :
    entries.filter (fun e => e.1 = "") = (Assoc.get? entries "").toList.map fun l => ("", l) := by
  induction entries with
  | nil => rfl
  | cons e entries ih =>
    rw [Assoc.keys_cons, List.nodup_cons] at hnodup
    have ih := ih hnodup.2
    by_cases he : e.1 = ""
    · have hnone : Assoc.get? entries "" = none := Assoc.get?_eq_none (he ▸ hnodup.1)
      rw [List.filter_cons_of_pos (by simpa using he), ih, hnone]
      obtain ⟨key, label⟩ := e
      dsimp only at he
      subst he
      rw [Assoc.get?_cons_self]
      rfl
    · rw [List.filter_cons_of_neg (by simpa using he), ih, Assoc.get?_cons_ne he]

/-- What the bands of a map are read back as. -/
theorem bandsFromSidecar_bandsForSidecar {py : SidecarReaders} {entries : List (String × Value)}
    {bands : List Value} (h : bandsForSidecar py entries = .ok bands)
    (hnodup : (Assoc.keys entries).Nodup) (hspelled : ∀ e ∈ entries, ¬ Respelled py e.1)
    (hlabels : ∀ e ∈ entries, isLabel e.2) :
    bandsFromSidecar (.list bands) = .ok (rowsReadBack entries) := by
  unfold bandsForSidecar at h
  obtain ⟨bounded, hbounded, h⟩ := bind_eq_ok.mp h
  have hbands : List.Forall₂ (fun e band => ∃ upper, edgeAsWritten py e.1 = .ok upper ∧
      band = .dict [("upper", upper), ("label", e.2)])
      (entries.filter fun e => decide (e.1 ≠ "")) bounded := by
    refine (forall₂_of_mapM hbounded).imp fun e band hband => ?_
    obtain ⟨upper, hupper, hband⟩ := bind_eq_ok.mp hband
    exact ⟨upper, hupper, (Except.ok.inj hband).symm⟩
  have hmem : ∀ e ∈ entries.filter fun e => decide (e.1 ≠ ""), e ∈ entries := fun e he =>
    (List.mem_filter.mp he).1
  have hread : ∀ tail rows, bandRows (0 + bounded.length) tail = .ok rows →
      bandRows 0 (bounded ++ tail) =
        .ok ((entries.filter fun e => decide (e.1 ≠ "")).map rowOf ++ rows) := fun tail rows =>
    bandRows_append hbands (fun e he => hspelled e (hmem e he)) fun e he => hlabels e (hmem e he)
  unfold bandsFromSidecar rowsReadBack
  dsimp only
  rw [filter_empty_of_get? hnodup, List.map_append]
  cases hget : Assoc.get? entries "" with
  | none =>
    rw [hget] at h
    obtain rfl := Except.ok.inj h
    have := hread [] [] rfl
    rwa [List.append_nil] at this
  | some label =>
    rw [hget] at h
    obtain rfl := Except.ok.inj h
    refine hread [.dict [("label", label)]] [rowOf ("", label)] ?_
    rw [bandRows, List.isEmpty_nil,
      bandRow_openEnded (hlabels _ (Assoc.mem_of_get?_eq_some hget))]
    rfl

theorem getKey_filter {p : String → Bool} {fields : List (String × Value)} {key : String}
    (hkey : p key = true) :
    Value.getKey (fields.filter fun e => p e.1) key = Value.getKey fields key := by
  unfold Value.getKey
  rw [Assoc.get?_filter_key p, if_pos hkey]

/-- What a breakpoint factor's rules are written as. -/
theorem rules_of_written {py : SidecarReaders} {factor written : List (String × Value)}
    (htype : bandingTypeOf py factor = "breakpoints")
    (h : compactBandingFactorForSidecar py factor = .ok written) :
    ∃ entries bands, compactRules py "breakpoints" (Value.getKey factor "rules") = .ok entries ∧
      bandsForSidecar py entries = .ok bands ∧ Value.getKey written "rules" = .list bands := by
  have htype' : bandingTypeOf py (factor.filter fun e => isSetting e.1) = "breakpoints" := by
    unfold bandingTypeOf at htype ⊢
    rwa [getKey_filter (p := isSetting) (by decide)]
  unfold compactBandingFactorForSidecar at h
  simp only [htype', getKey_filter (p := isSetting) (show isSetting "rules" = true by decide)] at h
  rw [if_neg (by simp)] at h
  obtain ⟨entries, hentries, h⟩ := bind_eq_ok.mp h
  rw [if_pos trivial] at h
  obtain ⟨rules, hrules, h⟩ := bind_eq_ok.mp h
  cases hbands : bandsForSidecar py entries with
  | error e =>
    rw [hbands] at hrules
    cases hrules
  | ok bands =>
    rw [hbands] at hrules
    obtain rfl := Except.ok.inj hrules
    refine ⟨entries, bands, hentries, hbands, ?_⟩
    have hset : ∀ fields : List (String × Value),
        Value.getKey (Assoc.set fields "rules" (.list bands)) "rules" = .list bands := by
      intro fields
      unfold Value.getKey
      rw [Assoc.get?_set_self, Option.getD_some]
    rw [← Except.ok.inj h]
    split_ifs
    · rw [getKey_filter (p := fun k => decide (k ≠ "default")) (by decide), hset]
    · exact hset _

/-- A breakpoint factor that is written is read back with its edges as they were spelled and its
labels, in order and the open-ended band last, where no edge is respelled as an integer. -/
theorem bands_readBack (py : SidecarReaders) (factor written : List (String × Value))
    (htype : bandingTypeOf py factor = "breakpoints")
    (hdict : ∀ fields, Value.getKey factor "rules" = .dict fields → (Assoc.keys fields).Nodup)
    (hspelled : ∀ e ∈ bandEntries py (Value.getKey factor "rules"), ¬ Respelled py e.1)
    (h : compactBandingFactorForSidecar py factor = .ok written) :
    bandsFromSidecar (Value.getKey written "rules") =
      .ok (rowsReadBack (bandEntries py (Value.getKey factor "rules"))) := by
  obtain ⟨entries, bands, hentries, hbands, hwritten⟩ := rules_of_written htype h
  obtain ⟨rfl, hnodup, hlabels⟩ := compactRules_eq_ok hentries hdict
  rw [hwritten]
  exact bandsFromSidecar_bandsForSidecar hbands hnodup hspelled hlabels

/-- Readers of texts that are neither numbers nor in other digits. -/
def plainReaders : SidecarReaders where
  otherDecimal _ := none
  float _ := none
  str _ := ""

/-- A factor of two bands, with these edges. -/
def datedFactor (first second : String) : List (String × Value) :=
  [("banding", .str "breakpoints"), ("rules", .list [
    .dict [("boundary", .str first), ("label", .str "a")],
    .dict [("boundary", .str second), ("label", .str "b")]])]

theorem numbered_not_respelled : ∀ e ∈ bandEntries plainReaders
    (Value.getKey (datedFactor "25" "") "rules"), ¬ Respelled plainReaders e.1 := by
  have hentries : bandEntries plainReaders (Value.getKey (datedFactor "25" "") "rules") =
      [("25", .str "a"), ("", .str "b")] := by decide
  rw [hentries]
  intro e he
  rcases List.mem_pair.mp he with rfl | rfl
  · rintro ⟨-, hzero | ⟨c, hc, hdigit⟩⟩
    · exact absurd hzero (by decide)
    · have hascii : ∀ c ∈ unsigned "25".toList, c.isDigit = true := List.all_eq_true.mp (by decide)
      exact Bool.false_ne_true (hdigit.symm.trans (hascii c hc))
  · decide

/-- Bands up to the end of 2024 and after it; and bands up to 25, which is written as a number,
and above it. -/
theorem datedBands_readBack :
    (bandsFromSidecar (.list [.dict [("upper", .str "2024-12-31"), ("label", .str "a")],
        .dict [("label", .str "b")]]) =
      .ok (rowsReadBack (bandEntries plainReaders
        (Value.getKey (datedFactor "2024-12-31" "") "rules")))) ∧
    bandsFromSidecar (.list [.dict [("upper", .int 25), ("label", .str "a")],
        .dict [("label", .str "b")]]) =
      .ok (rowsReadBack (bandEntries plainReaders
        (Value.getKey (datedFactor "25" "") "rules"))) :=
  ⟨bands_readBack plainReaders (datedFactor "2024-12-31" "")
      [("banding", .str "breakpoints"), ("rules", .list [
        .dict [("upper", .str "2024-12-31"), ("label", .str "a")], .dict [("label", .str "b")]])]
      (by decide) (fun fields hf => (by cases hf)) (by decide) (by decide +kernel),
    bands_readBack plainReaders (datedFactor "25" "")
      [("banding", .str "breakpoints"), ("rules", .list [
        .dict [("upper", .int 25), ("label", .str "a")], .dict [("label", .str "b")]])]
      (by decide) (fun fields hf => (by cases hf)) numbered_not_respelled (by decide +kernel)⟩

/-- With the open-ended band first, the bands are read back in another order. -/
theorem openEndedFirst_reordered :
    ∃ written rows, compactBandingFactorForSidecar plainReaders (datedFactor "" "2024-12-31") =
        .ok written ∧ bandsFromSidecar (Value.getKey written "rules") = .ok rows ∧
      rows ≠ (bandEntries plainReaders
        (Value.getKey (datedFactor "" "2024-12-31") "rules")).map rowOf :=
  ⟨_, _, rfl, rfl, by decide +kernel⟩

end Haute.Banding
