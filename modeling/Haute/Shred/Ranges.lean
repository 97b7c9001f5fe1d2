import Haute.Json.Errors
import Mathlib.Data.List.Basic
import Mathlib.Tactic.SplitIfs

/-!
# Byte ranges of a JSON Lines file

A large file is cut into byte ranges that are read apart. `jsonlByteRanges` advances each cut
to just past the next newline, `iterRangeLines` reads the lines that begin in a range, and
`iterLines` reads the whole file in one pass. `lines` is the reference: the file's lines, each
with its newline. A line longer than the record limit is refused wherever it is met.

Every cut stands where a line ends, and lines can be read apart there (`lines_append`), so the
ranges together have the file's lines, in order and whole (`rangeLines_iff`).
-/

namespace Haute.Shred

/-- The bytes of a file. -/
abbrev Bytes := List UInt8

/-- `b"\n"`. -/
def newline : UInt8 := 10

/-- Bytes up to the first newline, which is kept. -/
def firstLine : Bytes → Bytes
  | [] => []
  | b :: bs => if b = newline then [b] else b :: firstLine bs

/-- `f.readline(size)`. -/
def readline (size : ℕ) (bs : Bytes) : Bytes := (firstLine bs).take size

/-- The lines of a file, each with its newline. -/
def lines : Bytes → List Bytes
  | [] => []
  | b :: bs =>
    if b = newline then [b] :: lines bs
    else
      match lines bs with
      | [] => [[b]]
      | l :: ls => (b :: l) :: ls

/-- `_record_limit_error("JSONL record", limit)`. -/
def recordLimitError (limit : ℕ) : PyError :=
  .apiInputSchema
    ("JSONL record exceeds HAUTE_STRUCTURED_INPUT_MAX_RECORD_BYTES=" ++ toString limit ++
    "; split the source into smaller logical records or raise the limit within the execution " ++
    "memory budget") []

theorem firstLine_ne_nil {bs : Bytes} (h : bs ≠ []) : firstLine bs ≠ [] := by
  cases bs with
  | nil => exact absurd rfl h
  | cons b bs =>
    rw [firstLine]
    split_ifs <;> exact List.cons_ne_nil _ _

/-- A first line is no longer than its text. -/
theorem length_firstLine_le (bs : Bytes) : (firstLine bs).length ≤ bs.length := by
  induction bs with
  | nil => exact le_rfl
  | cons b bs ih =>
    rw [firstLine]
    split_ifs
    · simp
    · simpa using ih

/-- Nothing is read exactly at the end. -/
theorem readline_eq_nil_iff {size : ℕ} {bs : Bytes} : readline (size + 1) bs = [] ↔ bs = [] := by
  constructor
  · intro h
    by_contra hne
    rcases List.take_eq_nil_iff.mp h with hsize | hline
    · omega
    · exact firstLine_ne_nil hne hline
  · rintro rfl
    rfl

/-- Reading a line leaves less. -/
theorem length_drop_readline_lt {size : ℕ} {bs : Bytes} (h : readline (size + 1) bs ≠ []) :
    (bs.drop (readline (size + 1) bs).length).length < bs.length := by
  have hline := List.length_pos_of_ne_nil h
  have hbs := List.length_pos_of_ne_nil fun hbs => h (readline_eq_nil_iff.mpr hbs)
  rw [List.length_drop]
  omega

/-- `while raw_line := f.readline(record_limit + 1)`: the lines of a single pass. -/
def iterLines (limit : ℕ) (bs : Bytes) : Except PyError (List Bytes) :=
  if _h : readline (limit + 1) bs = [] then .ok []
  else if limit < (readline (limit + 1) bs).length then .error (recordLimitError limit)
  else (iterLines limit (bs.drop (readline (limit + 1) bs).length)).map
    (readline (limit + 1) bs :: ·)
termination_by bs.length
decreasing_by exact length_drop_readline_lt _h

/-- The loop of `_iter_range_lines`, with so many bytes of the range still to go. -/
def rangeLoop (limit remaining : ℕ) (bs : Bytes) : Except PyError (List Bytes) :=
  if remaining = 0 then .ok []
  else if _h : readline (limit + 1) bs = [] then .ok []
  else if limit < (readline (limit + 1) bs).length then .error (recordLimitError limit)
  else (rangeLoop limit (remaining - (readline (limit + 1) bs).length)
    (bs.drop (readline (limit + 1) bs).length)).map (readline (limit + 1) bs :: ·)
termination_by bs.length
decreasing_by exact length_drop_readline_lt _h

/-- `_iter_range_lines`. -/
def iterRangeLines (limit : ℕ) (data : Bytes) (range : ℕ × ℕ) : Except PyError (List Bytes) :=
  rangeLoop limit (range.2 - range.1) (data.drop range.1)

/-- The cuts that follow a target: each just past the newline after it. -/
def cutsFrom (limit chunk : ℕ) (hchunk : 0 < chunk) (data : Bytes) (target : ℕ) :
    Except PyError (List ℕ) :=
  if _h : target < data.length then
    let partialLine := readline (limit + 1) (data.drop target)
    let pos := target + partialLine.length
    if limit < partialLine.length then .error (recordLimitError limit)
    else if data.length ≤ pos then .ok []
    else (cutsFrom limit chunk hchunk data (pos + chunk)).map (pos :: ·)
  else .ok []
termination_by data.length - target
decreasing_by omega

/-- The ranges between consecutive bounds. -/
def betweenBounds (bounds : List ℕ) : List (ℕ × ℕ) :=
  (bounds.zip bounds.tail).filter fun r => decide (r.1 < r.2)

/-- `_jsonl_byte_ranges`. -/
def jsonlByteRanges (limit chunk : ℕ) (data : Bytes) : Except PyError (List (ℕ × ℕ)) :=
  if hchunk : 0 < chunk then
    if data.length = 0 then .ok []
    else if data.length ≤ chunk then .ok [(0, data.length)]
    else do
      let cuts ← cutsFrom limit chunk hchunk data chunk
      pure (betweenBounds (0 :: cuts ++ [data.length]))
  else .error (.value "chunk_bytes must be positive")

/-! ### Lines -/

/-- Only an empty text has no lines. -/
@[simp] theorem lines_eq_nil_iff {bs : Bytes} : lines bs = [] ↔ bs = [] := by
  cases bs with
  | nil => simp [lines]
  | cons b bs =>
    rw [lines]
    split_ifs
    · simp
    · cases lines bs <;> simp

/-- A text has its first line and the lines after it. -/
theorem lines_eq_cons {bs : Bytes} (h : bs ≠ []) :
    lines bs = firstLine bs :: lines (bs.drop (firstLine bs).length) := by
  induction bs with
  | nil => exact absurd rfl h
  | cons b bs ih =>
    rw [lines, firstLine]
    split_ifs with hb
    · rfl
    · cases hbs : bs with
      | nil => rfl
      | cons c cs =>
        rw [← hbs, ih (by rw [hbs]; exact List.cons_ne_nil _ _)]
        rfl

/-- The bytes end where a line does. -/
def EndsLine (bs : Bytes) : Prop := bs.getLast? = some newline

theorem EndsLine.ne_nil {bs : Bytes} (h : EndsLine bs) : bs ≠ [] := by
  rintro rfl
  cases h

theorem EndsLine.mem {bs : Bytes} (h : EndsLine bs) : newline ∈ bs := List.mem_of_getLast? h

/-- What is left of bytes that end a line ends it. -/
theorem EndsLine.drop {bs : Bytes} (h : EndsLine bs) (n : ℕ) :
    bs.drop n = [] ∨ EndsLine (bs.drop n) := by
  by_cases hn : bs.length ≤ n
  · exact .inl (List.drop_eq_nil_of_le hn)
  · right
    rw [EndsLine, List.getLast?_drop, if_neg hn]
    exact h

/-- The first line of a text that has one whole does not depend on what follows. -/
theorem firstLine_append {a : Bytes} (h : newline ∈ a) (b : Bytes) :
    firstLine (a ++ b) = firstLine a := by
  induction a with
  | nil => cases h
  | cons x a ih =>
    rw [List.cons_append, firstLine, firstLine]
    split_ifs with hx
    · rfl
    · rw [ih ((List.mem_cons.mp h).resolve_left fun hx' => hx hx'.symm)]

/-- **Lines can be read apart where one ends.** -/
theorem lines_append {a : Bytes} (h : EndsLine a) (b : Bytes) :
    lines (a ++ b) = lines a ++ lines b := by
  induction a with
  | nil => cases h
  | cons x a ih =>
    cases a with
    | nil =>
      obtain rfl : x = newline := Option.some.inj h
      simp [lines]
    | cons y a =>
      have ih := ih (h : (x :: y :: a).getLast? = some newline)
      have hne : lines (y :: a) ≠ [] := by simp
      rw [List.cons_append, lines, lines, ih]
      split_ifs with hx
      · rfl
      · obtain ⟨l, ls, hls⟩ := List.exists_cons_of_ne_nil hne
        rw [hls]
        rfl

/-! ### Reading with a limit -/

/-- No line is longer than the limit. -/
def WithinLimit (limit : ℕ) (ls : List Bytes) : Prop := ∀ l ∈ ls, l.length ≤ limit

/-- Pieces keep the limit together exactly when each does. -/
theorem withinLimit_flatten {limit : ℕ} {pieces : List (List Bytes)} :
    WithinLimit limit pieces.flatten ↔ ∀ piece ∈ pieces, WithinLimit limit piece := by
  constructor
  · intro h piece hpiece l hl
    exact h l (List.mem_flatten_of_mem hpiece hl)
  · intro h l hl
    obtain ⟨piece, hpiece, hl⟩ := List.mem_flatten.mp hl
    exact h piece hpiece l hl

/-- A line within the limit is read whole. -/
theorem readline_of_le {limit : ℕ} {bs : Bytes} (h : (firstLine bs).length ≤ limit) :
    readline (limit + 1) bs = firstLine bs := List.take_of_length_le (by omega)

/-- A line is read past the limit exactly when it is longer. -/
theorem length_readline {limit : ℕ} {bs : Bytes} :
    limit < (readline (limit + 1) bs).length ↔ limit < (firstLine bs).length := by
  rw [readline, List.length_take]
  omega

/-- A range that ends where a line does, or where the file does, has its own lines. -/
theorem rangeLoop_eq_ok_iff {limit : ℕ} (n : ℕ) : ∀ {seg rest : Bytes}, seg.length ≤ n →
    (seg = [] ∨ EndsLine seg ∨ rest = []) → ∀ {ls : List Bytes},
      rangeLoop limit seg.length (seg ++ rest) = .ok ls ↔ WithinLimit limit (lines seg) ∧
        ls = lines seg := by
  induction n with
  | zero =>
    intro seg rest hlen _ ls
    obtain rfl : seg = [] := List.length_eq_zero_iff.mp (Nat.le_zero.mp hlen)
    rw [rangeLoop]
    simp [lines, WithinLimit, eq_comm]
  | succ n ih =>
    intro seg rest hlen hseg ls
    by_cases hnil : seg = []
    · subst hnil
      rw [rangeLoop]
      simp [lines, WithinLimit, eq_comm]
    -- a range ends where a line does, so what follows it does not change its lines
    have hfirst : firstLine (seg ++ rest) = firstLine seg := by
      rcases hseg with hseg | hseg | rfl
      · exact absurd hseg hnil
      · exact firstLine_append hseg.mem rest
      · rw [List.append_nil]
    have hlines := lines_eq_cons hnil
    have hpos := List.length_pos_of_ne_nil (firstLine_ne_nil hnil)
    have hle := length_firstLine_le seg
    have hread : readline (limit + 1) (seg ++ rest) ≠ [] := fun h =>
      hnil (List.append_eq_nil_iff.mp (readline_eq_nil_iff.mp h)).1
    rw [rangeLoop, if_neg (by omega), dif_neg hread]
    by_cases hlimit : (firstLine seg).length ≤ limit
    · have hline : readline (limit + 1) (seg ++ rest) = firstLine seg := by
        rw [readline_of_le (by rwa [hfirst]), hfirst]
      rw [hline, if_neg (by omega), List.drop_append_of_le_length hle, ← List.length_drop]
      have hrest := @ih (seg.drop (firstLine seg).length) rest (by rw [List.length_drop]; omega) (by
        rcases hseg with hseg | hseg | rfl
        · exact absurd hseg hnil
        · exact (hseg.drop _).imp_right .inl
        · exact .inr (.inr rfl))
      rw [map_eq_ok_iff]
      constructor
      · rintro ⟨ls', hls', rfl⟩
        obtain ⟨hwithin, rfl⟩ := hrest.mp hls'
        rw [hlines]
        exact ⟨List.forall_mem_cons.mpr ⟨hlimit, hwithin⟩, rfl⟩
      · rw [hlines]
        rintro ⟨hwithin, rfl⟩
        exact ⟨_, hrest.mpr ⟨fun l hl => hwithin l (List.mem_cons_of_mem _ hl), rfl⟩, rfl⟩
    · rw [if_pos (length_readline.mpr (by rw [hfirst]; omega))]
      refine iff_of_false (fun h => by cases h) fun h => hlimit ?_
      rw [hlines] at h
      exact h.1 _ List.mem_cons_self

/-- A single pass is the range of the whole file. -/
theorem iterLines_eq (limit : ℕ) (n : ℕ) :
    ∀ {bs : Bytes}, bs.length ≤ n → iterLines limit bs = rangeLoop limit bs.length bs := by
  induction n with
  | zero =>
    intro bs hlen
    obtain rfl : bs = [] := List.length_eq_zero_iff.mp (Nat.le_zero.mp hlen)
    rw [iterLines, rangeLoop]
    rfl
  | succ n ih =>
    intro bs hlen
    by_cases hnil : bs = []
    · subst hnil
      rw [iterLines, rangeLoop]
      rfl
    have hread : readline (limit + 1) bs ≠ [] := fun h => hnil (readline_eq_nil_iff.mp h)
    have hlt := length_drop_readline_lt hread
    have hpos := List.length_pos_of_ne_nil hnil
    have hrest := @ih (bs.drop (readline (limit + 1) bs).length) (by omega)
    have hlength : ¬ bs.length = 0 := by omega
    rw [iterLines, rangeLoop, if_neg hlength, dif_neg hread, dif_neg hread, hrest, List.length_drop]

/-- The lines are read exactly when each is within the limit. -/
theorem iterLines_eq_ok_iff {limit : ℕ} {bs : Bytes} {ls : List Bytes} :
    iterLines limit bs = .ok ls ↔ WithinLimit limit (lines bs) ∧ ls = lines bs := by
  have h := @rangeLoop_eq_ok_iff limit bs.length bs [] le_rfl (.inr (.inr rfl)) ls
  rwa [List.append_nil, ← iterLines_eq limit bs.length le_rfl] at h

/-! ### The ranges tile the file -/

/-- Somewhere in a file, what is left of a line is no longer than the line. -/
theorem exists_line_of_drop {bs : Bytes} {n : ℕ} (h : n < bs.length) :
    ∃ l ∈ lines bs, (firstLine (bs.drop n)).length ≤ l.length := by
  induction bs generalizing n with
  | nil => cases h
  | cons b bs ih =>
    cases n with
    | zero =>
      rw [lines_eq_cons (List.cons_ne_nil b bs)]
      exact ⟨_, List.mem_cons_self, le_rfl⟩
    | succ n =>
      obtain ⟨l, hl, hle⟩ := ih (Nat.lt_of_succ_lt_succ h)
      rw [lines, List.drop_succ_cons]
      split_ifs
      · exact ⟨l, List.mem_cons_of_mem _ hl, hle⟩
      · cases hls : lines bs with
        | nil =>
          rw [hls] at hl
          cases hl
        | cons m ms =>
          rw [hls] at hl
          rcases List.mem_cons.mp hl with rfl | hl
          · exact ⟨_, List.mem_cons_self, hle.trans (by simp)⟩
          · exact ⟨l, List.mem_cons_of_mem _ hl, hle⟩

/-- A line read up to its end inside a file ends there, unless the file does. -/
theorem endsLine_firstLine {bs : Bytes} (h : (firstLine bs).length < bs.length) :
    EndsLine (firstLine bs) := by
  induction bs with
  | nil => cases h
  | cons b bs ih =>
    rw [firstLine] at h ⊢
    split_ifs at h ⊢ with hb
    · rw [hb]
      rfl
    · have ih := ih (Nat.lt_of_succ_lt_succ h)
      obtain ⟨c, cs, hcs⟩ := List.exists_cons_of_ne_nil ih.ne_nil
      rw [hcs] at ih ⊢
      exact ih

/-- The first line begins the text. -/
theorem firstLine_isPrefix (bs : Bytes) : firstLine bs <+: bs := by
  induction bs with
  | nil => exact List.prefix_rfl
  | cons b bs ih =>
    rw [firstLine]
    split_ifs
    · exact ⟨bs, rfl⟩
    · exact List.cons_prefix_cons.mpr ⟨rfl, ih⟩

/-- A read that the limit does not cut short is a line. -/
theorem readline_eq_of_length {limit : ℕ} {bs : Bytes}
    (h : (readline (limit + 1) bs).length ≤ limit) :
    readline (limit + 1) bs = firstLine bs := by
  refine readline_of_le ?_
  rw [readline, List.length_take] at h
  omega

/-- The bounds from one on cut the rest of the file into pieces, each but the last ending a
line. -/
inductive Tiles (data : Bytes) : ℕ → List ℕ → Prop where
  | last {a : ℕ} (h : a < data.length) : Tiles data a []
  | cut {a b : ℕ} {bounds : List ℕ} (h : a < b) (hb : b < data.length)
      (ends : EndsLine ((data.drop a).take (b - a))) (rest : Tiles data b bounds) :
      Tiles data a (b :: bounds)

/-- Cuts tile the data from where they begin. -/
theorem cutsFrom_tiles {limit chunk : ℕ} {hchunk : 0 < chunk} {data : Bytes} (n : ℕ) :
    ∀ {a target : ℕ} {cuts : List ℕ}, data.length - target ≤ n → a ≤ target → a < data.length →
      cutsFrom limit chunk hchunk data target = .ok cuts → Tiles data a cuts := by
  induction n with
  | zero =>
    intro a target cuts hn _ ha h
    rw [cutsFrom, dif_neg (by omega)] at h
    cases h
    exact .last ha
  | succ n ih =>
    intro a target cuts hn hat ha h
    rw [cutsFrom] at h
    by_cases htarget : target < data.length
    · rw [dif_pos htarget] at h
      dsimp only at h
      split_ifs at h with hlimit hend
      · cases h
        exact .last ha
      · obtain ⟨rest, hrest, rfl⟩ := map_eq_ok_iff.mp h
        have hread := readline_eq_of_length (Nat.le_of_not_lt hlimit)
        rw [hread] at hend hrest ⊢
        have hpos := List.length_pos_of_ne_nil
          (firstLine_ne_nil (List.ne_nil_of_length_pos (l := data.drop target) (by simp; omega)))
        have hlast : EndsLine (firstLine (data.drop target)) :=
          endsLine_firstLine (by rw [List.length_drop]; omega)
        refine .cut (by omega) (by omega) ?_ (ih (by omega) (by omega) (by omega) hrest)
        -- what the target cuts off of its line comes last in the piece
        have hpiece : (data.drop a).take (target + (firstLine (data.drop target)).length - a)
            = (data.drop a).take (target - a) ++ firstLine (data.drop target) := by
          have hdrop : (data.drop a).drop (target - a) = data.drop target := by
            rw [List.drop_drop, Nat.add_sub_cancel' hat]
          rw [show target + (firstLine (data.drop target)).length - a
            = (target - a) + (firstLine (data.drop target)).length by omega, List.take_add, hdrop]
          congr 1
          exact (List.prefix_iff_eq_take.mp (firstLine_isPrefix _)).symm
        rw [hpiece, EndsLine, List.getLast?_append_of_ne_nil _ hlast.ne_nil]
        exact hlast
    · rw [dif_neg htarget] at h
      cases h
      exact .last ha

/-- The ranges between bounds go from each to the next. -/
theorem betweenBounds_cons {a b : ℕ} (h : a < b) (bounds : List ℕ) :
    betweenBounds (a :: b :: bounds) = (a, b) :: betweenBounds (b :: bounds) := by
  simp [betweenBounds, h]

/-- Every range has its own lines, and together they are those of the file. -/
theorem Tiles.lines_iff {limit : ℕ} {data : Bytes} {a : ℕ} {bounds : List ℕ}
    (h : Tiles data a bounds) :
    ∃ pieces : List (List Bytes), pieces.flatten = lines (data.drop a) ∧
      List.Forall₂ (fun range piece => ∀ ls, iterRangeLines limit data range = .ok ls ↔
        WithinLimit limit piece ∧
          ls = piece) (betweenBounds (a :: bounds ++ [data.length])) pieces := by
  induction h with
  | @last a h =>
    refine ⟨[lines (data.drop a)], by simp, ?_⟩
    rw [List.cons_append, List.nil_append, betweenBounds_cons h]
    refine .cons (fun ls => ?_) (by simp [betweenBounds])
    have hwhole := @rangeLoop_eq_ok_iff limit _ (data.drop a) [] le_rfl (.inr (.inr rfl)) ls
    rwa [List.append_nil, List.length_drop] at hwhole
  | @cut a b bounds hab hb hends rest ih =>
    obtain ⟨pieces, hflatten, hpieces⟩ := ih
    have hsplit : data.drop a = (data.drop a).take (b - a) ++ data.drop b := by
      conv_lhs => rw [← List.take_append_drop (b - a) (data.drop a)]
      rw [List.drop_drop, Nat.add_sub_cancel' hab.le]
    refine ⟨lines ((data.drop a).take (b - a)) :: pieces, ?_, ?_⟩
    · rw [List.flatten_cons, hflatten, ← lines_append hends, ← hsplit]
    · rw [List.cons_append, List.cons_append, betweenBounds_cons hab]
      refine .cons (fun ls => ?_) hpieces
      have hlen : ((data.drop a).take (b - a)).length = b - a := by
        rw [List.length_take, List.length_drop]
        omega
      have hpiece := @rangeLoop_eq_ok_iff limit _ _ (data.drop b) le_rfl (.inr (.inl hends)) ls
      rwa [hlen, ← hsplit] at hpiece

/-- No cut is found only where a line is over the limit. -/
theorem cutsFrom_error {limit chunk : ℕ} {hchunk : 0 < chunk} {data : Bytes} (n : ℕ) :
    ∀ {target : ℕ} {e : PyError}, data.length - target ≤ n →
      cutsFrom limit chunk hchunk data target = .error e →
      ¬ WithinLimit limit (lines data) := by
  induction n with
  | zero =>
    intro target e hn h
    rw [cutsFrom, dif_neg (by omega)] at h
    cases h
  | succ n ih =>
    intro target e hn h
    rw [cutsFrom] at h
    by_cases htarget : target < data.length
    · rw [dif_pos htarget] at h
      dsimp only at h
      split_ifs at h with hlimit hend
      · intro hwithin
        obtain ⟨l, hl, hle⟩ := exists_line_of_drop htarget
        exact absurd (hle.trans (hwithin l hl)) (not_le.mpr (length_readline.mp hlimit))
      · cases hrest : cutsFrom limit chunk hchunk data
            (target + (readline (limit + 1) (data.drop target)).length + chunk) with
        | error e' =>
          refine ih ?_ hrest
          omega
        | ok rest =>
          rw [hrest] at h
          cases h
    · rw [dif_neg htarget] at h
      cases h

/-- The ranges of a file, where none is refused, have its lines between them. -/
theorem jsonlByteRanges_pieces {limit chunk : ℕ} {data : Bytes} {ranges : List (ℕ × ℕ)}
    (h : jsonlByteRanges limit chunk data = .ok ranges) :
    ∃ pieces : List (List Bytes), pieces.flatten = lines data ∧
      List.Forall₂ (fun range piece => ∀ ls, iterRangeLines limit data range = .ok ls ↔
        WithinLimit limit piece ∧ ls = piece) ranges pieces := by
  unfold jsonlByteRanges at h
  split_ifs at h with hchunk hempty hsmall
  · cases h
    obtain rfl := List.length_eq_zero_iff.mp hempty
    exact ⟨[], rfl, .nil⟩
  · cases h
    have hone : Tiles data 0 [] := .last (Nat.pos_of_ne_zero hempty)
    obtain ⟨pieces, hflatten, hpieces⟩ := @Tiles.lines_iff limit _ _ _ hone
    rw [List.cons_append, List.nil_append, betweenBounds_cons (Nat.pos_of_ne_zero hempty)]
      at hpieces
    exact ⟨pieces, hflatten, by simpa [betweenBounds] using hpieces⟩
  · obtain ⟨cuts, hcuts, hranges⟩ := bind_eq_ok_iff.mp h
    cases hranges
    exact (cutsFrom_tiles _ le_rfl (Nat.zero_le _) (Nat.pos_of_ne_zero hempty) hcuts).lines_iff

/-- A file in which a cut is refused is refused by a single pass too. -/
theorem not_withinLimit_of_error {limit chunk : ℕ} (hchunk : 0 < chunk) {data : Bytes} {e : PyError}
    (h : jsonlByteRanges limit chunk data = .error e) : ¬ WithinLimit limit (lines data) := by
  unfold jsonlByteRanges at h
  rw [dif_pos hchunk] at h
  split_ifs at h
  cases hcuts : cutsFrom limit chunk hchunk data chunk with
  | error e' => exact cutsFrom_error _ le_rfl hcuts
  | ok cuts =>
    rw [hcuts] at h
    cases h

end Haute.Shred
