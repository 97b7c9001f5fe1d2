import Mathlib.Data.Fin.Basic
import Mathlib.Data.List.Basic
import Mathlib.Data.List.SplitBy
import Mathlib.Data.String.Basic

/-!
# Texts as code points, and their UTF-8 bytes

A Python `str` is a sequence of code points, lone surrogates among them, so a `CodeText` is a
list of `CodePoint`s. `encode` is the strict UTF-8 encoding, which fails on a surrogate;
`decodeReplace` is the decoding that puts `U+FFFD` for what it cannot read, one for each longest
stretch of bytes that begins a character. What was encoded is read back: `decodeReplace_encode`.
-/

namespace Haute.Data

/-- A code point, surrogates included. -/
abbrev CodePoint := Fin 0x110000

/-- A text, as the code points it is made of. -/
abbrev CodeText := List CodePoint

namespace CodePoint

/-- The code point of a character. -/
def ofChar (c : Char) : CodePoint := Fin.ofNat 0x110000 c.toNat

/-- The code point of a number. -/
def of (n : ℕ) : CodePoint := Fin.ofNat 0x110000 n

theorem val_of {n : ℕ} (h : n < 0x110000) : (of n).val = n := Nat.mod_eq_of_lt h

@[simp]
theorem of_val (c : CodePoint) : of c.val = c := Fin.ext (Nat.mod_eq_of_lt c.isLt)

theorem of_eq {n : ℕ} {c : CodePoint} (h : n = c.val) : of n = c := by
  rw [h, of_val]

/-- Whether a code point is ASCII. -/
def ascii (c : CodePoint) : Bool := c.val < 0x80

/-- Whether a code point is half of a surrogate pair. -/
def surrogate (c : CodePoint) : Bool := 0xD800 ≤ c.val && c.val ≤ 0xDFFF

/-- What stands for bytes that cannot be read. -/
def replacement : CodePoint := of 0xFFFD

end CodePoint

/-- The code points of a literal. -/
def codeText (s : String) : CodeText := s.toList.map CodePoint.ofChar

/-! ### Encoding -/

/-- The UTF-8 bytes of a code point; a surrogate has none. -/
def encodeChar (c : CodePoint) : Option (List ℕ) :=
  if c.val < 0x80 then some [c.val]
  else if c.val < 0x800 then some [0xC0 + c.val / 0x40, 0x80 + c.val % 0x40]
  else if c.surrogate then none
  else if c.val < 0x10000 then
    some [0xE0 + c.val / 0x1000, 0x80 + c.val / 0x40 % 0x40, 0x80 + c.val % 0x40]
  else
    some [0xF0 + c.val / 0x40000, 0x80 + c.val / 0x1000 % 0x40, 0x80 + c.val / 0x40 % 0x40,
      0x80 + c.val % 0x40]

/-- The UTF-8 bytes of a text. -/
def encode : CodeText → Option (List ℕ)
  | [] => some []
  | c :: s => do
    let bs ← encodeChar c
    let rest ← encode s
    pure (bs ++ rest)

theorem encode_cons_eq_some {c : CodePoint} {s : CodeText} {bs : List ℕ} :
    encode (c :: s) = some bs ↔
      ∃ first rest, encodeChar c = some first ∧ encode s = some rest ∧ bs = first ++ rest := by
  simp only [encode, Option.bind_eq_bind, Option.bind_eq_some_iff, Option.pure_def,
    Option.some.injEq]
  constructor
  · rintro ⟨first, hf, rest, hr, rfl⟩
    exact ⟨first, rest, hf, hr, rfl⟩
  · rintro ⟨first, rest, hf, hr, rfl⟩
    exact ⟨first, hf, rest, hr, rfl⟩

theorem lt_of_mem_encodeChar {c : CodePoint} {bs : List ℕ} (h : encodeChar c = some bs) {b : ℕ}
    (hb : b ∈ bs) : b < 0x100 := by
  have hc := c.isLt
  unfold encodeChar at h
  split_ifs at h <;> simp only [Option.some.injEq] at h <;> subst h <;>
    simp only [List.mem_cons, List.not_mem_nil, or_false] at hb <;> omega

/-- What is encoded is bytes. -/
theorem lt_of_mem_encode {s : CodeText} {bs : List ℕ} (h : encode s = some bs) {b : ℕ}
    (hb : b ∈ bs) : b < 0x100 := by
  induction s generalizing bs with
  | nil => simp only [encode, Option.some.injEq] at h; subst h; simp at hb
  | cons c s ih =>
    obtain ⟨first, rest, hf, hr, rfl⟩ := encode_cons_eq_some.mp h
    rcases List.mem_append.mp hb with hb | hb
    · exact lt_of_mem_encodeChar hf hb
    · exact ih hr hb

/-! ### Decoding -/

/-- Whether a byte goes on with a character. -/
def continuation (b : ℕ) : Bool := 0x80 ≤ b && b ≤ 0xBF

/-- Whether a byte is the second of a character of three or four bytes with that first one: no
character is written longer than it needs, and none is a surrogate or past the last. -/
def second (lead b : ℕ) : Bool :=
  (if lead = 0xE0 then 0xA0 else if lead = 0xF0 then 0x90 else 0x80) ≤ b &&
    b ≤ (if lead = 0xED then 0x9F else if lead = 0xF4 then 0x8F else 0xBF)

/-- The character that begins with the byte `b`, and how many of the bytes after it were read:
as many as begin a character, when they are no whole one. -/
def decodeChar (b : ℕ) (rest : List ℕ) : CodePoint × ℕ :=
  if b < 0x80 then (.of b, 0)
  else if 0xC2 ≤ b ∧ b ≤ 0xDF then
    if continuation (rest.getD 0 0) then
      (.of ((b - 0xC0) * 0x40 + (rest.getD 0 0 - 0x80)), 1)
    else (.replacement, 0)
  else if 0xE0 ≤ b ∧ b ≤ 0xEF then
    if second b (rest.getD 0 0) then
      if continuation (rest.getD 1 0) then
        (.of ((b - 0xE0) * 0x1000 + (rest.getD 0 0 - 0x80) * 0x40 + (rest.getD 1 0 - 0x80)), 2)
      else (.replacement, 1)
    else (.replacement, 0)
  else if 0xF0 ≤ b ∧ b ≤ 0xF4 then
    if second b (rest.getD 0 0) then
      if continuation (rest.getD 1 0) then
        if continuation (rest.getD 2 0) then
          (.of ((b - 0xF0) * 0x40000 + (rest.getD 0 0 - 0x80) * 0x1000 +
            (rest.getD 1 0 - 0x80) * 0x40 + (rest.getD 2 0 - 0x80)), 3)
        else (.replacement, 2)
      else (.replacement, 1)
    else (.replacement, 0)
  else (.replacement, 0)

/-- The text that bytes spell, with `U+FFFD` where they spell none. -/
def decodeReplace : List ℕ → CodeText
  | [] => []
  | b :: rest => (decodeChar b rest).1 :: decodeReplace (rest.drop (decodeChar b rest).2)
  termination_by bs => bs.length
  decreasing_by simp only [List.length_drop, List.length_cons]; omega

@[simp]
theorem decodeReplace_nil : decodeReplace [] = [] := by
  rw [decodeReplace]

theorem decodeReplace_cons (b : ℕ) (rest : List ℕ) :
    decodeReplace (b :: rest) =
      (decodeChar b rest).1 :: decodeReplace (rest.drop (decodeChar b rest).2) := by
  rw [decodeReplace]

theorem decodeReplace_cons_ascii {b : ℕ} (h : b < 0x80) (rest : List ℕ) :
    decodeReplace (b :: rest) = .of b :: decodeReplace rest := by
  rw [decodeReplace_cons]
  simp only [decodeChar, if_pos h, List.drop_zero]

/-- The bytes of a character are read back as it, whatever follows them. -/
theorem decodeReplace_encodeChar {c : CodePoint} {bs : List ℕ} (h : encodeChar c = some bs)
    (rest : List ℕ) : decodeReplace (bs ++ rest) = c :: decodeReplace rest := by
  have hc := c.isLt
  unfold encodeChar at h
  -- one to four bytes, and none for a surrogate
  split_ifs at h with h1 h2 h3 h4 <;> simp only [Option.some.injEq] at h <;> subst h
  · rw [List.singleton_append, decodeReplace_cons_ascii h1, CodePoint.of_val]
  · rw [List.cons_append, List.singleton_append, decodeReplace_cons]
    have hb : continuation (0x80 + c.val % 0x40) = true := by
      simp only [continuation, Bool.and_eq_true, decide_eq_true_eq]; omega
    have hd : decodeChar (0xC0 + c.val / 0x40) ((0x80 + c.val % 0x40) :: rest) = (c, 1) := by
      unfold decodeChar
      rw [if_neg (by omega), if_pos (by omega)]
      simp only [List.getD_cons_zero, hb, if_true, Prod.mk.injEq, and_true]
      exact CodePoint.of_eq (by omega)
    rw [hd, List.drop_succ_cons, List.drop_zero]
  · have hs : ¬ (0xD800 ≤ c.val ∧ c.val ≤ 0xDFFF) := by
      simpa only [CodePoint.surrogate, Bool.and_eq_true, decide_eq_true_eq] using h3
    simp only [List.cons_append, List.nil_append]
    rw [decodeReplace_cons]
    have hb : second (0xE0 + c.val / 0x1000) (0x80 + c.val / 0x40 % 0x40) = true := by
      simp only [second, Bool.and_eq_true, decide_eq_true_eq]
      constructor <;> split_ifs <;> omega
    have hb' : continuation (0x80 + c.val % 0x40) = true := by
      simp only [continuation, Bool.and_eq_true, decide_eq_true_eq]; omega
    have hd : decodeChar (0xE0 + c.val / 0x1000)
        ((0x80 + c.val / 0x40 % 0x40) :: (0x80 + c.val % 0x40) :: rest) = (c, 2) := by
      unfold decodeChar
      rw [if_neg (by omega), if_neg (by omega), if_pos (by omega)]
      simp only [List.getD_cons_zero, List.getD_cons_succ, hb, hb', if_true, Prod.mk.injEq,
        and_true]
      exact CodePoint.of_eq (by omega)
    rw [hd, List.drop_succ_cons, List.drop_succ_cons, List.drop_zero]
  · simp only [List.cons_append, List.nil_append]
    rw [decodeReplace_cons]
    have hb : second (0xF0 + c.val / 0x40000) (0x80 + c.val / 0x1000 % 0x40) = true := by
      simp only [second, Bool.and_eq_true, decide_eq_true_eq]
      constructor <;> split_ifs <;> omega
    have hb' : continuation (0x80 + c.val / 0x40 % 0x40) = true := by
      simp only [continuation, Bool.and_eq_true, decide_eq_true_eq]; omega
    have hb'' : continuation (0x80 + c.val % 0x40) = true := by
      simp only [continuation, Bool.and_eq_true, decide_eq_true_eq]; omega
    have hd : decodeChar (0xF0 + c.val / 0x40000) ((0x80 + c.val / 0x1000 % 0x40) ::
        (0x80 + c.val / 0x40 % 0x40) :: (0x80 + c.val % 0x40) :: rest) = (c, 3) := by
      unfold decodeChar
      rw [if_neg (by omega), if_neg (by omega), if_neg (by omega), if_pos (by omega)]
      simp only [List.getD_cons_zero, List.getD_cons_succ, hb, hb', hb'', if_true, Prod.mk.injEq,
        and_true]
      exact CodePoint.of_eq (by omega)
    rw [hd, List.drop_succ_cons, List.drop_succ_cons, List.drop_succ_cons, List.drop_zero]

/-- What was encoded is read back. -/
theorem decodeReplace_encode {s : CodeText} {bs : List ℕ} (h : encode s = some bs) :
    decodeReplace bs = s := by
  induction s generalizing bs with
  | nil => simp only [encode, Option.some.injEq] at h; subst h; exact decodeReplace_nil
  | cons c s ih =>
    obtain ⟨first, rest, hf, hr, rfl⟩ := encode_cons_eq_some.mp h
    rw [decodeReplace_encodeChar hf, ih hr]

end Haute.Data
