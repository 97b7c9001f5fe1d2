import Haute.Data.Decimals
import Haute.Schema.Labels
import Mathlib.Algebra.Field.Rat
import Mathlib.Tactic.Linarith
import Mathlib.Tactic.NormNum

/-!
# Decimal membership values

`decimalText` writes a number of a membership list without an exponent, from the decimal its `repr`
spells; `decimalValue` reads the number back. What is read back is the number, as an integer where
it is whole and no negative zero, and is written with the same text (`decimalText_survives`).

A text is its characters. A finite float is the exact decimal that its `repr` spells
(`FloatDecimal`): its digits, none for a zero, without leading and trailing zeros, and the power of
ten they count; a double is below ten to the 309th.
-/

namespace Haute.Steps

open Data

/-- So many zeros. -/
def zeros (n : ℕ) : List Char := List.replicate n '0'

/-- A finite float, as the decimal its `repr` spells. -/
@[ext]
structure FloatDecimal where
  negative : Bool
  digits : List Char
  exponent : ℤ
  isDigit : ∀ c ∈ digits, c.isDigit = true
  leading : digits.head? ≠ some '0'
  trailing : digits.getLast? ≠ some '0'
  zero : digits = [] → exponent = 0
  bounded : digits.length + exponent ≤ 309

/-- A number of a membership list. -/
inductive MemberNumber where
  | int (n : ℤ)
  | float (x : FloatDecimal)

/-- What digits count, with a sign. -/
def signedDigits (negative : Bool) (ds : List Char) : ℤ :=
  if negative then -(Nat.ofDigitChars 10 ds 0 : ℤ) else Nat.ofDigitChars 10 ds 0

/-- The number, exactly. -/
def MemberNumber.value : MemberNumber → ℚ
  | int n => n
  | float x => signedDigits x.negative x.digits * (10 : ℚ) ^ x.exponent

inductive MemberNumberError where
  /-- `ValueError`: more digits than an integer is read from or written with. -/
  | tooManyDigits
  /-- `ValueError`: a text that is no number. -/
  | notNumber
  /-- `_NoMatchError`. -/
  | noMatch
  deriving DecidableEq

/-! ### Texts of numbers -/

def sign (negative : Bool) : List Char := if negative then ['-'] else []

/-- `repr` of an int, which has a limit on its digits. -/
def reprInt (n : ℤ) : Except MemberNumberError (List Char) :=
  if n.natAbs < 10 ^ 4300 then .ok (sign (decide (n < 0)) ++ Nat.toDigits 10 n.natAbs)
    else .error .tooManyDigits

/-- Digits and decimal point as the `repr` of a float lays them out. -/
def layoutDigits (ds : List Char) (point : ℤ) : List Char :=
  if point ≤ -4 ∨ 16 < point then
    let exponent := Nat.toDigits 10 (point - 1).natAbs
    ds.take 1 ++ (if ds.length ≤ 1 then [] else '.' :: ds.drop 1) ++ 'e' ::
      (if point - 1 < 0 then '-' else '+') ::
      (zeros (2 - exponent.length) ++ exponent)
  else if point ≤ 0 then '0' :: '.' :: (zeros (-point).toNat ++ ds)
  else if point < ds.length then ds.take point.toNat ++ '.' :: ds.drop point.toNat
  else ds ++ zeros (point - ds.length).toNat ++ ['.', '0']

/-- `repr` of a finite float. -/
def reprFloat (x : FloatDecimal) : List Char :=
  sign x.negative ++
    if x.digits = [] then ['0', '.', '0'] else layoutDigits x.digits (x.digits.length + x.exponent)

/-- `decimal.Decimal`, its digits as `_int` holds them. -/
structure Decimal where
  negative : Bool
  int : List Char
  exponent : ℤ
  deriving DecidableEq

/-- An optional sign, and what follows it. -/
def takeSign : List Char → Bool × List Char
  | '-' :: cs => (true, cs)
  | '+' :: cs => (false, cs)
  | cs => (false, cs)

/-- Digits without leading zeros, one zero for none but zeros. -/
def stripLeading (ds : List Char) : List Char :=
  if ds.dropWhile (· = '0') = [] then ['0'] else ds.dropWhile (· = '0')

/-- An exponent to the end of a text. -/
def readExponent : List Char → Option ℤ
  | [] => some 0
  | e :: cs =>
    let (negative, ds) := takeSign cs
    if (e = 'e' ∨ e = 'E') ∧ ds ≠ [] ∧ ds.all Char.isDigit then some (signedDigits negative ds)
      else none

/-- `Decimal(text)`: a sign, digits with a point among them, and an exponent. -/
def readDecimal (text : List Char) : Option Decimal :=
  let (negative, cs) := takeSign text
  let whole := cs.takeWhile Char.isDigit
  let (fraction, rest) := match cs.dropWhile Char.isDigit with
    | '.' :: cs => (cs.takeWhile Char.isDigit, cs.dropWhile Char.isDigit)
    | cs => ([], cs)
  if whole = [] ∧ fraction = [] then none
  else (readExponent rest).map fun e =>
    ⟨negative, stripLeading (whole ++ fraction), e - fraction.length⟩

/-- `format(number, "f")`. -/
def formatFixed (d : Decimal) : List Char :=
  let exponent := if d.int = ['0'] ∧ 0 < d.exponent then 0 else d.exponent
  let point := d.int.length + exponent
  let (whole, fraction) :=
    if point < 0 then (['0'], zeros (-point).toNat ++ d.int)
    else if d.int.length < point then (d.int ++ zeros (point - d.int.length).toNat, [])
    else (if d.int.take point.toNat = [] then ['0']
      else d.int.take point.toNat, d.int.drop point.toNat)
  sign d.negative ++ whole ++ if fraction = [] then [] else '.' :: fraction

/-- `text.rstrip(c)`. -/
def rstrip (c : Char) (text : List Char) : List Char := (text.reverse.dropWhile (· = c)).reverse

/-- `repr` of a number. -/
def reprNumber : MemberNumber → Except MemberNumberError (List Char)
  | .int n => reprInt n
  | .float x => .ok (reprFloat x)

/-- `_decimal_text`. -/
def decimalText (number : MemberNumber) : Except MemberNumberError (List Char) := do
  let spelled ← reprNumber number
  match readDecimal spelled with
  | none => .error .notNumber
  | some d =>
    let text := formatFixed d
    return if '.' ∈ text then rstrip '.' (rstrip '0' text) else text

/-! ### Numbers of texts -/

/-- The zeros of the scripts with decimal digits of their own. -/
def scriptZeros : List ℕ :=
  [0x660, 0x6f0, 0x7c0, 0x966, 0x9e6, 0xa66, 0xae6, 0xb66, 0xbe6, 0xc66, 0xce6, 0xd66, 0xde6,
    0xe50, 0xed0, 0xf20, 0x1040, 0x1090, 0x17e0, 0x1810, 0x1946, 0x19d0, 0x1a80, 0x1a90, 0x1b50,
    0x1bb0, 0x1c40, 0x1c50, 0xa620, 0xa8d0, 0xa900, 0xa9d0, 0xa9f0, 0xaa50, 0xabf0, 0xff10,
    0x104a0, 0x10d30, 0x11066, 0x110f0, 0x11136, 0x111d0, 0x112f0, 0x11450, 0x114d0, 0x11650,
    0x116c0, 0x11730, 0x118e0, 0x11950, 0x11c50, 0x11d50, 0x11da0, 0x16a60, 0x16ac0, 0x16b50,
    0x1d7ce, 0x1d7d8, 0x1d7e2, 0x1d7ec, 0x1d7f6, 0x1e140, 0x1e2f0, 0x1e950, 0x1fbf0]

/-- A decimal digit of any script as the ASCII digit of its value. Any other character stays. -/
def asciiDigit (c : Char) : Char :=
  match scriptZeros.find? fun first => first ≤ c.toNat && c.toNat < first + 10 with
  | some first => Char.ofNat (48 + (c.toNat - first))
  | none => c

/-- A text without its underscores, each of which stands between two digits. `afterDigit` says
whether the character before was a digit. -/
def withoutUnderscores (afterDigit : Bool) : List Char → Option (List Char)
  | [] => some []
  | c :: cs =>
    if c = '_' then
      if afterDigit && cs.head?.any Char.isDigit then withoutUnderscores false cs else none
    else (withoutUnderscores c.isDigit cs).map (c :: ·)

/-- What `int` and `float` read of a text: no blanks around it, digits of any script, and no
underscores between them. -/
def spelledNumber (text : List Char) : Except MemberNumberError (List Char) :=
  match withoutUnderscores false ((strip text).map asciiDigit) with
  | some cs => .ok cs
  | none => .error .notNumber

/-- `int(text)`. -/
def readInt (text : List Char) : Except MemberNumberError ℤ := do
  let cs ← spelledNumber text
  let (negative, ds) := takeSign cs
  if ds = [] ∨ ¬ ds.all Char.isDigit then .error .notNumber
  else if 4300 < ds.length then .error .tooManyDigits
  else .ok (signedDigits negative ds)

/-- Digits without trailing zeros. -/
def withoutTrailing (ds : List Char) : List Char := rstrip '0' ds

/-- Whether digits and an exponent are those of a finite float. -/
def isFloat (ds : List Char) (exponent : ℤ) : Prop :=
  (∀ c ∈ ds, c.isDigit = true) ∧ ds.head? ≠ some '0' ∧ ds.getLast? ≠ some '0' ∧
    (ds = [] → exponent = 0) ∧
    ds.length + exponent ≤ 309

-- the digits are run through, not all characters
instance (ds : List Char) (exponent : ℤ) : Decidable (isFloat ds exponent) :=
  @instDecidableAnd _ _ (List.decidableBAll _ ds) inferInstance

/-- `float(text)` where the text spells a finite float: the decimal without leading and trailing
zeros. -/
def readFloat (text : List Char) : Except MemberNumberError FloatDecimal := do
  let cs ← spelledNumber text
  match readDecimal cs with
  | none => .error .notNumber
  | some d =>
    let digits := if d.int = ['0'] then [] else withoutTrailing d.int
    let exponent := if digits = [] then 0 else d.exponent + (d.int.length - digits.length : ℕ)
    if h : isFloat digits exponent then
      .ok ⟨d.negative, digits, exponent, h.1, h.2.1, h.2.2.1, h.2.2.2.1, h.2.2.2.2⟩
    else .error .noMatch

/-- The first of the choices that is written with the text. -/
def firstWritten (text : List Char) : List MemberNumber → Except MemberNumberError MemberNumber
  | [] => .error .noMatch
  | choice :: choices => do
    let written ← decimalText choice
    if written = text then return choice else firstWritten text choices

/-- `_decimal_value`. A float that is not finite is written with no number's text. -/
def decimalValue (text : List Char) : Except MemberNumberError MemberNumber :=
  if '.' ∈ text then do
    let x ← readFloat text
    firstWritten text [.float x]
  else do
    let n ← readInt text
    firstWritten text (.int n :: (readFloat text).toOption.toList.map .float)

/-! ### Texts read -/

/-- A character that a number's text consists of where it has no exponent. -/
def IsPlain (c : Char) : Prop := c.isDigit = true ∨ c = '-' ∨ c = '.'

/-- A sign in front of plain characters is plain. -/
theorem isPlain_sign (negative : Bool) {cs : List Char} (h : ∀ c ∈ cs, IsPlain c) :
    ∀ c ∈ sign negative ++ cs, IsPlain c := by
  intro c hc
  rcases List.mem_append.mp hc with hc | hc
  · cases negative with
    | false => cases hc
    | true => exact .inr (.inl (List.mem_singleton.mp hc))
  · exact h c hc

theorem toNat_lt_of_isPlain {c : Char} (h : IsPlain c) : c.toNat < 0x660 := by
  rcases h with h | rfl | rfl
  · have := toNat_of_isDigit h
    omega
  · decide
  · decide

/-- The characters of a plain text stand for themselves. -/
theorem asciiDigit_of_isPlain {c : Char} (h : IsPlain c) : asciiDigit c = c := by
  have hlt := toNat_lt_of_isPlain h
  have hbeyond : ∀ first ∈ scriptZeros, 0x660 ≤ first := by decide
  have hnone : (scriptZeros.find? fun first => first ≤ c.toNat && c.toNat < first + 10) =
      none := by
    refine List.find?_eq_none.mpr fun first hmem hfound => ?_
    have hle := of_decide_eq_true (Bool.and_eq_true_iff.mp hfound).1
    have := hbeyond first hmem
    omega
  rw [asciiDigit, hnone]

/-- No plain character is a blank. -/
theorem isPySpace_of_isPlain {c : Char} (h : IsPlain c) : isPySpace c = false := by
  rcases h with h | rfl | rfl
  · have := toNat_of_isDigit h
    rw [← Bool.not_eq_true]
    simp [isPySpace]
    omega
  · decide
  · decide

/-- A plain text has no underscores to take out. -/
theorem withoutUnderscores_of_isPlain {cs : List Char} (h : ∀ c ∈ cs, IsPlain c)
    (afterDigit : Bool) : withoutUnderscores afterDigit cs = some cs := by
  induction cs generalizing afterDigit with
  | nil => rfl
  | cons c cs ih =>
    have hc : c ≠ '_' := by
      rintro rfl
      rcases h '_' List.mem_cons_self with h | h | h <;> exact absurd h (by decide)
    rw [withoutUnderscores, if_neg hc, ih (fun d hd => h d (List.mem_cons_of_mem c hd)),
      Option.map_some]

/-- A plain text is read as it is. -/
theorem spelledNumber_of_isPlain {text : List Char} (h : ∀ c ∈ text, IsPlain c) :
    spelledNumber text = .ok text := by
  have hfront : text.dropWhile isPySpace = text :=
    List.dropWhile_eq_self_iff.mpr fun hpos => by
      rw [isPySpace_of_isPlain (h _ (List.getElem_mem hpos))]
      exact Bool.false_ne_true
  have hback : text.rdropWhile isPySpace = text :=
    List.rdropWhile_eq_self_iff.mpr fun hne => by
      rw [isPySpace_of_isPlain (h _ (List.getLast_mem hne))]
      exact Bool.false_ne_true
  have hascii : text.map asciiDigit = text :=
    (List.map_congr_left fun c hc => asciiDigit_of_isPlain (h c hc)).trans (List.map_id text)
  rw [spelledNumber, strip, hfront, hback, hascii, withoutUnderscores_of_isPlain h]

theorem isDigit_zeros {n : ℕ} {c : Char} (h : c ∈ zeros n) : c.isDigit = true := by
  rw [List.eq_of_mem_replicate h]
  rfl

@[simp] theorem length_zeros (n : ℕ) : (zeros n).length = n := List.length_replicate

/-- A span of digits ends where they do. -/
theorem span_digits {ds rest : List Char} (hds : ∀ c ∈ ds, c.isDigit = true)
    (hrest : ∀ c ∈ rest.head?, c.isDigit = false) :
    (ds ++ rest).takeWhile Char.isDigit = ds ∧ (ds ++ rest).dropWhile Char.isDigit = rest := by
  have hnil : rest.takeWhile Char.isDigit = [] ∧ rest.dropWhile Char.isDigit = rest := by
    cases rest with
    | nil => exact ⟨rfl, rfl⟩
    | cons c cs => simp [hrest c rfl]
  rw [List.takeWhile_append_of_pos hds, List.dropWhile_append_of_pos hds, hnil.1, hnil.2,
    List.append_nil]
  exact ⟨rfl, rfl⟩

/-- A sign in front of digits is taken off. -/
theorem takeSign_sign {cs : List Char} (negative : Bool) (h : ∀ c ∈ cs.head?, c.isDigit = true) :
    takeSign (sign negative ++ cs) = (negative, cs) := by
  cases negative with
  | true => rfl
  | false =>
    cases cs with
    | nil => rfl
    | cons c cs =>
      have hc := h c rfl
      have hminus : c ≠ '-' := by rintro rfl; cases hc
      have hplus : c ≠ '+' := by rintro rfl; cases hc
      simp [sign, takeSign, hminus, hplus]

theorem head?_digits {ds rest : List Char} (hne : ds ≠ []) (hds : ∀ c ∈ ds, c.isDigit = true) :
    ∀ c ∈ (ds ++ rest).head?, c.isDigit = true := by
  intro c hc
  rw [List.head?_append, Option.or_of_isSome (by simpa using hne)] at hc
  exact hds c (List.mem_of_mem_head? hc)

/-- A text without a point. -/
theorem readDecimal_whole (whole tail : List Char) (hne : whole ≠ [])
    (hwhole : ∀ c ∈ whole, c.isDigit = true)
    (htail : ∀ c ∈ tail.head?, c.isDigit = false ∧ c ≠ '.') (negative : Bool) :
    readDecimal (sign negative ++ (whole ++ tail)) =
      (readExponent tail).map fun e => ⟨negative, stripLeading whole, e⟩ := by
  obtain ⟨htake, hdrop⟩ := span_digits hwhole fun c hc => (htail c hc).1
  have hmatch : (match tail with
      | '.' :: cs => (cs.takeWhile Char.isDigit, cs.dropWhile Char.isDigit)
      | cs => ([], cs)) = ([], tail) := by
    split
    · exact absurd rfl (htail _ rfl).2
    · rfl
  rw [readDecimal, takeSign_sign negative (head?_digits hne hwhole)]
  simp only [htake, hdrop, hmatch, hne, false_and, if_false, List.append_nil, List.length_nil,
    Nat.cast_zero, sub_zero]

/-- A text with a point. -/
theorem readDecimal_point (whole fraction tail : List Char) (hne : whole ≠ [])
    (hwhole : ∀ c ∈ whole, c.isDigit = true) (hfraction : ∀ c ∈ fraction, c.isDigit = true)
    (htail : ∀ c ∈ tail.head?, c.isDigit = false) (negative : Bool) :
    readDecimal (sign negative ++ (whole ++ '.' :: (fraction ++ tail))) =
      (readExponent tail).map fun e =>
        ⟨negative, stripLeading (whole ++ fraction), e - fraction.length⟩ := by
  have hpoint : ∀ c ∈ ('.' :: (fraction ++ tail)).head?, c.isDigit = false := by
    rintro c hc
    obtain rfl := Option.some.inj hc
    rfl
  obtain ⟨htake, hdrop⟩ := span_digits hwhole hpoint
  obtain ⟨htake', hdrop'⟩ := span_digits hfraction htail
  rw [readDecimal, takeSign_sign negative (head?_digits hne hwhole)]
  simp only [htake, hdrop, htake', hdrop', hne, false_and, if_false]

/-- A written exponent reads back, its sign and two digits at least. -/
theorem readExponent_layout (n : ℤ) :
    readExponent ('e' :: (if n < 0 then '-' else '+') ::
      (zeros (2 - (Nat.toDigits 10 n.natAbs).length) ++ Nat.toDigits 10 n.natAbs)) = some n := by
  set ds := zeros (2 - (Nat.toDigits 10 n.natAbs).length) ++ Nat.toDigits 10 n.natAbs with hds
  have hne : ds ≠ [] := by simp [hds, Nat.toDigits_ne_nil]
  have hall : ds.all Char.isDigit = true := by
    rw [List.all_eq_true]
    intro c hc
    rcases List.mem_append.mp hc with hc | hc
    · exact isDigit_zeros hc
    · exact (isDecimal_toDigits _).1 c hc
  have hvalue : Nat.ofDigitChars 10 ds 0 = n.natAbs := by
    rw [hds, Nat.ofDigitChars_append, zeros, Nat.ofDigitChars_replicate_zero, Nat.mul_zero,
      Nat.ofDigitChars_ten_toDigits]
  by_cases hn : n < 0
  · rw [if_pos hn]
    change (if ('e' = 'e' ∨ 'e' = 'E') ∧ ds ≠ [] ∧ ds.all Char.isDigit =
      true then some (signedDigits true ds)
      else none) = some n
    rw [if_pos ⟨.inl rfl, hne, hall⟩, signedDigits, if_pos rfl, hvalue]
    exact congrArg some (by omega)
  · rw [if_neg hn]
    change (if ('e' = 'e' ∨ 'e' = 'E') ∧ ds ≠ [] ∧ ds.all Char.isDigit =
      true then some (signedDigits false ds)
      else none) = some n
    rw [if_pos ⟨.inl rfl, hne, hall⟩, signedDigits, if_neg Bool.false_ne_true, hvalue]
    exact congrArg some (by omega)

/-- Zeros in front of a number are stripped. -/
theorem stripLeading_zeros {ds : List Char} (n : ℕ) (hne : ds ≠ []) (hlead : ds.head? ≠ some '0') :
    stripLeading (zeros n ++ ds) = ds := by
  have hdrop : (zeros n ++ ds).dropWhile (· = '0') = ds := by
    rw [List.dropWhile_append_of_pos fun c hc => decide_eq_true (List.eq_of_mem_replicate hc)]
    cases ds with
    | nil => rfl
    | cons d ds =>
      simp only [List.dropWhile_cons, decide_eq_true_eq, if_neg fun h => hlead (congrArg some h)]
  rw [stripLeading, hdrop, if_neg hne]

/-- A number with no zero in front keeps its digits. -/
theorem stripLeading_eq {ds : List Char} (hne : ds ≠ []) (hlead : ds.head? ≠ some '0') :
    stripLeading ds = ds :=
  stripLeading_zeros 0 hne hlead

/-! ### Texts written -/

/-- Digits with a point, and without an exponent. -/
def fixedText (ds : List Char) (point : ℤ) : List Char :=
  if point ≤ 0 then '0' :: '.' :: (zeros (-point).toNat ++ ds)
  else if point < ds.length then ds.take point.toNat ++ '.' :: ds.drop point.toNat
  else ds ++ zeros (point - ds.length).toNat

theorem rstrip_concat {c d : Char} (h : d ≠ c) (text : List Char) :
    rstrip c (text ++ [d]) = text ++ [d] := by
  simp [rstrip, h]

/-- A text that does not end in the character is kept. -/
theorem rstrip_eq {c : Char} {text : List Char} (h : text.getLast? ≠ some c) :
    rstrip c text = text := by
  rcases List.eq_nil_or_concat text with rfl | ⟨front, last, rfl⟩
  · rfl
  · rw [List.concat_eq_append] at h ⊢
    exact rstrip_concat (fun heq => h (by rw [heq, List.getLast?_concat])) front

/-- Stripping takes the character off once more. -/
theorem rstrip_append_self (c : Char) (text : List Char) :
    rstrip c (text ++ [c]) = rstrip c text := by
  simp [rstrip]

theorem not_point_mem {ds : List Char} (h : ∀ c ∈ ds, c.isDigit = true) : '.' ∉ ds := fun hmem => by
  cases h _ hmem

theorem not_point_sign (negative : Bool) : '.' ∉ sign negative := by
  cases negative <;> simp [sign]

/-- An exponent after a mantissa with one digit before its point. -/
theorem readDecimal_mantissa {d : Char} {rest : List Char} (hds : ∀ c ∈ d :: rest, c.isDigit = true)
    (hd : d ≠ '0')
    (negative : Bool) {tail : List Char} {e : ℤ}
    (hhead : ∀ c ∈ tail.head?, c.isDigit = false ∧ c ≠ '.')
    (htail : readExponent tail = some e) :
    readDecimal (sign negative ++ (d :: (if rest = [] then [] else '.' :: rest) ++ tail)) =
      some ⟨negative, d :: rest, e - rest.length⟩ := by
  have hwhole : ∀ c ∈ [d], c.isDigit = true := fun c hc => hds c (by simp_all)
  have hlead : ∀ cs : List Char, (d :: cs).head? ≠ some '0' := fun cs h => hd (Option.some.inj h)
  by_cases hrest : rest = []
  · subst hrest
    have h := readDecimal_whole [d] tail (List.cons_ne_nil d []) hwhole hhead negative
    rw [htail, stripLeading_eq (List.cons_ne_nil _ _) (hlead [])] at h
    rw [if_pos rfl]
    refine h.trans ?_
    simp
  · have h := readDecimal_point [d] rest tail (List.cons_ne_nil d []) hwhole
      (fun c hc => hds c (List.mem_cons_of_mem d hc)) (fun c hc => (hhead c hc).1) negative
    simp only [htail, List.singleton_append] at h
    rw [stripLeading_eq (List.cons_ne_nil _ _) (hlead rest)] at h
    rw [if_neg hrest]
    simpa using h

/-- Digits around a point read back as one number with its exponent. -/
theorem readDecimal_fraction {whole fraction : List Char} (hne : whole ≠ [])
    (hwhole : ∀ c ∈ whole, c.isDigit = true) (hfraction : ∀ c ∈ fraction, c.isDigit = true)
    (negative : Bool) :
    readDecimal (sign negative ++ (whole ++ '.' :: fraction)) =
      some ⟨negative, stripLeading (whole ++ fraction), -(fraction.length : ℤ)⟩ := by
  have h := readDecimal_point whole fraction [] hne hwhole hfraction (by simp) negative
  rw [List.append_nil] at h
  refine h.trans ?_
  simp [readExponent]

/-- The decimal that a float's digits are laid out as. -/
theorem readDecimal_layoutDigits {ds : List Char} (hne : ds ≠ []) (hds : ∀ c ∈ ds, c.isDigit = true)
    (hlead : ds.head? ≠ some '0') (negative : Bool) (point : ℤ) :
    readDecimal (sign negative ++ layoutDigits ds point) =
      some (if (ds.length : ℤ) ≤ point ∧ point ≤ 16 then
          ⟨negative, ds ++ zeros ((point - ds.length).toNat + 1), -1⟩
        else ⟨negative, ds, point - ds.length⟩) := by
  have hpos : 0 < ds.length := List.length_pos_iff.mpr hne
  have hzeros (n : ℕ) : ∀ c ∈ zeros n, c.isDigit = true := fun c => isDigit_zeros
  have hboth {as bs : List Char} (ha : ∀ c ∈ as, c.isDigit = true)
      (hb : ∀ c ∈ bs, c.isDigit = true) :
      ∀ c ∈ as ++ bs, c.isDigit = true := fun c hc => (List.mem_append.mp hc).elim (ha c) (hb c)
  unfold layoutDigits
  by_cases hsci : point ≤ -4 ∨ 16 < point
  · rw [if_pos hsci]
    obtain ⟨d, rest, rfl⟩ := List.exists_cons_of_ne_nil hne
    have hexponent := readExponent_layout (point - 1)
    have hif : (if (d :: rest).length ≤ 1 then [] else '.' :: (d :: rest).drop 1) =
        if rest = [] then [] else '.' :: rest := by
      cases rest <;> simp
    have hnot : ¬ (((d :: rest).length : ℤ) ≤ point ∧ point ≤ 16) := by omega
    have h := readDecimal_mantissa hds (fun h => hlead (congrArg some h)) negative (fun c hc => by
      obtain rfl := Option.some.inj hc
      decide) hexponent
    rw [if_neg hnot]
    simp only [hif, List.take_succ_cons, List.take_zero]
    refine h.trans ?_
    rw [List.length_cons]
    exact congrArg some (congrArg _ (by push_cast; omega))
  · rw [if_neg hsci]
    by_cases hsmall : point ≤ 0
    · have h :=
        readDecimal_fraction (List.cons_ne_nil '0' []) (hzeros 1)
          (hboth (hzeros (-point).toNat) hds) negative
      have hstrip : stripLeading (['0'] ++ (zeros (-point).toNat ++ ds)) = ds :=
        stripLeading_zeros ((-point).toNat + 1) hne hlead
      have hnot : ¬ ((ds.length : ℤ) ≤ point ∧ point ≤ 16) := by omega
      rw [hstrip] at h
      rw [if_pos hsmall, if_neg hnot]
      refine h.trans ?_
      rw [List.length_append, length_zeros]
      exact congrArg some (congrArg _ (by omega))
    · rw [if_neg hsmall]
      by_cases hmid : point < ds.length
      · have htake : ds.take point.toNat ≠ [] := by
          rw [Ne, List.take_eq_nil_iff, not_or]
          exact ⟨by omega, hne⟩
        have h := readDecimal_fraction htake (fun c hc => hds c (List.mem_of_mem_take hc))
          (show ∀ c ∈ ds.drop point.toNat, c.isDigit = true from fun c hc =>
            hds c (List.mem_of_mem_drop hc)) negative
        have hnot : ¬ ((ds.length : ℤ) ≤ point ∧ point ≤ 16) := by omega
        rw [List.take_append_drop, stripLeading_eq hne hlead] at h
        rw [if_pos hmid, if_neg hnot]
        refine h.trans ?_
        rw [List.length_drop]
        exact congrArg some (congrArg _ (by omega))
      · have hyes : (ds.length : ℤ) ≤ point ∧ point ≤ 16 := by omega
        have h := readDecimal_fraction (List.append_ne_nil_of_left_ne_nil hne _)
          (hboth hds (hzeros (point - ds.length).toNat)) (hzeros 1) negative
        have happend : ds ++ zeros (point - ds.length).toNat ++ zeros 1 =
            ds ++ zeros ((point - ds.length).toNat + 1) := by
          rw [List.append_assoc, zeros, zeros, zeros, List.replicate_append_replicate]
        have hhead : (ds ++ zeros ((point - ds.length).toNat + 1)).head? ≠ some '0' := by
          rwa [List.head?_append, Option.or_of_isSome (by simpa using hne)]
        rw [happend, stripLeading_eq (List.append_ne_nil_of_left_ne_nil hne _) hhead] at h
        rw [if_neg hmid, if_pos hyes]
        exact h

theorem getLast?_append_ne {as bs : List Char} {c : Char} (hne : bs ≠ [])
    (h : bs.getLast? ≠ some c) :
    (as ++ bs).getLast? ≠ some c := by
  rwa [List.getLast?_append, Option.or_of_isSome (by simpa using hne)]

/-- A float's decimal without an exponent, once its zeros past the point are stripped. -/
theorem stripped_formatFixed {ds : List Char} (hne : ds ≠ []) (hds : ∀ c ∈ ds, c.isDigit = true)
    (hlead : ds.head? ≠ some '0') (htrail : ds.getLast? ≠ some '0') (negative : Bool) (point : ℤ) :
    (if '.' ∈ formatFixed ⟨negative, ds, point - ds.length⟩ then
        rstrip '.' (rstrip '0' (formatFixed ⟨negative, ds, point - ds.length⟩))
      else formatFixed ⟨negative, ds, point - ds.length⟩) =
        sign negative ++ fixedText ds point := by
  have hnozero : ¬ (ds = ['0'] ∧ 0 < point - (ds.length : ℤ)) := fun h => hlead (by rw [h.1]; rfl)
  have hpoint : (ds.length : ℤ) + (point - ds.length) = point := by omega
  have hlast : ds.getLast? ≠ some '.' := fun h => by cases hds '.' (List.mem_of_mem_getLast? h)
  -- a text that ends as the digits end keeps its end
  have hkeep {front : List Char} : rstrip '.' (rstrip '0' (front ++ ds)) = front ++ ds := by
    rw [rstrip_eq (getLast?_append_ne hne htrail), rstrip_eq (getLast?_append_ne hne hlast)]
  have hkeepDrop {front : List Char} {k : ℕ} (hk : k < ds.length) :
      rstrip '.' (rstrip '0' (front ++ ds.drop k)) = front ++ ds.drop k := by
    have hdrop : ds.drop k ≠ [] := by simpa using hk
    have hsame : (ds.drop k).getLast? = ds.getLast? := by
      rw [List.getLast?_drop, if_neg (by omega)]
    rw [rstrip_eq (getLast?_append_ne hdrop (hsame ▸ htrail)),
      rstrip_eq (getLast?_append_ne hdrop (hsame ▸ hlast))]
  unfold formatFixed fixedText
  simp only [hnozero, if_false, hpoint]
  by_cases hneg : point < 0
  · have hfraction : zeros (-point).toNat ++ ds ≠ [] := List.append_ne_nil_of_right_ne_nil _ hne
    simp only [hneg, hneg.le, if_true, hfraction, if_false]
    have hmem : '.' ∈ sign negative ++ ['0'] ++ '.' :: (zeros (-point).toNat ++ ds) := by simp
    have hassoc : sign negative ++ ['0'] ++ '.' :: (zeros (-point).toNat ++ ds) =
        (sign negative ++ '0' :: '.' :: zeros (-point).toNat) ++ ds := by simp
    rw [if_pos hmem, hassoc, hkeep]
    simp
  · simp only [hneg, if_false]
    by_cases hlong : (ds.length : ℤ) < point
    · have hpos : ¬ point ≤ 0 := by omega
      have hmid : ¬ point < (ds.length : ℤ) := by omega
      have hno : '.' ∉ sign negative ++ (ds ++ zeros (point - ds.length).toNat) ++ [] := by
        simp only [List.append_nil, List.mem_append, not_or]
        exact ⟨not_point_sign negative, not_point_mem hds, not_point_mem fun c => isDigit_zeros⟩
      simp only [hlong, hpos, hmid, if_true, if_false]
      rw [if_neg hno, List.append_nil]
    · simp only [hlong, if_false]
      by_cases hzero : point ≤ 0
      · obtain rfl : point = 0 := by omega
        simp only [Int.toNat_zero, List.take_zero, List.drop_zero, hne, if_true, if_false,
          le_refl, neg_zero]
        have hmem : '.' ∈ sign negative ++ ['0'] ++ '.' :: ds := by simp
        have hassoc : sign negative ++ ['0'] ++ '.' :: ds =
            (sign negative ++ ['0', '.']) ++ ds := by simp
        rw [if_pos hmem, hassoc, hkeep]
        simp [zeros]
      · have htake : ds.take point.toNat ≠ [] := by
          rw [Ne, List.take_eq_nil_iff, not_or]
          exact ⟨by omega, hne⟩
        simp only [hzero, htake, if_false]
        by_cases hmid : point < (ds.length : ℤ)
        · have hk : point.toNat < ds.length := by omega
          have hdrop : ds.drop point.toNat ≠ [] := by simpa using hk
          simp only [hmid, hdrop, if_true, if_false]
          have hmem : '.' ∈ sign negative ++ ds.take point.toNat ++ '.' :: ds.drop
              point.toNat := by simp
          have hassoc : sign negative ++ ds.take point.toNat ++ '.' :: ds.drop point.toNat =
              (sign negative ++ ds.take point.toNat ++ ['.']) ++ ds.drop point.toNat := by simp
          rw [if_pos hmem, hassoc, hkeepDrop hk]
          simp
        · have hall : ds.take point.toNat = ds := List.take_of_length_le (by omega)
          have hdrop : ds.drop point.toNat = [] := List.drop_of_length_le (by omega)
          have hzeros : (point - ds.length).toNat = 0 := by omega
          simp only [hmid, hall, hdrop, if_true, if_false, hzeros, List.append_nil]
          have hno : '.' ∉ sign negative ++ ds := by
            rw [List.mem_append, not_or]
            exact ⟨not_point_sign negative, not_point_mem hds⟩
          rw [if_neg hno]
          simp [zeros]

/-- The text of a float that is not zero. -/
theorem decimalText_float {x : FloatDecimal} (hne : x.digits ≠ []) :
    decimalText (.float x) =
      .ok (sign x.negative ++ fixedText x.digits (x.digits.length + x.exponent)) := by
  have hpos : 0 < x.digits.length := List.length_pos_iff.mpr hne
  have hread :=
    readDecimal_layoutDigits hne x.isDigit x.leading x.negative (x.digits.length + x.exponent)
  have hspelled : reprFloat x = sign x.negative ++ layoutDigits x.digits
      (x.digits.length + x.exponent) := by
    rw [reprFloat, if_neg hne]
  change (match readDecimal (reprFloat x) with | none => _ | some d => _) = _
  rw [hspelled, hread]
  by_cases hwhole : (x.digits.length : ℤ) ≤ x.digits.length + x.exponent ∧
    (x.digits.length + x.exponent : ℤ) ≤ 16
  · -- the layout ends in a point and a zero
    rw [if_pos hwhole]
    have hexp : ((x.digits.length : ℤ) + x.exponent - x.digits.length).toNat =
        x.exponent.toNat := by omega
    rw [hexp]
    have hformat : formatFixed ⟨x.negative, x.digits ++ zeros (x.exponent.toNat + 1), -1⟩ =
        sign x.negative ++ (x.digits ++ zeros x.exponent.toNat) ++ ['.'] ++ ['0'] := by
      have hlen : (x.digits ++ zeros (x.exponent.toNat + 1)).length =
          x.digits.length + (x.exponent.toNat + 1) := by simp
      have hpoint : ((x.digits ++ zeros (x.exponent.toNat + 1)).length : ℤ) + -1 =
          (x.digits ++ zeros x.exponent.toNat).length := by
        rw [hlen, List.length_append, length_zeros]
        push_cast
        omega
      have hsplit : x.digits ++ zeros (x.exponent.toNat + 1) =
          (x.digits ++ zeros x.exponent.toNat) ++ ['0'] := by
        rw [List.append_assoc, zeros, zeros, List.replicate_succ']
      have hfront : x.digits ++ zeros x.exponent.toNat ≠ [] :=
        List.append_ne_nil_of_left_ne_nil hne _
      unfold formatFixed
      simp only [show ¬ (0 : ℤ) < -1 by omega, and_false, if_false, hpoint]
      rw [if_neg (by omega),
        if_neg (by rw [hlen, List.length_append, length_zeros]; push_cast; omega)]
      simp only [Int.toNat_natCast, hsplit, List.take_left', List.drop_left', hfront, if_false,
        List.cons_ne_nil]
      simp
    have hmem : '.' ∈ sign x.negative ++ (x.digits ++ zeros x.exponent.toNat) ++ ['.'] ++
        ['0'] := by simp
    have hlast : (sign x.negative ++ (x.digits ++ zeros x.exponent.toNat)).getLast? ≠ some '.' := by
      intro h
      rcases List.mem_append.mp (List.mem_of_mem_getLast? h) with h | h
      · exact not_point_sign _ h
      · rcases List.mem_append.mp h with h | h
        · exact not_point_mem x.isDigit h
        · exact not_point_mem (fun c => isDigit_zeros) h
    simp only [hformat, if_pos hmem]
    rw [rstrip_append_self, rstrip_concat (by decide), rstrip_append_self,
      rstrip_eq hlast, fixedText,
      if_neg (by omega), if_neg (by omega)]
    have hexp' : ((x.digits.length : ℤ) + x.exponent - x.digits.length).toNat =
        x.exponent.toNat := by omega
    rw [hexp']
    rfl
  · rw [if_neg hwhole]
    exact congrArg Except.ok (stripped_formatFixed hne x.isDigit x.leading x.trailing x.negative _)

/-! ### Texts read back -/

/-- Signed digits have the magnitude that the digits spell. -/
theorem natAbs_signedDigits (negative : Bool) (ds : List Char) :
    (signedDigits negative ds).natAbs = Nat.ofDigitChars 10 ds 0 := by
  cases negative <;> simp [signedDigits]

/-- The digits of a float have no zero in front. -/
theorem stripLeading_isDecimal {ds : List Char} (h : IsDecimal ds) : stripLeading ds = ds := by
  by_cases hlead : ds.head? = some '0'
  · rw [h.2.2 hlead]
    rfl
  · exact stripLeading_eq h.2.1 hlead

/-- A whole number is laid out as its sign and digits. -/
theorem formatFixed_whole {ds : List Char} (hne : ds ≠ []) (negative : Bool) :
    formatFixed ⟨negative, ds, 0⟩ = sign negative ++ ds := by
  have hlong : ¬ (ds.length : ℤ) + 0 < 0 := by omega
  unfold formatFixed
  simp only [lt_self_iff_false, and_false, if_false, hlong]
  simp [hne]

/-- The text of an integer that its `repr` writes. -/
theorem decimalText_int (n : ℤ) :
    decimalText (.int n) = reprInt n := by
  by_cases hn : n.natAbs < 10 ^ 4300
  · have hdecimal := isDecimal_toDigits n.natAbs
    have hspelled : reprInt n = .ok (sign (decide (n < 0)) ++ Nat.toDigits 10 n.natAbs) := if_pos hn
    have hread :=
      readDecimal_whole (Nat.toDigits 10 n.natAbs) [] hdecimal.2.1 hdecimal.1 (by simp)
        (decide (n < 0))
    rw [List.append_nil, stripLeading_isDecimal hdecimal] at hread
    have hno : '.' ∉ sign (decide (n < 0)) ++ Nat.toDigits 10 n.natAbs := by
      rw [List.mem_append, not_or]
      exact ⟨not_point_sign _, not_point_mem hdecimal.1⟩
    rw [decimalText, reprNumber, hspelled]
    change (match readDecimal _ with | none => _ | some d => _) = _
    rw [hread]
    change Except.ok (if '.' ∈ formatFixed ⟨_, _, 0⟩ then _ else formatFixed ⟨_, _, 0⟩) = _
    rw [formatFixed_whole hdecimal.2.1, if_neg hno]
  · have hspelled : reprInt n = .error .tooManyDigits := if_neg hn
    rw [decimalText, reprNumber, hspelled]
    rfl

/-- An integer within the digit limit is written as its sign and digits. -/
theorem decimalText_int_ok {n : ℤ} (hn : n.natAbs < 10 ^ 4300) :
    decimalText (.int n) = .ok (sign (decide (n < 0)) ++ Nat.toDigits 10 n.natAbs) := by
  rw [decimalText_int, reprInt, if_pos hn]

/-- A float of zero is written as its sign and one zero. -/
theorem decimalText_zero {x : FloatDecimal} (hzero : x.digits = []) :
    decimalText (.float x) = .ok (sign x.negative ++ ['0']) := by
  have hspelled : reprFloat x = sign x.negative ++ ['0', '.', '0'] :=
    by rw [reprFloat, if_pos hzero]
  change (match readDecimal (reprFloat x) with | none => _ | some d => _) = _
  rw [hspelled]
  cases x.negative <;> rfl

/-- A number that was written is the first of its own choices. -/
theorem firstWritten_self {text : List Char} {choice : MemberNumber}
    (h : decimalText choice = .ok text)
    (choices : List MemberNumber) : firstWritten text (choice :: choices) = .ok choice := by
  rw [firstWritten, h]
  exact if_pos rfl

/-- Digits laid out around a point are plain. -/
theorem isPlain_fixedText {ds : List Char} (hds : ∀ c ∈ ds, c.isDigit = true) (point : ℤ) :
    ∀ c ∈ fixedText ds point, IsPlain c := by
  intro c hc
  unfold fixedText at hc
  split_ifs at hc
  · rcases List.mem_cons.mp hc with rfl | hc
    · exact .inl rfl
    · rcases List.mem_cons.mp hc with rfl | hc
      · exact .inr (.inr rfl)
      · exact .inl ((List.mem_append.mp hc).elim isDigit_zeros (hds c))
  · rcases List.mem_append.mp hc with hc | hc
    · exact .inl (hds c (List.mem_of_mem_take hc))
    · rcases List.mem_cons.mp hc with rfl | hc
      · exact .inr (.inr rfl)
      · exact .inl (hds c (List.mem_of_mem_drop hc))
  · exact .inl ((List.mem_append.mp hc).elim (hds c) isDigit_zeros)

/-- A text of an integer's digits, with no minus before a zero, is read as that integer. -/
theorem decimalValue_whole {ds : List Char} (hds : IsDecimal ds) (hlen : ds.length ≤ 4300)
    {negative : Bool}
    (hzero : negative = true → ds ≠ ['0']) :
    decimalText (.int (signedDigits negative ds)) = .ok (sign negative ++ ds) ∧
      decimalValue (sign negative ++ ds) = .ok (.int (signedDigits negative ds)) := by
  obtain ⟨hback, hpos⟩ := toDigits_ofDigitChars hds
  have hsmall : (signedDigits negative ds).natAbs < 10 ^ 4300 := by
    rw [natAbs_signedDigits, ← Nat.length_toDigits_le_iff (by omega) (by omega), hback]
    exact hlen
  have hsign : decide (signedDigits negative ds < 0) = negative := by
    cases negative with
    | false => simp [signedDigits]
    | true =>
      have hpos := hpos fun hhead => hzero rfl (hds.2.2 hhead)
      simpa [signedDigits] using hpos
  have htext : decimalText (.int (signedDigits negative ds)) = .ok (sign negative ++ ds) := by
    rw [decimalText_int_ok hsmall, hsign, natAbs_signedDigits, hback]
  refine ⟨htext, ?_⟩
  have hno : '.' ∉ sign negative ++ ds := by
    rw [List.mem_append, not_or]
    exact ⟨not_point_sign negative, not_point_mem hds.1⟩
  have hint : readInt (sign negative ++ ds) = .ok (signedDigits negative ds) := by
    have hhead : ∀ c ∈ (ds ++ []).head?, c.isDigit = true := head?_digits hds.2.1 hds.1
    rw [List.append_nil] at hhead
    have hall : ds.all Char.isDigit = true := List.all_eq_true.mpr hds.1
    rw [readInt, spelledNumber_of_isPlain (isPlain_sign negative fun c hc => .inl (hds.1 c hc))]
    simp only [bind, Except.bind, takeSign_sign negative hhead, hds.2.1, hall, not_true_eq_false,
      or_false, if_false, not_lt.mpr hlen]
  rw [decimalValue, if_neg hno, hint]
  simp only [bind, Except.bind]
  exact firstWritten_self htext _

/-- A float that is no whole number is read back from its text. -/
theorem decimalValue_float {x : FloatDecimal} (hne : x.digits ≠ []) (hexponent : x.exponent < 0) :
    decimalValue (sign x.negative ++ fixedText x.digits (x.digits.length + x.exponent)) =
      .ok (.float x) := by
  set point : ℤ := x.digits.length + x.exponent with hpoint
  have hpos : 0 < x.digits.length := List.length_pos_iff.mpr hne
  have hread : readDecimal (sign x.negative ++ fixedText x.digits point) =
      some ⟨x.negative, x.digits, x.exponent⟩ := by
    unfold fixedText
    by_cases hsmall : point ≤ 0
    · have hfraction : ∀ c ∈ zeros (-point).toNat ++ x.digits, c.isDigit = true := fun c hc =>
        (List.mem_append.mp hc).elim isDigit_zeros (x.isDigit c)
      have h := readDecimal_fraction (List.cons_ne_nil '0' [])
        (fun c hc => isDigit_zeros (n := 1) hc) hfraction
        x.negative
      have hstrip : stripLeading (['0'] ++ (zeros (-point).toNat ++ x.digits)) = x.digits :=
        stripLeading_zeros ((-point).toNat + 1) hne x.leading
      rw [hstrip, List.length_append, length_zeros] at h
      rw [if_pos hsmall]
      refine h.trans ?_
      exact congrArg some (congrArg _ (by omega))
    · have htake : x.digits.take point.toNat ≠ [] := by
        rw [Ne, List.take_eq_nil_iff, not_or]
        exact ⟨by omega, hne⟩
      have h := readDecimal_fraction htake (fun c hc => x.isDigit c (List.mem_of_mem_take hc))
        (show ∀ c ∈ x.digits.drop point.toNat, c.isDigit = true from fun c hc =>
          x.isDigit c (List.mem_of_mem_drop hc))
        x.negative
      rw [List.take_append_drop, stripLeading_eq hne x.leading, List.length_drop] at h
      rw [if_neg hsmall, if_pos (by omega)]
      refine h.trans ?_
      exact congrArg some (congrArg _ (by omega))
  have hmem : '.' ∈ sign x.negative ++ fixedText x.digits point := by
    refine List.mem_append_right _ ?_
    unfold fixedText
    by_cases hsmall : point ≤ 0
    · simp [if_pos hsmall]
    · rw [if_neg hsmall, if_pos (by omega)]
      simp
  have hfloat : readFloat (sign x.negative ++ fixedText x.digits point) = .ok x := by
    have hnozero : x.digits ≠ ['0'] := fun h => x.leading (by rw [h]; rfl)
    have hkeep : withoutTrailing x.digits = x.digits := rstrip_eq x.trailing
    rw [readFloat,
      spelledNumber_of_isPlain (isPlain_sign x.negative (isPlain_fixedText x.isDigit point))]
    simp only [bind, Except.bind, hread, if_neg hnozero, hkeep, if_neg hne, Nat.sub_self,
      Nat.cast_zero, add_zero]
    rw [dif_pos ⟨x.isDigit, x.leading, x.trailing, x.zero, x.bounded⟩]
  rw [decimalValue, if_pos hmem, hfloat]
  simp only [bind, Except.bind]
  exact firstWritten_self (decimalText_float hne) []

/-- Zeros behind digits multiply their value by a power of ten. -/
theorem signedDigits_zeros (negative : Bool) (ds : List Char) (n : ℕ) :
    signedDigits negative (ds ++ zeros n) = signedDigits negative ds * 10 ^ n := by
  have hvalue : Nat.ofDigitChars 10 (ds ++ zeros n) 0 = 10 ^ n * Nat.ofDigitChars 10 ds 0 := by
    rw [Nat.ofDigitChars_append, zeros, Nat.ofDigitChars_replicate_zero]
  cases negative <;> simp [signedDigits, hvalue, mul_comm]

/-- A float whose digits reach the point, and that is not a negative zero, is read back as an
integer. -/
theorem decimalValue_wholeFloat {x : FloatDecimal} (hne : x.digits ≠ [])
    (hexponent : 0 ≤ x.exponent) :
    ∃ n, decimalValue (sign x.negative ++ fixedText x.digits (x.digits.length + x.exponent)) =
      .ok (.int n) ∧
      decimalText (.int n) =
        .ok (sign x.negative ++ fixedText x.digits (x.digits.length + x.exponent)) ∧
      (n : ℚ) = signedDigits x.negative x.digits * (10 : ℚ) ^ x.exponent := by
  have hpos : 0 < x.digits.length := List.length_pos_iff.mpr hne
  have hbounded := x.bounded
  obtain ⟨k, hk⟩ := Int.eq_ofNat_of_zero_le hexponent
  have htext : fixedText x.digits (x.digits.length + x.exponent) = x.digits ++ zeros k := by
    rw [fixedText, if_neg (by omega), if_neg (by omega), hk]
    congr 2
    omega
  have hhead : (x.digits ++ zeros k).head? ≠ some '0' := by
    rw [List.head?_append, Option.or_of_isSome (by simpa using hne)]
    exact x.leading
  have hdecimal : IsDecimal (x.digits ++ zeros k) :=
    ⟨fun c hc => (List.mem_append.mp hc).elim (x.isDigit c) isDigit_zeros,
      List.append_ne_nil_of_left_ne_nil hne _,
      fun h => absurd h hhead⟩
  have hlen : (x.digits ++ zeros k).length ≤ 4300 := by
    rw [List.length_append, length_zeros]
    omega
  have hzero : x.negative = true → x.digits ++ zeros k ≠ ['0'] := fun _ h => hhead (by rw [h]; rfl)
  obtain ⟨hwritten, hread⟩ := decimalValue_whole hdecimal hlen hzero
  rw [htext]
  refine ⟨_, hread, hwritten, ?_⟩
  rw [signedDigits_zeros, hk]
  push_cast
  rw [zpow_natCast]

/-- The text of a float of zero reads back as zero, with the text it had. -/
theorem decimalValue_zero {x : FloatDecimal} (hzero : x.digits = []) :
    ∃ value, decimalValue (sign x.negative ++ ['0']) = .ok value ∧ value.value =
      (MemberNumber.float x).value ∧
      decimalText value = .ok (sign x.negative ++ ['0']) := by
  have hvalue : (MemberNumber.float x).value = 0 := by
    simp [MemberNumber.value, signedDigits, hzero]
  cases hnegative : x.negative with
  | false =>
    have hdecimal : IsDecimal ['0'] := ⟨by simp [Char.isDigit], by simp, fun _ => rfl⟩
    obtain ⟨hwritten, hread⟩ := @decimalValue_whole _ hdecimal (by simp) false nofun
    exact ⟨_, hread, by
      rw [hvalue]; simp [MemberNumber.value, signedDigits, Nat.ofDigitChars], hwritten⟩
  | true =>
    -- the integer that is read first loses the minus
    have hwritten := decimalText_zero hzero
    rw [hnegative] at hwritten
    refine ⟨.float x, ?_, rfl, hwritten⟩
    have hplain : spelledNumber (sign true ++ ['0']) = .ok (sign true ++ ['0']) :=
      spelledNumber_of_isPlain (isPlain_sign true fun c hc => .inl (isDigit_zeros (n := 1) hc))
    have hfloat : readFloat (sign true ++ ['0']) = .ok x := by
      have hread : readDecimal (sign true ++ ['0']) = some ⟨true, ['0'], 0⟩ := rfl
      rw [readFloat, hplain]
      simp only [bind, Except.bind, hread, if_true]
      rw [dif_pos ⟨nofun, nofun, nofun, fun _ => rfl, by simp⟩]
      exact congrArg Except.ok (FloatDecimal.ext hnegative.symm hzero.symm (x.zero hzero).symm)
    have hint : readInt (sign true ++ ['0']) = .ok 0 := by
      rw [readInt, hplain]
      rfl
    have hother : decimalText (.int 0) = .ok ['0'] := by
      rw [decimalText_int_ok (lt_of_eq_of_lt Int.natAbs_zero (pow_pos (by decide) _))]
      rfl
    rw [decimalValue, if_neg (by simp [sign]), hint, hfloat]
    simp only [bind, Except.bind]
    rw [firstWritten, hother]
    exact firstWritten_self hwritten []

/-- The integers that have a text: those that `repr` writes. -/
theorem decimalText_int_iff (n : ℤ) :
    (∃ text, decimalText (.int n) = .ok text) ↔ n.natAbs < 10 ^ 4300 := by
  rw [decimalText_int]
  constructor
  · rintro ⟨text, htext⟩
    by_contra hn
    rw [reprInt, if_neg hn] at htext
    cases htext
  · intro hn
    rw [reprInt, if_pos hn]
    exact ⟨_, rfl⟩

/-- The text of an integer within the digit limit reads back as that integer. -/
theorem decimalValue_int {n : ℤ} (hn : n.natAbs < 10 ^ 4300) :
    decimalValue (sign (decide (n < 0)) ++ Nat.toDigits 10 n.natAbs) = .ok (.int n) := by
  have hlen := (Nat.length_toDigits_le_iff (by omega) (by omega)).mpr hn
  have hzero : decide (n < 0) = true → Nat.toDigits 10 n.natAbs ≠ ['0'] := by
    intro hneg heq
    have hvalue := congrArg (fun ds => Nat.ofDigitChars 10 ds 0) heq
    simp only [Nat.ofDigitChars_ten_toDigits] at hvalue
    have hneg := of_decide_eq_true hneg
    have hz : Nat.ofDigitChars 10 ['0'] 0 = 0 := rfl
    omega
  have hsame : signedDigits (decide (n < 0)) (Nat.toDigits 10 n.natAbs) = n := by
    rw [signedDigits, Nat.ofDigitChars_ten_toDigits]
    by_cases hneg : n < 0
    · simp only [hneg, decide_true, if_true]
      omega
    · simp only [hneg, decide_false, Bool.false_eq_true, if_false]
      omega
  have hread := (decimalValue_whole (isDecimal_toDigits n.natAbs) hlen hzero).2
  rwa [hsame] at hread

/-- A number's text is read as the number, and as an integer or a float that is written with the
same text, unless it is an integer with more digits than `repr` writes. -/
theorem decimalText_survives (number : MemberNumber) :
    (∃ text value, decimalText number = .ok text ∧ decimalValue text = .ok value ∧
      value.value = number.value ∧
      decimalText value = .ok text) ↔ ∀ n, number = .int n → n.natAbs < 10 ^ 4300 := by
  cases number with
  | int n =>
    constructor
    · rintro ⟨text, -, htext, -⟩ m hm
      obtain rfl := MemberNumber.int.inj hm
      exact (decimalText_int_iff n).mp ⟨text, htext⟩
    · intro h
      have hn := h n rfl
      have htext := decimalText_int_ok hn
      exact ⟨_, .int n, htext, decimalValue_int hn, rfl, htext⟩
  | float x =>
    refine iff_of_true ?_ nofun
    by_cases hzero : x.digits = []
    · obtain ⟨value, hread, hvalue, hwritten⟩ := decimalValue_zero hzero
      exact ⟨_, value, decimalText_zero hzero, hread, hvalue, hwritten⟩
    · have htext := decimalText_float hzero
      by_cases hexponent : x.exponent < 0
      · exact ⟨_, .float x, htext, decimalValue_float hzero hexponent, rfl, htext⟩
      · obtain ⟨n, hread, hwritten, hvalue⟩ := decimalValue_wholeFloat hzero (not_lt.mp hexponent)
        exact ⟨_, .int n, htext, hread, hvalue, hwritten⟩

/-- Some number has no text: past the digit limit nothing is written. -/
theorem exists_number_without_text :
    ∃ number : MemberNumber, ∀ text, decimalText number ≠ .ok text :=
  ⟨.int (10 ^ 4300 : ℕ), fun text htext => by
    have hsmall := (decimalText_int_iff _).mp ⟨text, htext⟩
    rw [Int.natAbs_natCast] at hsmall
    exact lt_irrefl _ hsmall⟩

end Haute.Steps
