import Haute.Layout.Reader
import Haute.Data.Decimals

/-!
# Printed literals read back

A string's characters decode one at a time (`stringFrom_quoted`), a number's digits end where the
next token starts, and a list or a dict is read entry by entry, whatever blanks and line breaks the
printer has put between them: `readValue_of_emits`, by induction on the value over every text its
document may print. A printed call or signature holds one of these texts (`exists_emits_fill`).
-/

namespace Haute.Layout

open Haute.Data Doc

variable {F : Type} {f : Floats F} {named : List Char → Option ℕ} {printable : CodePoint → Bool}

/-- What stands after a literal inside brackets. -/
def delimiter (c : Char) : Bool :=
  c == ',' || c == ':' || c == ']' || c == '\x7d' || c == ')' || c == ' ' || c == '\n'

/-- The text ends, or goes on with a delimiter. -/
def Delimited (rest : List Char) : Prop := ∀ c ∈ rest.head?, delimiter c = true

/-- The characters of a break. -/
def Blanks (cs : List Char) : Prop := ∀ c ∈ cs, c = ' ' ∨ c = '\n'

theorem Delimited.cons {c : Char} (h : delimiter c = true) (rest : List Char) :
    Delimited (c :: rest) := by
  intro d hd
  rw [List.head?_cons, Option.mem_def, Option.some.injEq] at hd
  exact hd ▸ h

/-- The characters that may follow a literal. -/
theorem delimiter_cases {c : Char} (h : delimiter c = true) :
    c = ',' ∨ c = ':' ∨ c = ']' ∨ c = '\x7d' ∨ c = ')' ∨ c = ' ' ∨ c = '\n' := by
  simpa [delimiter, or_assoc] using h

/-- Blanks in front are skipped. -/
theorem skipBlanks_append {bs : List Char} (h : Blanks bs) (cs : List Char) :
    skipBlanks (bs ++ cs) = skipBlanks cs := by
  refine List.dropWhile_append_of_pos fun c hc => ?_
  rcases h c hc with rfl | rfl <;> rfl

theorem skipBlanks_cons {c : Char} (h : isBlank c = false) (cs : List Char) :
    skipBlanks (c :: cs) = c :: cs :=
  List.dropWhile_cons_of_neg (by rw [h]; exact Bool.false_ne_true)

/-- A span of characters ends where the next one fails the test. -/
theorem span_append {p : Char → Bool} {us rest : List Char} (hus : ∀ c ∈ us, p c = true)
    (hrest : ∀ c ∈ rest.head?, p c = false) :
    (us ++ rest).takeWhile p = us ∧ (us ++ rest).dropWhile p = rest := by
  rw [List.takeWhile_append_of_pos hus, List.dropWhile_append_of_pos hus]
  cases rest with
  | nil => exact ⟨List.append_nil us, rfl⟩
  | cons c rest =>
    have hc : ¬ p c = true := by
      rw [hrest c rfl]
      exact Bool.false_ne_true
    rw [List.takeWhile_cons_of_neg hc, List.dropWhile_cons_of_neg hc]
    exact ⟨List.append_nil us, rfl⟩

/-! ### Strings -/

/-- A hexadecimal digit is read back as its value. -/
theorem hexCharValue_digitChar : ∀ d < 16, hexCharValue (Nat.digitChar d) = some d := by decide

/-- A hexadecimal text has the digits asked for. -/
theorem length_hexText (width n : ℕ) : (hexText width n).length = width := by
  induction width generalizing n with
  | zero => rfl
  | succ width ih => rw [hexText, List.length_append, ih, List.length_singleton]

/-- The digits of a number that fits their width read back as that number. -/
theorem mapM_hexText (width : ℕ) {n : ℕ} (h : n < 16 ^ width) :
    ∃ ds, (hexText width n).mapM hexCharValue = some ds ∧ ds.length = width ∧
      ds.foldl (fun n d => 16 * n + d) 0 = n := by
  induction width generalizing n with
  | zero =>
    rw [pow_zero, Nat.lt_one_iff] at h
    exact ⟨[], rfl, rfl, h.symm⟩
  | succ width ih =>
    obtain ⟨ds, hds, hlength, hvalue⟩ := ih (n := n / 16) (by rw [pow_succ] at h; omega)
    have hdigit := hexCharValue_digitChar (n % 16) (Nat.mod_lt _ (by decide))
    refine ⟨ds ++ [n % 16], ?_, ?_, ?_⟩
    · rw [hexText, List.mapM_append, hds]
      simp [hdigit]
    · rw [List.length_append, hlength, List.length_singleton]
    · rw [List.foldl_append, hvalue, List.foldl_cons, List.foldl_nil]
      omega

/-- An escape of a code point reads back as that code point. -/
theorem hexCharEscape_hexText (width : ℕ) {n : ℕ} (h : n < 16 ^ width) (hn : n < 0x110000)
    (rest : List Char) : hexCharEscape width (hexText width n ++ rest) = some ([n], width + 1) := by
  obtain ⟨ds, hds, hlength, hvalue⟩ := mapM_hexText width h
  rw [hexCharEscape, List.take_left' (length_hexText width n), hds]
  simp [hlength, hvalue, hn]

/-- The characters of an escape are passed over once it has been read. -/
theorem stringFrom_length (quote : Char) (us rest : List Char) :
    stringFrom named quote us.length (us ++ rest) = stringFrom named quote 0 rest := by
  induction us with
  | nil => rfl
  | cons c us ih => rw [List.length_cons, List.cons_append, stringFrom, ih]

/-- An escape in a string reads as its code point, and the rest is read after it. -/
theorem stringFrom_escape {quote : Char} (hquote : quote ≠ '\\') {us rest : List Char} {n : ℕ}
    (h : escapeOf named (us ++ rest) = some ([n], us.length)) :
    stringFrom named quote 0 ('\\' :: (us ++ rest)) =
      (stringFrom named quote 0 rest).map fun p => (CodePoint.of n :: p.1, p.2) := by
  rw [stringFrom, if_neg hquote.symm, if_pos rfl, h]
  simp only [Option.bind_eq_bind, Option.bind_some, stringFrom_length]
  cases stringFrom named quote 0 rest <;> rfl

/-- A plain character in a string reads as itself. -/
theorem stringFrom_plain {quote c : Char} (hquote : c ≠ quote) (hbackslash : c ≠ '\\')
    (hline : ¬(c = '\n' ∨ c = '\r' ∨ c = '\x00')) (rest : List Char) :
    stringFrom named quote 0 (c :: rest) =
      (stringFrom named quote 0 rest).map fun p => (CodePoint.ofChar c :: p.1, p.2) := by
  rw [stringFrom, if_neg hquote, if_neg hbackslash, if_neg hline]
  cases stringFrom named quote 0 rest <;> rfl

/-- A character that is written as it is. -/
theorem stringFrom_ofNat {quote : Char} {c : CodePoint} (hvalid : c.val.isValidChar)
    (hquote : c.val ≠ quote.toNat) (hbackslash : c.val ≠ 92) (hcontrol : ¬ c.val < 32)
    (rest : List Char) :
    stringFrom named quote 0 (Char.ofNat c.val :: rest) =
      (stringFrom named quote 0 rest).map fun p => (c :: p.1, p.2) := by
  have hval : (Char.ofNat c.val).toNat = c.val := by
    rw [Char.toNat_ofNat, if_pos hvalid]
  have hne : ∀ d : Char, c.val ≠ d.toNat → Char.ofNat c.val ≠ d := fun d hd h => hd (h ▸ hval.symm)
  have hof : CodePoint.ofChar (Char.ofNat c.val) = c := by
    rw [CodePoint.ofChar, hval]
    exact CodePoint.of_val c
  rw [stringFrom_plain (hne quote hquote) (hne '\\' hbackslash), hof]
  rintro (h | h | h)
  · exact hne '\n' (fun h => hcontrol (h ▸ by decide)) h
  · exact hne '\r' (fun h => hcontrol (h ▸ by decide)) h
  · exact hne '\x00' (fun h => hcontrol (h ▸ by decide)) h

/-- **One character** of a string decodes, whatever stands after it. -/
theorem stringFrom_quoted {quote : Char} (hquote : quote = '"' ∨ quote = '\'') (c : CodePoint)
    (rest : List Char) :
    stringFrom named quote 0 (quoted printable quote c ++ rest) =
      (stringFrom named quote 0 rest).map fun p => (c :: p.1, p.2) := by
  have hescape : quote ≠ '\\' := by rcases hquote with rfl | rfl <;> decide
  have hof : ∀ {n : ℕ}, c.val = n → CodePoint.of n = c := fun h => CodePoint.of_eq h.symm
  have hhex : ∀ (letter : Char) (width : ℕ), c.val < 16 ^ width →
      (∀ cs, escapeOf named (letter :: cs) = hexCharEscape width cs) →
      stringFrom named quote 0 ('\\' :: letter :: hexText width c.val ++ rest) =
        (stringFrom named quote 0 rest).map fun p => (c :: p.1, p.2) := by
    intro letter width hlt hletter
    have hread : escapeOf named ((letter :: hexText width c.val) ++ rest) =
        some ([c.val], (letter :: hexText width c.val).length) := by
      rw [List.cons_append, hletter, hexCharEscape_hexText width hlt c.isLt, List.length_cons,
        length_hexText]
    rw [List.cons_append, stringFrom_escape hescape hread, CodePoint.of_val]
  rw [quoted]
  split_ifs with hown hsingle hdouble
  · have hread : escapeOf named ([quote] ++ rest) = some ([quote.toNat], [quote].length) := by
      rcases hquote with rfl | rfl <;> rfl
    exact (stringFrom_escape hescape hread).trans (by rw [hof hown])
  · have hne : '\'' ≠ quote := by
      rintro rfl
      exact hown (hsingle ▸ rfl)
    rw [hsingle]
    exact stringFrom_plain hne (by decide) (by decide) rest
  · have hne : '"' ≠ quote := by
      rintro rfl
      exact hown (hdouble ▸ rfl)
    rw [hdouble]
    exact stringFrom_plain hne (by decide) (by decide) rest
  · rw [reprChar]
    split_ifs with hbackslash htab hline hreturn hcontrol hplain hbyte hshort
    · exact (@stringFrom_escape named quote hescape ['\\'] rest 92 rfl).trans
        (by rw [hof hbackslash])
    · exact (@stringFrom_escape named quote hescape ['t'] rest 9 rfl).trans (by rw [hof htab])
    · exact (@stringFrom_escape named quote hescape ['n'] rest 10 rfl).trans (by rw [hof hline])
    · exact (@stringFrom_escape named quote hescape ['r'] rest 13 rfl).trans (by rw [hof hreturn])
    · exact hhex 'x' 2 (by omega) fun _ => rfl
    · have hvalid : c.val.isValidChar := by
        have hlt := c.isLt
        rcases hplain with hplain | ⟨-, hsurrogate⟩
        · exact .inl (by omega)
        · simp only [CodePoint.surrogate, Bool.and_eq_true, decide_eq_true_iff, not_and_or]
            at hsurrogate
          rcases hsurrogate with h | h
          · exact .inl (by omega)
          · exact .inr ⟨by omega, hlt⟩
      exact stringFrom_ofNat hvalid hown hbackslash (fun h => hcontrol (.inl h)) rest
    · exact hhex 'x' 2 (by omega) fun _ => rfl
    · exact hhex 'u' 4 (by omega) fun _ => rfl
    · exact hhex 'U' 8 (by have := c.isLt; omega) fun _ => rfl

/-- What is quoted character by character reads back up to the closing quote. -/
theorem stringFrom_flatMap {quote : Char} (hquote : quote = '"' ∨ quote = '\'') (value : CodeText)
    (rest : List Char) :
    stringFrom named quote 0 (value.flatMap (quoted printable quote) ++ quote :: rest) =
      some (value, rest) := by
  induction value with
  | nil => rw [List.flatMap_nil, List.nil_append, stringFrom, if_pos rfl]
  | cons c value ih =>
    rw [List.flatMap_cons, List.append_assoc, stringFrom_quoted hquote, ih]
    rfl

/-- No character is written with the closing quote first. -/
theorem head_quoted {quote : Char} (hquote : quote = '"' ∨ quote = '\'') (c : CodePoint) :
    ∃ d ds, quoted printable quote c = d :: ds ∧ d ≠ quote := by
  have hescape : '\\' ≠ quote := by rcases hquote with rfl | rfl <;> decide
  rw [quoted]
  split_ifs with hown hsingle hdouble
  · exact ⟨_, _, rfl, hescape⟩
  · refine ⟨_, _, rfl, ?_⟩
    rintro rfl
    exact hown (hsingle ▸ rfl)
  · refine ⟨_, _, rfl, ?_⟩
    rintro rfl
    exact hown (hdouble ▸ rfl)
  · rw [reprChar]
    split_ifs with hbackslash htab hline hreturn hcontrol hplain hbyte hshort
    · exact ⟨_, _, rfl, hescape⟩
    · exact ⟨_, _, rfl, hescape⟩
    · exact ⟨_, _, rfl, hescape⟩
    · exact ⟨_, _, rfl, hescape⟩
    · exact ⟨_, _, rfl, hescape⟩
    · refine ⟨_, _, rfl, fun h => hown ?_⟩
      have hzero : quote.toNat ≠ 0 := by rcases hquote with rfl | rfl <;> decide
      have hval := congrArg Char.toNat h
      rw [Char.toNat_ofNat] at hval
      split_ifs at hval
      · exact hval
      · exact absurd hval.symm hzero
    · exact ⟨_, _, rfl, hescape⟩
    · exact ⟨_, _, rfl, hescape⟩
    · exact ⟨_, _, rfl, hescape⟩

/-- A string is quoted with one of the two quotes. -/
theorem quoteOf_cases (value : CodeText) : quoteOf value = '"' ∨ quoteOf value = '\'' := by
  rw [quoteOf]
  split_ifs
  · exact .inr rfl
  · exact .inl rfl

/-- **A string** reads back. -/
theorem readString_quoteString (value : CodeText) {rest : List Char} (hrest : Delimited rest) :
    readString named (quoteString printable value ++ rest) = some (value, rest) := by
  have hquote := quoteOf_cases value
  have htake : (value.flatMap (quoted printable (quoteOf value)) ++ quoteOf value :: rest).take 2 ≠
      [quoteOf value, quoteOf value] := by
    intro htake
    cases value with
    | nil =>
      cases rest with
      | nil => simp at htake
      | cons c rest =>
        have hc : c = quoteOf [] := by
          simp only [List.flatMap_nil, List.nil_append, List.take_succ_cons, List.take_zero,
            List.cons.injEq, true_and, and_true] at htake
          exact htake
        have hdelimiter := hrest c rfl
        rw [hc] at hdelimiter
        exact absurd hdelimiter (by decide)
    | cons c value =>
      obtain ⟨d, ds, hd, hne⟩ := @head_quoted printable _ hquote c
      rw [List.flatMap_cons, hd, List.cons_append, List.cons_append, List.take_succ_cons] at htake
      exact hne (List.cons.inj htake).1
  rw [quoteString, List.cons_append, List.append_assoc, List.singleton_append, readString,
    if_pos hquote, if_neg htake, stringFrom_flatMap hquote]

/-! ### Numbers and names -/

/-- What may follow a literal is no digit. -/
theorem isDigit_false {c : Char} (h : delimiter c = true) : c.isDigit = false := by
  rcases delimiter_cases h with rfl | rfl | rfl | rfl | rfl | rfl | rfl <;> decide

/-- A number ends where a delimiter follows. -/
theorem ends_of_delimited {rest : List Char} (h : Delimited rest) : ends rest = true := by
  cases rest with
  | nil => rfl
  | cons c rest =>
    rcases delimiter_cases (h c rfl) with rfl | rfl | rfl | rfl | rfl | rfl | rfl <;>
      simp only [ends] <;> decide

/-- A delimiter begins no fraction. -/
theorem readFraction_delimited {rest : List Char} (h : Delimited rest) :
    readFraction rest = (none, rest) := by
  cases rest with
  | nil => rfl
  | cons c rest =>
    rcases delimiter_cases (h c rfl) with rfl | rfl | rfl | rfl | rfl | rfl | rfl <;> rfl

/-- A delimiter begins no exponent. -/
theorem readExponent_delimited {rest : List Char} (h : Delimited rest) :
    readExponent rest = some (none, rest) := by
  cases rest with
  | nil => rfl
  | cons c rest =>
    rcases delimiter_cases (h c rfl) with rfl | rfl | rfl | rfl | rfl | rfl | rfl <;> rfl

theorem head_notDigit {rest : List Char} (h : Delimited rest) :
    ∀ c ∈ rest.head?, c.isDigit = false := fun c hc => isDigit_false (h c hc)

/-- Decimal digits read back as the natural number they spell. -/
theorem readNumber_toDigits (n : ℕ) {rest : List Char} (hrest : Delimited rest) :
    readNumber (Nat.toDigits 10 n ++ rest) = some (.inl n, rest) := by
  obtain ⟨hdigits, hne, hzero⟩ := isDecimal_toDigits n
  obtain ⟨htake, hdrop⟩ := span_append hdigits (head_notDigit hrest)
  have hlead : ¬((Nat.toDigits 10 n).head? = some '0' ∧ Nat.toDigits 10 n ≠ ['0']) :=
    fun h => h.2 (hzero h.1)
  have hstop : ¬(Nat.toDigits 10 n = [] ∨ ends rest = false) := by
    rw [not_or, ends_of_delimited hrest]
    exact ⟨hne, by decide⟩
  unfold readNumber
  simp only [htake, hdrop, readFraction_delimited hrest, readExponent_delimited hrest]
  rw [if_neg hstop, if_pos ⟨trivial, trivial⟩, if_neg hlead, Nat.ofDigitChars_ten_toDigits]

/-- An exponent reads back as its sign and digits. -/
theorem readExponent_text {exponent : Option (Bool × List Char)} (h : ∀ e ∈ exponent, Digits e.2)
    {rest : List Char} (hrest : Delimited rest) :
    readExponent (exponentText [] exponent ++ rest) = some (exponent, rest) := by
  cases exponent with
  | none => exact readExponent_delimited hrest
  | some e =>
    obtain ⟨negative, ds⟩ := e
    obtain ⟨hne, hdigits⟩ := h _ rfl
    obtain ⟨htake, hdrop⟩ := span_append hdigits (head_notDigit hrest)
    cases negative with
    | true =>
      simp only [exponentText, if_true, List.cons_append, List.nil_append, readExponent,
        readSign, htake,
        hdrop, if_neg hne]
    | false =>
      cases ds with
      | nil => exact absurd rfl hne
      | cons d ds =>
        have hd := hdigits d List.mem_cons_self
        have hminus : d ≠ '-' := by rintro rfl; exact absurd hd (by decide)
        have hplus : d ≠ '+' := by rintro rfl; exact absurd hd (by decide)
        have hsign : readSign (d :: (ds ++ rest)) = (false, d :: (ds ++ rest)) := by
          rw [readSign]
          · exact fun _ h => hminus (List.cons.inj h).1
          · exact fun _ h => hplus (List.cons.inj h).1
        rw [List.cons_append] at htake hdrop
        simp only [exponentText, Bool.false_eq_true, if_false, List.nil_append, List.cons_append,
          readExponent, hsign, htake, hdrop, if_neg hne]

theorem head_exponentText {exponent : Option (Bool × List Char)} {rest : List Char}
    (hrest : Delimited rest) :
    ∀ c ∈ (exponentText [] exponent ++ rest).head?, c.isDigit = false ∧ c ≠ '.' := by
  intro c hc
  cases exponent with
  | none =>
    rcases delimiter_cases (hrest c hc) with rfl | rfl | rfl | rfl | rfl | rfl | rfl <;> decide
  | some e =>
    rw [exponentText, List.cons_append, List.head?_cons, Option.mem_def, Option.some.injEq] at hc
    subst hc
    decide

/-- The digits of a float read back as those digits, point and exponent included. -/
theorem readNumber_floatDigits {d : FloatDigits} (h : d.WellFormed) {rest : List Char}
    (hrest : Delimited rest) : readNumber (d.text [] ++ rest) = some (.inr d, rest) := by
  obtain ⟨whole, fraction, exponent⟩ := d
  obtain ⟨hne, hdigits⟩ := h.whole
  have hhead : ∀ c ∈ (exponentText [] exponent ++ rest).head?, c.isDigit = false ∧ c ≠ '.' :=
    head_exponentText hrest
  have hexponent := readExponent_text h.exponent hrest
  have hstop : ¬(whole = [] ∨ ends rest = false) := by
    rw [not_or, ends_of_delimited hrest]
    exact ⟨hne, by decide⟩
  have hfloat : ¬(fraction = none ∧ exponent = none) := fun hnone =>
    h.float.elim (fun hf => hf hnone.1) fun he => he hnone.2
  cases fraction with
  | none =>
    have htext : FloatDigits.text ⟨whole, none, exponent⟩ [] ++ rest =
        whole ++ (exponentText [] exponent ++ rest) := by
      rw [FloatDigits.text, List.append_assoc]
      rfl
    obtain ⟨htake, hdrop⟩ := span_append hdigits fun c hc => (hhead c hc).1
    have hfraction : readFraction (exponentText [] exponent ++ rest) =
        (none, exponentText [] exponent ++ rest) := by
      cases hcs : exponentText [] exponent ++ rest with
      | nil => rfl
      | cons c cs =>
        have hc := (hhead c (by rw [hcs]; rfl)).2
        rw [readFraction]
        exact fun _ h => absurd (List.cons.inj h).1 hc
    rw [htext]
    unfold readNumber
    simp only [htake, hdrop, hfraction, hexponent]
    rw [if_neg hstop, if_neg fun hnone => hfloat ⟨rfl, hnone.2⟩]
  | some ds =>
    obtain ⟨-, hds⟩ := h.fraction ds rfl
    have htext : FloatDigits.text ⟨whole, some ds, exponent⟩ [] ++ rest =
        whole ++ ('.' :: (ds ++ (exponentText [] exponent ++ rest))) := by
      rw [FloatDigits.text, List.append_assoc, List.append_assoc]
      rfl
    obtain ⟨htake, hdrop⟩ := @span_append Char.isDigit whole
      ('.' :: (ds ++ (exponentText [] exponent ++ rest))) hdigits (fun c hc => by
        rw [List.head?_cons, Option.mem_def, Option.some.injEq] at hc
        exact hc ▸ rfl)
    obtain ⟨htake', hdrop'⟩ := span_append hds fun c hc => (hhead c hc).1
    rw [htext]
    unfold readNumber
    simp only [htake, hdrop, readFraction, htake', hdrop', hexponent]
    rw [if_neg hstop, if_neg hfloat]

/-- A text without an exponent keeps its characters when a plus is dropped. -/
theorem dropPlus_append {us : List Char} (h : 'e' ∉ us) (vs : List Char) :
    dropPlus (us ++ vs) = us ++ dropPlus vs := by
  induction us with
  | nil => rfl
  | cons c us ih =>
    rw [List.mem_cons, not_or] at h
    rw [List.cons_append, dropPlus, ih h.2, List.cons_append]
    exact fun _ hc => absurd hc.symm h.1

theorem dropPlus_of_notMem {us : List Char} (h : 'e' ∉ us) : dropPlus us = us := by
  have happend := dropPlus_append h []
  rwa [List.append_nil, show dropPlus [] = [] from rfl, List.append_nil] at happend

/-- No digit is the exponent's letter. -/
theorem e_notMem {ds : List Char} (h : Digits ds) : 'e' ∉ ds := fun he =>
  absurd (h.2 'e' he) (by decide)

/-- A finite float is written as its sign and its digits. -/
theorem floatLiteral_eq {x : F} (h : f.finite x = true) :
    floatLiteral f x = (if f.negative x then ['-'] else []) ++ (f.digits x).text [] := by
  have hwell := f.wellFormed x h
  have hsign : 'e' ∉ (if f.negative x then ['-'] else []) := by split_ifs <;> decide
  rw [floatLiteral, Floats.repr, dropPlus_append hsign]
  congr 1
  generalize f.digits x = d at hwell ⊢
  obtain ⟨whole, fraction, exponent⟩ := d
  have hfraction : 'e' ∉ fractionText fraction := by
    cases fraction with
    | none => exact List.not_mem_nil
    | some ds =>
      rw [fractionText, List.mem_cons, not_or]
      exact ⟨by decide, e_notMem (hwell.fraction ds rfl)⟩
  have hexponent : dropPlus (exponentText ['+'] exponent) = exponentText [] exponent := by
    cases exponent with
    | none => rfl
    | some e =>
      obtain ⟨negative, ds⟩ := e
      have hds : 'e' ∉ ds := e_notMem (hwell.exponent _ rfl)
      cases negative with
      | true =>
        change dropPlus ('e' :: '-' :: ds) = 'e' :: '-' :: ds
        rw [dropPlus, dropPlus_of_notMem]
        · rw [List.mem_cons, not_or]
          exact ⟨by decide, hds⟩
        · exact fun _ _ h => absurd (List.cons.inj h).1 (by decide)
      | false =>
        change dropPlus ('e' :: '+' :: ds) = 'e' :: ds
        rw [dropPlus, dropPlus_of_notMem hds]
  rw [FloatDigits.text, FloatDigits.text, dropPlus_append (e_notMem hwell.whole),
    dropPlus_append hfraction, hexponent]

/-- A word ends at a delimiter. -/
theorem readName_word {word rest : List Char} (hword : ∀ c ∈ word, isWord c = true)
    (hrest : Delimited rest) :
    (word ++ rest).takeWhile isWord = word ∧ (word ++ rest).dropWhile isWord = rest := by
  refine span_append hword fun c hc => ?_
  rcases delimiter_cases (hrest c hc) with rfl | rfl | rfl | rfl | rfl | rfl | rfl <;> decide

/-! ### Sequences -/

/-- A sequence as it may be printed: between its brackets the entries, blanks at either end, and
maybe a comma after the last. -/
def Displayed (left : List Char) (entries : List Doc) (right us : List Char) : Prop :=
  ∃ soft body comma soft', Blanks soft ∧ Blanks soft' ∧ (comma = [] ∨ comma = [',']) ∧
    Emits (.concat (commaSeparated entries)) body ∧
    us = left ++ (soft ++ (body ++ (comma ++ (soft' ++ right))))

/-- A group of entries is displayed as its brackets, blanks and the entries between them. -/
theorem displayed_of_emits {left right us : List Char} {entries : List Doc} {tail : List Doc}
    (htail : tail = [] ∨ tail = [.ifBreak [',']])
    (h : Emits (.concat [.text left,
      .indent (.concat [.line true, .concat (commaSeparated entries ++ tail)]), .line true,
      .text right]) us) : Displayed left entries right us := by
  obtain ⟨vs, ws, hleft, hrest, rfl⟩ := emits_cons.mp h
  obtain rfl := emits_text.mp hleft
  obtain ⟨inner, ws', hinner, hclose, rfl⟩ := emits_cons.mp hrest
  obtain ⟨soft', ws'', hsoft', hright, rfl⟩ := emits_cons.mp hclose
  obtain rfl := emits_text.mp (emits_singleton.mp hright)
  obtain ⟨soft, entered, hsoft, hentered, rfl⟩ := emits_cons.mp (emits_indent.mp hinner)
  obtain ⟨body, comma, hbody, hcomma, rfl⟩ := emits_append.mp (emits_singleton.mp hentered)
  refine ⟨soft, body, comma, soft', blank_of_emits_line hsoft, blank_of_emits_line hsoft', ?_,
    hbody, ?_⟩
  · rcases htail with rfl | rfl
    · exact .inl (emits_nil.mp hcomma)
    · exact (emits_ifBreak (emits_singleton.mp hcomma)).symm
  · simp only [List.append_assoc]

/-- A bracketed list is displayed so. -/
theorem displayed_of_bracketed {left right us : List Char} {entries : List Doc} (hne : entries ≠ [])
    (h : Emits (bracketed left entries right) us) : Displayed left entries right us := by
  rw [bracketed, if_neg hne] at h
  refine displayed_of_emits ?_ (emits_group.mp h)
  split_ifs
  · exact .inr rfl
  · exact .inl rfl

/-- The arguments of a call are displayed so. -/
theorem displayed_of_arguments {left right us : List Char} {entries : List Doc} {signature : Bool}
    (hne : entries ≠ []) (h : Emits (arguments left entries right signature) us) :
    Displayed left entries right us := by
  match entries, hne, h with
  | [entry], _, h =>
    rw [arguments] at h
    obtain ⟨vs, ws, hleft, hrest, rfl⟩ := emits_cons.mp (emits_group.mp h)
    obtain ⟨inner, ws', hinner, hclose, rfl⟩ := emits_cons.mp hrest
    obtain ⟨soft, body, hsoft, hbody, rfl⟩ := emits_cons.mp (emits_indent.mp hinner)
    refine @displayed_of_emits left right _ [entry] (if signature then [.ifBreak [',']] else []) ?_
      (.cons hleft (.cons (.indent (.cons hsoft (emits_singleton.mpr hbody))) hclose))
    split_ifs
    · exact .inr rfl
    · exact .inl rfl
  | entry :: second :: entries, _, h =>
    rw [arguments] at h
    · obtain ⟨vs, ws, hleft, hrest, rfl⟩ := emits_cons.mp (emits_group.mp h)
      obtain ⟨inner, ws', hinner, hclose, rfl⟩ := emits_cons.mp hrest
      obtain ⟨soft, body, hsoft, hbody, rfl⟩ := emits_cons.mp (emits_indent.mp hinner)
      have hbody := emits_group.mp (emits_singleton.mp hbody)
      exact displayed_of_emits (.inr rfl)
        (.cons hleft (.cons (.indent (.cons hsoft (emits_singleton.mpr hbody))) hclose))
    · exact fun h => nomatch h
    · exact fun _ h => nomatch h

/-- Entries are emitted with a comma and blanks between them. -/
theorem emits_commaSeparated {entry second : Doc} {entries : List Doc} {us : List Char}
    (h : Emits (.concat (commaSeparated (entry :: second :: entries))) us) :
    ∃ vs sp ws, Emits entry vs ∧ Blanks sp ∧
      Emits (.concat (commaSeparated (second :: entries))) ws ∧
      us = vs ++ (',' :: (sp ++ ws)) := by
  rw [commaSeparated] at h
  obtain ⟨vs, ws, hentry, hrest, rfl⟩ := emits_cons.mp h
  obtain ⟨comma, ws', hcomma, hlater, rfl⟩ := emits_cons.mp hrest
  obtain rfl := emits_text.mp hcomma
  obtain ⟨sp, ws'', hsp, hentries, rfl⟩ := emits_cons.mp hlater
  exact ⟨vs, sp, ws'', hentry, blank_of_emits_line hsp, hentries, rfl⟩

/-- What stands after the entries of a sequence: maybe a comma, blanks and the closing bracket. -/
def Closing (close : Char) (rest tail : List Char) : Prop :=
  ∃ comma blanks, (comma = [] ∨ comma = [',']) ∧ Blanks blanks ∧
    tail = comma ++ (blanks ++ close :: rest)

/-- What closes a list may follow a literal. -/
theorem Closing.delimited {close : Char} {rest tail : List Char} (hclose : delimiter close = true)
    (h : Closing close rest tail) : Delimited tail := by
  obtain ⟨comma, blanks, rfl | rfl, hblanks, rfl⟩ := h
  · cases blanks with
    | nil => exact .cons hclose rest
    | cons c blanks =>
      refine .cons ?_ _
      rcases hblanks c List.mem_cons_self with rfl | rfl <;> rfl
  · exact .cons rfl _

/-- The last entry is followed by the bracket, or by a comma and then the bracket. -/
theorem Closing.skip {close : Char} {rest tail : List Char} (hclose : isBlank close = false)
    (h : Closing close rest tail) :
    skipBlanks tail = close :: rest ∨
      ∃ cs, skipBlanks tail = ',' :: cs ∧ skipBlanks cs = close :: rest := by
  obtain ⟨comma, blanks, rfl | rfl, hblanks, rfl⟩ := h
  · exact .inl (by rw [List.nil_append, skipBlanks_append hblanks, skipBlanks_cons hclose])
  · exact .inr ⟨blanks ++ close :: rest, skipBlanks_cons rfl _,
      by rw [skipBlanks_append hblanks, skipBlanks_cons hclose]⟩

/-- The first character of a literal: no blank and no closing bracket. -/
def Starts (us : List Char) : Prop :=
  ∃ c cs, us = c :: cs ∧ isBlank c = false ∧ c ≠ ']' ∧ c ≠ '\x7d'

/-- A literal begins with no blank. -/
theorem skipBlanks_starts {us : List Char} (h : Starts us) (cs : List Char) :
    skipBlanks (us ++ cs) = us ++ cs := by
  obtain ⟨c, us, rfl, hblank, -⟩ := h
  exact skipBlanks_cons hblank _

/-! ### Literals -/

/-- The text of a value's document is read back as the value, whatever stands after it. -/
def ReadsAs (f : Floats F) (named : List Char → Option ℕ) (v : ConfigValue F)
    (us : List Char) : Prop :=
  Starts us ∧ ∀ rest fuel, Delimited rest → us.length < fuel →
    readValue f named fuel (us ++ rest) = some (v, rest)

theorem exists_succ_of_lt {n fuel : ℕ} (h : n < fuel) : ∃ k, fuel = k + 1 ∧ n ≤ k := by
  cases fuel with
  | zero => exact absurd h (Nat.not_lt_zero n)
  | succ k => exact ⟨k, rfl, Nat.le_of_lt_succ h⟩

/-- A word that names a value reads back as that value. -/
theorem readsAs_name {v : ConfigValue F} {word : List Char} (hword : ∀ c ∈ word, isWord c = true)
    (hhead : ∃ c cs, word = c :: cs ∧ c.isDigit = false ∧ isBlank c = false ∧ c ≠ ']' ∧ c ≠ '\x7d' ∧
      c ≠ '[' ∧ c ≠ '\x7b' ∧ c ≠ '"' ∧ c ≠ '\'' ∧ c ≠ '-')
    (hread : ∀ rest, Delimited rest → readName (word ++ rest) = some (v, rest)) :
    ReadsAs f named v word := by
  obtain ⟨c, cs, rfl, hdigit, hblank, hclose, hbrace, hopen, hopen', hdouble, hsingle, hminus⟩ :=
    hhead
  refine ⟨⟨c, cs, rfl, hblank, hclose, hbrace⟩, fun rest fuel hrest hfuel => ?_⟩
  obtain ⟨k, rfl, -⟩ := exists_succ_of_lt hfuel
  have hquote : ¬(c = '"' ∨ c = '\'') := not_or.mpr ⟨hdouble, hsingle⟩
  have hdigit' : ¬ c.isDigit = true := by
    rw [hdigit]
    exact Bool.false_ne_true
  rw [List.cons_append, readValue, if_neg hopen, if_neg hopen', if_neg hquote, if_neg hminus,
    if_neg hdigit']
  exact hread rest hrest

/-- What a digit is not. -/
theorem ne_of_isDigit {c : Char} (h : c.isDigit = true) :
    isBlank c = false ∧ c ≠ ']' ∧ c ≠ '\x7d' ∧ c ≠ '[' ∧ c ≠ '\x7b' ∧ c ≠ '"' ∧
      c ≠ '\'' ∧ c ≠ '-' := by
  have hne : ∀ d : Char, d.isDigit = false → c ≠ d := by
    rintro d hd rfl
    rw [h] at hd
    cases hd
  refine ⟨?_, hne _ rfl, hne _ rfl, hne _ rfl, hne _ rfl, hne _ rfl, hne _ rfl, hne _ rfl⟩
  simp only [isBlank, Bool.or_eq_false_iff, beq_eq_false_iff_ne]
  exact ⟨⟨⟨⟨hne _ rfl, hne _ rfl⟩, hne _ rfl⟩, hne _ rfl⟩, hne _ rfl⟩

/-- A number, under a minus sign or not. -/
theorem readsAs_number {digits : List Char} {n : ℕ ⊕ FloatDigits} (negative : Bool)
    (hhead : ∃ c cs, digits = c :: cs ∧ c.isDigit = true)
    (hread : ∀ rest, Delimited rest → readNumber (digits ++ rest) = some (n, rest)) :
    ReadsAs f named (numberValue f negative n) ((if negative then ['-'] else []) ++ digits) := by
  obtain ⟨c, cs, rfl, hdigit⟩ := hhead
  obtain ⟨hblank, hclose, hbrace, hopen, hopen', hdouble, hsingle, hminus⟩ := ne_of_isDigit hdigit
  cases negative with
  | true =>
    refine ⟨⟨'-', c :: cs, rfl, by decide, by decide, by decide⟩, fun rest fuel hrest hfuel => ?_⟩
    obtain ⟨k, rfl, -⟩ := exists_succ_of_lt hfuel
    change readValue f named (k + 1) ('-' :: (c :: cs ++ rest)) = _
    rw [readValue, if_neg (by decide), if_neg (by decide), if_neg (by decide), if_pos rfl,
      hread rest hrest]
    rfl
  | false =>
    refine ⟨⟨c, cs, rfl, hblank, hclose, hbrace⟩, fun rest fuel hrest hfuel => ?_⟩
    obtain ⟨k, rfl, -⟩ := exists_succ_of_lt hfuel
    have hquote : ¬(c = '"' ∨ c = '\'') := not_or.mpr ⟨hdouble, hsingle⟩
    change readValue f named (k + 1) (c :: (cs ++ rest)) = _
    rw [readValue, if_neg hopen, if_neg hopen', if_neg hquote, if_neg hminus, if_pos hdigit,
      ← List.cons_append, hread rest hrest]
    rfl

theorem exists_head_digits {ds : List Char} (h : Digits ds) :
    ∃ c cs, ds = c :: cs ∧ c.isDigit = true := by
  obtain ⟨c, cs, rfl⟩ := List.exists_cons_of_ne_nil h.1
  exact ⟨c, cs, rfl, h.2 c List.mem_cons_self⟩

/-- An integer reads back from its text. -/
theorem readsAs_int (n : ℤ) : ReadsAs f named (.int n) (intText n) := by
  have hdigits : Digits (Nat.toDigits 10 n.natAbs) :=
    ⟨(isDecimal_toDigits _).2.1, (isDecimal_toDigits _).1⟩
  have hread := @readsAs_number F f named _ (.inl n.natAbs) (decide (n < 0))
    (exists_head_digits hdigits) fun rest hrest => readNumber_toDigits n.natAbs hrest
  by_cases hn : n < 0
  · rw [decide_eq_true hn] at hread
    have hvalue : numberValue f true (.inl n.natAbs) = .int n := by
      simp only [numberValue, if_true]
      congr 1
      omega
    rw [hvalue] at hread
    rw [intText, if_pos hn]
    exact hread
  · rw [decide_eq_false hn] at hread
    have hvalue : numberValue f false (.inl n.natAbs) = .int n := by
      simp only [numberValue, Bool.false_eq_true, if_false]
      congr 1
      omega
    rw [hvalue] at hread
    rw [intText, if_neg hn]
    exact hread

/-- A finite float reads back from its literal. -/
theorem readsAs_float {x : F} (h : f.finite x = true) :
    ReadsAs f named (.float x) (floatLiteral f x) := by
  have hwell := f.wellFormed x h
  have hhead : ∃ c cs, (f.digits x).text [] = c :: cs ∧ c.isDigit = true := by
    obtain ⟨c, cs, hwhole, hc⟩ := exists_head_digits hwell.whole
    exact ⟨c, _, by rw [FloatDigits.text, hwhole, List.cons_append], hc⟩
  have hread := @readsAs_number F f named _ (.inr (f.digits x)) (f.negative x) hhead
    fun rest hrest => readNumber_floatDigits hwell hrest
  rwa [numberValue, f.roundTrip x h, ← floatLiteral_eq h] at hread

theorem quoteString_head (value : CodeText) :
    ∃ cs, quoteString printable value = quoteOf value :: cs := ⟨_, rfl⟩

/-- A quoted string begins with its quote. -/
theorem starts_quoteString (value : CodeText) (cs : List Char) :
    Starts (quoteString printable value ++ cs) := by
  obtain ⟨rest, hhead⟩ := @quoteString_head printable value
  refine ⟨quoteOf value, rest ++ cs, by rw [hhead, List.cons_append], ?_⟩
  rcases quoteOf_cases value with h | h <;> rw [h] <;> decide

/-- A string reads back from its quoted form. -/
theorem readsAs_str (value : CodeText) :
    ReadsAs f named (.str value) (quoteString printable value) := by
  refine ⟨by simpa using @starts_quoteString printable value [],
    fun rest fuel hrest hfuel => ?_⟩
  obtain ⟨k, rfl, -⟩ := exists_succ_of_lt hfuel
  have hread := @readString_quoteString named printable value rest hrest
  obtain ⟨cs, hhead⟩ := @quoteString_head printable value
  rw [hhead, List.cons_append] at hread ⊢
  have hopen : quoteOf value ≠ '[' := by rcases quoteOf_cases value with h | h <;> rw [h] <;> decide
  have hopen' : quoteOf value ≠ '\x7b' :=
    by rcases quoteOf_cases value with h | h <;> rw [h] <;> decide
  rw [readValue, if_neg hopen, if_neg hopen', if_pos (quoteOf_cases value), hread]
  rfl

/-! ### Lists and dicts -/

/-- What begins a literal closes no bracket. -/
theorem Starts.head_ne {us : List Char} (h : Starts us) (cs : List Char) :
    (us ++ cs).head? ≠ some ']' ∧ (us ++ cs).head? ≠ some '\x7d' := by
  obtain ⟨c, us, rfl, -, hbracket, hbrace⟩ := h
  exact ⟨fun h => hbracket (Option.some.inj h), fun h => hbrace (Option.some.inj h)⟩

theorem Starts.append {us : List Char} (h : Starts us) (cs : List Char) : Starts (us ++ cs) := by
  obtain ⟨c, us, rfl, hrest⟩ := h
  exact ⟨c, us ++ cs, rfl, hrest⟩

theorem Starts.length_pos {us : List Char} (h : Starts us) : 0 < us.length := by
  obtain ⟨c, us, rfl, -⟩ := h
  exact Nat.succ_pos _

/-- The items of a list, from the first to the closing bracket. -/
def ItemsRead (f : Floats F) (named : List Char → Option ℕ) (items : List (ConfigValue F))
    (us : List Char) : Prop :=
  Starts us ∧ ∀ rest tail fuel, Closing ']' rest tail → us.length + 2 ≤ fuel →
    readItems f named fuel (us ++ tail) = some (items, rest)

/-- The last item of a list reads back before the closing bracket. -/
theorem itemsRead_last {item : ConfigValue F} {us : List Char} (h : ReadsAs f named item us) :
    ItemsRead f named [item] us := by
  refine ⟨h.1, fun rest tail fuel htail hfuel => ?_⟩
  obtain ⟨k, rfl, hk⟩ := exists_succ_of_lt (show us.length + 1 < fuel by omega)
  have hvalue := h.2 tail k (htail.delimited rfl) (by omega)
  rw [readItems, if_neg (h.1.head_ne tail).1, hvalue]
  rcases htail.skip rfl with hskip | ⟨cs, hskip, hclose⟩
  · simp only [Option.bind_eq_bind, Option.bind_some, hskip]
    rfl
  · obtain ⟨j, rfl, -⟩ := exists_succ_of_lt (show 0 < k by omega)
    have hnone : readItems f named (j + 1) (skipBlanks cs) = some ([], rest) := by
      rw [hclose, readItems, if_pos List.head?_cons]
      rfl
    simp only [Option.bind_eq_bind, Option.bind_some, hskip, hnone]
    rfl

/-- An item reads back before a comma and the items after it. -/
theorem itemsRead_cons {item second : ConfigValue F} {items : List (ConfigValue F)}
    {us sp vs : List Char} (h : ReadsAs f named item us) (hsp : Blanks sp)
    (hrest : ItemsRead f named (second :: items) vs) :
    ItemsRead f named (item :: second :: items) (us ++ (',' :: (sp ++ vs))) := by
  refine ⟨h.1.append _, fun rest tail fuel htail hfuel => ?_⟩
  simp only [List.length_append, List.length_cons] at hfuel
  obtain ⟨k, rfl, hk⟩ := exists_succ_of_lt (show us.length + vs.length + 1 < fuel by omega)
  have hshape : us ++ (',' :: (sp ++ vs)) ++ tail = us ++ (',' :: (sp ++ (vs ++ tail))) := by
    simp only [List.append_assoc, List.cons_append]
  have hvalue := h.2 (',' :: (sp ++ (vs ++ tail))) k (.cons rfl _) (by omega)
  have hitems := hrest.2 rest tail k htail (by have := h.1.length_pos; omega)
  have hskip : skipBlanks (sp ++ (vs ++ tail)) = vs ++ tail := by
    rw [skipBlanks_append hsp, skipBlanks_starts hrest.1]
  rw [hshape, readItems, if_neg (h.1.head_ne _).1, hvalue]
  simp only [Option.bind_eq_bind, Option.bind_some, skipBlanks_cons
    (show isBlank ',' = false from rfl),
    hskip, hitems]
  rfl

/-- A printed list, from its items. -/
theorem readsAs_list {items : List (ConfigValue F)} {docs : List Doc} {us : List Char}
    (hlength : docs.length = items.length)
    (hitems : items ≠ [] → ∀ vs, Emits (.concat (commaSeparated docs)) vs →
      ItemsRead f named items vs)
    (h : Emits (bracketed ['['] docs [']']) us) : ReadsAs f named (.list items) us := by
  cases items with
  | nil =>
    obtain rfl := List.length_eq_zero_iff.mp hlength
    rw [bracketed, if_pos rfl] at h
    obtain rfl := emits_text.mp h
    refine ⟨⟨'[', [']'], rfl, by decide, by decide, by decide⟩, fun rest fuel _ hfuel => ?_⟩
    obtain ⟨k, rfl, hk⟩ := exists_succ_of_lt hfuel
    obtain ⟨j, rfl, -⟩ := exists_succ_of_lt (show 0 < k from Nat.lt_of_lt_of_le (by decide) hk)
    rfl
  | cons item items =>
    have hne : docs ≠ [] := fun hnil => by rw [hnil] at hlength; cases hlength
    obtain ⟨soft, body, comma, soft', hsoft, hsoft', hcomma, hbody, rfl⟩ :=
      displayed_of_bracketed hne h
    obtain ⟨hstarts, hread⟩ := hitems (List.cons_ne_nil _ _) body hbody
    refine ⟨⟨'[', _, rfl, by decide, by decide, by decide⟩, fun rest fuel _ hfuel => ?_⟩
    obtain ⟨k, rfl, hk⟩ := exists_succ_of_lt hfuel
    simp only [List.length_append, List.length_cons, List.length_nil] at hk
    have hshape : ['['] ++ (soft ++ (body ++ (comma ++ (soft' ++ [']'])))) ++ rest =
        '[' :: (soft ++ (body ++ (comma ++ (soft' ++ ']' :: rest)))) := by
      simp only [List.append_assoc, List.cons_append, List.nil_append]
    have hskip : skipBlanks (soft ++ (body ++ (comma ++ (soft' ++ ']' :: rest)))) =
        body ++ (comma ++ (soft' ++ ']' :: rest)) := by
      rw [skipBlanks_append hsoft, skipBlanks_starts hstarts]
    have hitem := hread rest (comma ++ (soft' ++ ']' :: rest)) k ⟨comma, soft', hcomma, hsoft', rfl⟩
      (by omega)
    rw [hshape, readValue, if_pos rfl, hskip, hitem]
    rfl

/-- The entries of a dict, from the first to the closing brace. -/
def EntriesRead (f : Floats F) (named : List Char → Option ℕ)
    (entries : List (CodeText × ConfigValue F)) (us : List Char) : Prop :=
  Starts us ∧ ∀ rest tail fuel, Closing '\x7d' rest tail → us.length + 2 ≤ fuel →
    readEntries f named fuel (us ++ tail) = some (entries, rest)

/-- The head of an entry: its key and the colon. -/
theorem readEntries_key {key : CodeText} {item : ConfigValue F} {us rest : List Char}
    (h : ReadsAs f named item us) (hrest : Delimited rest) {k : ℕ} (hk : us.length < k) :
    readString named (quoteString printable key ++ (':' :: ' ' :: (us ++ rest))) =
        some (key, ':' :: ' ' :: (us ++ rest)) ∧
      skipBlanks (':' :: ' ' :: (us ++ rest)) = ':' :: ' ' :: (us ++ rest) ∧
      readValue f named k (skipBlanks (' ' :: (us ++ rest))) = some (item, rest) := by
  refine ⟨readString_quoteString key (.cons rfl _), skipBlanks_cons rfl _, ?_⟩
  have hskip : skipBlanks (' ' :: (us ++ rest)) = us ++ rest :=
    (@skipBlanks_append [' '] (by simp [Blanks]) _).trans (skipBlanks_starts h.1 rest)
  rw [hskip]
  exact h.2 rest k hrest hk

/-- The last entry of a dict reads back before the closing brace. -/
theorem entriesRead_last {key : CodeText} {item : ConfigValue F} {us : List Char}
    (h : ReadsAs f named item us) :
    EntriesRead f named [(key, item)] (quoteString printable key ++ (':' :: ' ' :: us)) := by
  have hstarts := @starts_quoteString printable key (':' :: ' ' :: us)
  refine ⟨hstarts, fun rest tail fuel htail hfuel => ?_⟩
  simp only [List.length_append, List.length_cons] at hfuel
  obtain ⟨k, rfl, hk⟩ := exists_succ_of_lt (show us.length + 1 < fuel by omega)
  have hshape : quoteString printable key ++ (':' :: ' ' :: us) ++ tail =
      quoteString printable key ++ (':' :: ' ' :: (us ++ tail)) := by
    simp only [List.append_assoc, List.cons_append]
  obtain ⟨hkey, hcolon, hvalue⟩ := @readEntries_key F f named printable key item us _ h
    (htail.delimited rfl) k (show us.length < k by omega)
  rw [readEntries, if_neg (hstarts.head_ne tail).2, hshape, hkey]
  rcases htail.skip rfl with hskip | ⟨cs, hskip, hclose⟩
  · simp only [Option.bind_eq_bind, Option.bind_some, hcolon, hvalue, hskip]
    rfl
  · obtain ⟨j, rfl, -⟩ := exists_succ_of_lt (show 0 < k by omega)
    have hnone : readEntries f named (j + 1) (skipBlanks cs) = some ([], rest) := by
      rw [hclose, readEntries, if_pos List.head?_cons]
      rfl
    simp only [Option.bind_eq_bind, Option.bind_some, hcolon, hvalue, hskip, hnone]
    rfl

/-- An entry reads back before a comma and the entries after it. -/
theorem entriesRead_cons {key : CodeText} {item : ConfigValue F}
    {second : CodeText × ConfigValue F} {entries : List (CodeText × ConfigValue F)}
    {us sp vs : List Char} (h : ReadsAs f named item us) (hsp : Blanks sp)
    (hrest : EntriesRead f named (second :: entries) vs) :
    EntriesRead f named ((key, item) :: second :: entries)
      (quoteString printable key ++ (':' :: ' ' :: us) ++ (',' :: (sp ++ vs))) := by
  have hstarts := (@starts_quoteString printable key (':' :: ' ' :: us)).append
    (',' :: (sp ++ vs))
  refine ⟨hstarts, fun rest tail fuel htail hfuel => ?_⟩
  simp only [List.length_append, List.length_cons] at hfuel
  obtain ⟨k, rfl, hk⟩ := exists_succ_of_lt (show us.length + vs.length + 3 < fuel by omega)
  have hshape : quoteString printable key ++ (':' :: ' ' :: us) ++ (',' :: (sp ++ vs)) ++ tail =
      quoteString printable key ++ (':' :: ' ' :: (us ++ (',' :: (sp ++ (vs ++ tail))))) := by
    simp only [List.append_assoc, List.cons_append]
  obtain ⟨hkey, hcolon, hvalue⟩ := @readEntries_key F f named printable key item us _ h
    (Delimited.cons (c := ',') rfl (sp ++ (vs ++ tail))) k (show us.length < k by omega)
  have hentries := hrest.2 rest tail k htail (by omega)
  have hskip : skipBlanks (sp ++ (vs ++ tail)) = vs ++ tail := by
    rw [skipBlanks_append hsp, skipBlanks_starts hrest.1]
  rw [readEntries, if_neg (hstarts.head_ne tail).2, hshape, hkey]
  simp only [Option.bind_eq_bind, Option.bind_some, hcolon, hvalue,
    skipBlanks_cons (show isBlank ',' = false from rfl), hskip, hentries]
  rfl

/-- Entries of distinct keys are stored in their order. -/
theorem foldl_set_of_nodup {entries held : List (CodeText × ConfigValue F)}
    (h : (Assoc.keys held ++ Assoc.keys entries).Nodup) :
    entries.foldl (fun held entry => Assoc.set held entry.1 entry.2) held = held ++ entries := by
  induction entries generalizing held with
  | nil => exact (List.append_nil held).symm
  | cons entry entries ih =>
    have hfresh : entry.1 ∉ Assoc.keys held := fun hmem =>
      (List.nodup_append.mp h).2.2 _ hmem _ List.mem_cons_self rfl
    have hset : Assoc.set held entry.1 entry.2 = held ++ [entry] := Assoc.upsert_of_notMem hfresh _
    rw [List.foldl_cons, hset, ih]
    · rw [List.append_assoc, List.singleton_append]
    · rw [Assoc.keys_append, List.append_assoc]
      exact h

/-- The entries of a dict whose keys are strings. -/
def stringEntries (entries : List (CodeText × ConfigValue F)) : List (ConfigKey × ConfigValue F) :=
  entries.map fun entry => (.str entry.1, entry.2)

/-- A dict display of distinct keys holds its entries as they stand. -/
theorem dictOf_of_nodup {entries : List (CodeText × ConfigValue F)}
    (h : (Assoc.keys entries).Nodup) :
    dictOf entries = stringEntries entries := by
  rw [dictOf, @foldl_set_of_nodup F entries [] h]
  rfl

/-- A printed dict, from its entries. -/
theorem readsAs_dict {entries : List (CodeText × ConfigValue F)} {docs : List Doc} {us : List Char}
    (hnodup : (Assoc.keys entries).Nodup) (hlength : docs.length = entries.length)
    (hentries : entries ≠ [] → ∀ vs, Emits (.concat (commaSeparated docs)) vs →
      EntriesRead f named entries vs)
    (h : Emits (bracketed ['\x7b'] docs ['\x7d']) us) :
    ReadsAs f named (.dict (stringEntries entries)) us := by
  cases entries with
  | nil =>
    obtain rfl := List.length_eq_zero_iff.mp hlength
    rw [bracketed, if_pos rfl] at h
    obtain rfl := emits_text.mp h
    refine ⟨⟨'\x7b', ['\x7d'], rfl, by decide, by decide, by decide⟩, fun rest fuel _ hfuel => ?_⟩
    obtain ⟨k, rfl, hk⟩ := exists_succ_of_lt hfuel
    obtain ⟨j, rfl, -⟩ := exists_succ_of_lt (show 0 < k from Nat.lt_of_lt_of_le (by decide) hk)
    rfl
  | cons entry entries =>
    have hne : docs ≠ [] := fun hnil => by rw [hnil] at hlength; cases hlength
    obtain ⟨soft, body, comma, soft', hsoft, hsoft', hcomma, hbody, rfl⟩ :=
      displayed_of_bracketed hne h
    obtain ⟨hstarts, hread⟩ := hentries (List.cons_ne_nil _ _) body hbody
    refine ⟨⟨'\x7b', _, rfl, by decide, by decide, by decide⟩, fun rest fuel _ hfuel => ?_⟩
    obtain ⟨k, rfl, hk⟩ := exists_succ_of_lt hfuel
    simp only [List.length_append, List.length_cons, List.length_nil] at hk
    have hshape : ['\x7b'] ++ (soft ++ (body ++ (comma ++ (soft' ++ ['\x7d'])))) ++ rest =
        '\x7b' :: (soft ++ (body ++ (comma ++ (soft' ++ '\x7d' :: rest)))) := by
      simp only [List.append_assoc, List.cons_append, List.nil_append]
    have hskip : skipBlanks (soft ++ (body ++ (comma ++ (soft' ++ '\x7d' :: rest)))) =
        body ++ (comma ++ (soft' ++ '\x7d' :: rest)) := by
      rw [skipBlanks_append hsoft, skipBlanks_starts hstarts]
    have hentry :=
      hread rest (comma ++ (soft' ++ '\x7d' :: rest)) k ⟨comma, soft', hcomma, hsoft', rfl⟩
      (by omega)
    rw [hshape, readValue, if_neg (by decide), if_pos rfl, hskip, hentry, ← dictOf_of_nodup hnodup]
    rfl

/-! ### Every value -/

theorem stringKeys_stringEntries (entries : List (CodeText × ConfigValue F)) :
    stringKeys (stringEntries entries) = Assoc.keys entries := by
  induction entries with
  | nil => rfl
  | cons entry entries ih =>
    rw [Assoc.keys_cons, ← ih]
    rfl

section Values

variable (f : Floats F) (named : List Char → Option ℕ) (printable : CodePoint → Bool)

mutual

/-- **Whatever is printed** for a value's literal is read back as the value. -/
theorem readsAs_of_literal : ∀ v : ConfigValue F, distinct v →
    ∀ doc, literal f printable v = .ok doc →
    ∀ us, Emits doc us → ReadsAs f named v us
  | .none, _, doc, hdoc, us, hus => by
    rw [literal] at hdoc
    obtain rfl := Except.ok.inj hdoc
    obtain rfl := emits_text.mp hus
    refine readsAs_name (List.all_eq_true.mp rfl) ⟨'N', _, rfl, by decide⟩ fun rest hrest => ?_
    obtain ⟨htake, hdrop⟩ :=
      @readName_word ['N', 'o', 'n', 'e'] rest (List.all_eq_true.mp rfl) hrest
    simp only [readName, htake, hdrop, if_true]
  | .bool true, _, doc, hdoc, us, hus => by
    rw [literal] at hdoc
    obtain rfl := Except.ok.inj hdoc
    obtain rfl := emits_text.mp hus
    refine readsAs_name (List.all_eq_true.mp rfl) ⟨'T', _, rfl, by decide⟩ fun rest hrest => ?_
    obtain ⟨htake, hdrop⟩ :=
      @readName_word ['T', 'r', 'u', 'e'] rest (List.all_eq_true.mp rfl) hrest
    unfold readName
    simp only [htake, hdrop]
    rfl
  | .bool false, _, doc, hdoc, us, hus => by
    rw [literal] at hdoc
    obtain rfl := Except.ok.inj hdoc
    obtain rfl := emits_text.mp hus
    refine readsAs_name (List.all_eq_true.mp rfl) ⟨'F', _, rfl, by decide⟩ fun rest hrest => ?_
    obtain ⟨htake, hdrop⟩ :=
      @readName_word ['F', 'a', 'l', 's', 'e'] rest (List.all_eq_true.mp rfl) hrest
    unfold readName
    simp only [htake, hdrop]
    rfl
  | .int n, _, doc, hdoc, us, hus => by
    rw [literal] at hdoc
    split_ifs at hdoc
    obtain rfl := Except.ok.inj hdoc
    obtain rfl := emits_text.mp hus
    exact readsAs_int n
  | .float x, _, doc, hdoc, us, hus => by
    rw [literal] at hdoc
    split_ifs at hdoc with hfinite
    obtain rfl := Except.ok.inj hdoc
    obtain rfl := emits_text.mp hus
    exact readsAs_float hfinite
  | .str s, _, doc, hdoc, us, hus => by
    rw [literal] at hdoc
    obtain rfl := Except.ok.inj hdoc
    obtain rfl := emits_text.mp hus
    exact readsAs_str s
  | .list items, hdistinct, doc, hdoc, us, hus => by
    rw [literal] at hdoc
    rw [distinct] at hdistinct
    cases hdocs : literals f printable items with
    | error e =>
      rw [hdocs] at hdoc
      cases hdoc
    | ok docs =>
      rw [hdocs] at hdoc
      obtain rfl := Except.ok.inj hdoc
      obtain ⟨hlength, hitems⟩ := itemsRead_of_literals items hdistinct docs hdocs
      exact readsAs_list hlength hitems hus
  | .dict entries, hdistinct, doc, hdoc, us, hus => by
    rw [literal] at hdoc
    rw [distinct] at hdistinct
    cases hdocs : literalEntries f printable entries with
    | error e =>
      rw [hdocs] at hdoc
      cases hdoc
    | ok docs =>
      rw [hdocs] at hdoc
      obtain rfl := Except.ok.inj hdoc
      obtain ⟨es, rfl, hlength, hentries⟩ :=
        entriesRead_of_literalEntries entries hdistinct.2 docs hdocs
      exact readsAs_dict (stringKeys_stringEntries es ▸ hdistinct.1) hlength hentries hus
  | .other _, _, doc, hdoc, _, _ => by
    rw [literal] at hdoc
    cases hdoc

/-- What is written for the items of a list reads back as those items. -/
theorem itemsRead_of_literals : ∀ items : List (ConfigValue F), allDistinct items → ∀ docs,
    literals f printable items = .ok docs → docs.length = items.length ∧
      (items ≠ [] → ∀ vs, Emits (.concat (commaSeparated docs)) vs → ItemsRead f named items vs)
  | [], _, docs, hdocs => by
    rw [literals] at hdocs
    obtain rfl := Except.ok.inj hdocs
    exact ⟨rfl, fun hne => absurd rfl hne⟩
  | item :: items, hdistinct, docs, hdocs => by
    rw [literals] at hdocs
    rw [allDistinct] at hdistinct
    cases hdoc : literal f printable item with
    | error e =>
      rw [hdoc] at hdocs
      cases hdocs
    | ok doc =>
      cases hrest : literals f printable items with
      | error e => simp [hdoc, hrest, bind, Except.bind] at hdocs
      | ok rest =>
        simp only [hdoc, hrest, bind, Except.bind, pure, Except.pure, Except.ok.injEq] at hdocs
        subst hdocs
        obtain ⟨hlength, hitems⟩ := itemsRead_of_literals items hdistinct.2 rest hrest
        have hitem := readsAs_of_literal item hdistinct.1 doc hdoc
        refine ⟨by rw [List.length_cons, hlength, List.length_cons], fun _ vs hvs => ?_⟩
        cases items with
        | nil =>
          obtain rfl := List.length_eq_zero_iff.mp hlength
          exact itemsRead_last (hitem vs (emits_singleton.mp hvs))
        | cons second items =>
          obtain ⟨next, rest, rfl⟩ := List.exists_cons_of_length_eq_add_one hlength
          obtain ⟨us, sp, ws, hus, hsp, hws, rfl⟩ := emits_commaSeparated hvs
          exact itemsRead_cons (hitem us hus) hsp (hitems (List.cons_ne_nil _ _) ws hws)

/-- What is written for the entries of a dict reads back as those entries, their keys strings. -/
theorem entriesRead_of_literalEntries : ∀ entries : List (ConfigKey × ConfigValue F),
    entriesDistinct entries → ∀ docs, literalEntries f printable entries = .ok docs →
      ∃ es, entries = stringEntries es ∧ docs.length = es.length ∧
        (es ≠ [] → ∀ vs, Emits (.concat (commaSeparated docs)) vs → EntriesRead f named es vs)
  | [], _, docs, hdocs => by
    rw [literalEntries] at hdocs
    obtain rfl := Except.ok.inj hdocs
    exact ⟨[], rfl, rfl, fun hne => absurd rfl hne⟩
  | (.other _, _) :: _, _, docs, hdocs => by
    rw [literalEntries] at hdocs
    cases hdocs
  | (.str key, item) :: entries, hdistinct, docs, hdocs => by
    rw [literalEntries] at hdocs
    rw [entriesDistinct] at hdistinct
    cases hdoc : literal f printable item with
    | error e =>
      rw [hdoc] at hdocs
      cases hdocs
    | ok doc =>
      cases hrest : literalEntries f printable entries with
      | error e => simp [hdoc, hrest, bind, Except.bind] at hdocs
      | ok rest =>
        simp only [hdoc, hrest, bind, Except.bind, pure, Except.pure, Except.ok.injEq] at hdocs
        subst hdocs
        obtain ⟨es, rfl, hlength, hentries⟩ :=
          entriesRead_of_literalEntries entries hdistinct.2 rest hrest
        have hitem := readsAs_of_literal item hdistinct.1 doc hdoc
        have hentry : ∀ us,
            Emits (.concat [.text (quoteString printable key), .text [':', ' '], doc]) us →
            ∃ vs, Emits doc vs ∧ us = quoteString printable key ++ (':' :: ' ' :: vs) := by
          intro us hus
          obtain ⟨k, ws, hk, hws, rfl⟩ := emits_cons.mp hus
          obtain ⟨colon, vs, hcolon, hvs, rfl⟩ := emits_cons.mp hws
          obtain rfl := emits_text.mp hk
          obtain rfl := emits_text.mp hcolon
          exact ⟨vs, emits_singleton.mp hvs, rfl⟩
        refine ⟨(key, item) :: es, rfl, by rw [List.length_cons, hlength, List.length_cons],
          fun _ vs hvs => ?_⟩
        cases es with
        | nil =>
          obtain rfl := List.length_eq_zero_iff.mp hlength
          obtain ⟨us, hus, rfl⟩ := hentry vs (emits_singleton.mp hvs)
          exact entriesRead_last (hitem us hus)
        | cons second es =>
          obtain ⟨next, rest, rfl⟩ := List.exists_cons_of_length_eq_add_one hlength
          obtain ⟨head, sp, ws, hhead, hsp, hws, rfl⟩ := emits_commaSeparated hvs
          obtain ⟨us, hus, rfl⟩ := hentry head hhead
          exact entriesRead_cons (hitem us hus) hsp (hentries (List.cons_ne_nil _ _) ws hws)

end

mutual

/-- A value has a literal exactly if it is of the kinds that have one. -/
theorem exists_literal_iff : ∀ v : ConfigValue F,
    (∃ doc, literal f printable v = .ok doc) ↔ supported f v = true
  | .none => by simp [literal, supported]
  | .bool true => by simp [literal, supported]
  | .bool false => by simp [literal, supported]
  | .int n => by
    rw [literal, supported, decide_eq_true_iff]
    split_ifs with h
    · exact iff_of_true ⟨_, rfl⟩ h
    · exact iff_of_false (fun ⟨_, h⟩ => nomatch h) h
  | .float x => by
    rw [literal, supported]
    split_ifs with h
    · exact iff_of_true ⟨_, rfl⟩ h
    · exact iff_of_false (fun ⟨_, h⟩ => nomatch h) h
  | .str _ => by simp [literal, supported]
  | .list items => by
    rw [literal, supported, ← exists_literals_iff items]
    cases literals f printable items with
    | error e => exact iff_of_false (fun ⟨_, h⟩ => nomatch h) fun ⟨_, h⟩ => nomatch h
    | ok docs => exact iff_of_true ⟨_, rfl⟩ ⟨_, rfl⟩
  | .dict entries => by
    rw [literal, supported, ← exists_literalEntries_iff entries]
    cases literalEntries f printable entries with
    | error e => exact iff_of_false (fun ⟨_, h⟩ => nomatch h) fun ⟨_, h⟩ => nomatch h
    | ok docs => exact iff_of_true ⟨_, rfl⟩ ⟨_, rfl⟩
  | .other _ => by simp [literal, supported]

/-- Items are written exactly when each of them is supported. -/
theorem exists_literals_iff : ∀ items : List (ConfigValue F),
    (∃ docs, literals f printable items = .ok docs) ↔ allSupported f items = true
  | [] => by simp [literals, allSupported]
  | item :: items => by
    rw [literals, allSupported, Bool.and_eq_true, ← exists_literal_iff item,
      ← exists_literals_iff items]
    cases literal f printable item with
    | error e => exact iff_of_false (fun ⟨_, h⟩ => nomatch h) fun ⟨⟨_, h⟩, _⟩ => nomatch h
    | ok doc =>
      cases literals f printable items with
      | error e => exact iff_of_false (fun ⟨_, h⟩ => nomatch h) fun ⟨_, ⟨_, h⟩⟩ => nomatch h
      | ok docs => exact iff_of_true ⟨_, rfl⟩ ⟨⟨_, rfl⟩, ⟨_, rfl⟩⟩

/-- Entries are written exactly when each of them is supported. -/
theorem exists_literalEntries_iff : ∀ entries : List (ConfigKey × ConfigValue F),
    (∃ docs, literalEntries f printable entries = .ok docs) ↔ entriesSupported f entries = true
  | [] => by simp [literalEntries, entriesSupported]
  | (.other _, _) :: _ => by simp [literalEntries, entriesSupported]
  | (.str key, item) :: entries => by
    rw [literalEntries, entriesSupported, Bool.and_eq_true, ← exists_literal_iff item,
      ← exists_literalEntries_iff entries]
    cases literal f printable item with
    | error e => exact iff_of_false (fun ⟨_, h⟩ => nomatch h) fun ⟨⟨_, h⟩, _⟩ => nomatch h
    | ok doc =>
      cases literalEntries f printable entries with
      | error e => exact iff_of_false (fun ⟨_, h⟩ => nomatch h) fun ⟨_, ⟨_, h⟩⟩ => nomatch h
      | ok docs => exact iff_of_true ⟨_, rfl⟩ ⟨⟨_, rfl⟩, ⟨_, rfl⟩⟩

end

end Values

/-! ### Calls and signatures -/

/-- How a sequence is laid out. -/
inductive Sequence where
  | arguments (signature : Bool)
  | bracketed

/-- What a literal is printed in: a call, a signature or a display, with the other entries, what is
written before the literal in its own, and what is printed before and after. -/
structure Surroundings where
  front : List Doc
  layout : Sequence
  left : List Char
  before : List Doc
  head : List Char
  after : List Doc
  right : Char
  closes : delimiter right = true
  back : List Doc

def Sequence.doc (layout : Sequence) (left : List Char) (entries : List Doc)
    (right : List Char) : Doc :=
  match layout with
  | .arguments signature => Haute.Layout.arguments left entries right signature
  | .bracketed => Haute.Layout.bracketed left entries right

def Surroundings.fill (s : Surroundings) (doc : Doc) : Doc :=
  .concat (s.front ++
    s.layout.doc s.left (s.before ++ .concat [.text s.head, doc] :: s.after) [s.right] :: s.back)

/-- Each entry of a list is emitted between commas. -/
theorem exists_emits_entry {entry : Doc} {before after : List Doc} {us : List Char}
    (h : Emits (.concat (commaSeparated (before ++ entry :: after))) us) :
    ∃ pre vs post, us = pre ++ (vs ++ post) ∧ Emits entry vs ∧
      (post = [] ∨ ∃ cs, post = ',' :: cs) := by
  induction before generalizing us with
  | nil =>
    cases after with
    | nil => exact ⟨[], us, [], (List.append_nil us).symm, emits_singleton.mp h, .inl rfl⟩
    | cons second after =>
      obtain ⟨vs, sp, ws, hvs, -, -, rfl⟩ := emits_commaSeparated h
      exact ⟨[], vs, _, rfl, hvs, .inr ⟨_, rfl⟩⟩
  | cons first before ih =>
    obtain ⟨second, rest, hrest⟩ := List.exists_cons_of_ne_nil
      (List.append_ne_nil_of_right_ne_nil before (List.cons_ne_nil entry after))
    rw [List.cons_append, hrest] at h
    obtain ⟨vs, sp, ws, -, -, hws, rfl⟩ := emits_commaSeparated h
    rw [← hrest] at hws
    obtain ⟨pre, vs', post, rfl, hvs', hpost⟩ := ih hws
    refine ⟨vs ++ (',' :: (sp ++ pre)), vs', post, ?_, hvs', hpost⟩
    simp only [List.append_assoc, List.cons_append]

/-- **A printed call or signature** holds a text the literal may print, and goes on with a
delimiter. -/
theorem exists_emits_fill {s : Surroundings} {doc : Doc} {us : List Char}
    (h : Emits (s.fill doc) us) :
    ∃ pre vs post, us = pre ++ (vs ++ post) ∧ Emits doc vs ∧ Delimited post := by
  obtain ⟨front, ws, -, hrest, rfl⟩ := emits_append.mp h
  obtain ⟨sequence, back, hsequence, -, rfl⟩ := emits_cons.mp hrest
  have hne : s.before ++ .concat [.text s.head, doc] :: s.after ≠ [] :=
    List.append_ne_nil_of_right_ne_nil _ (List.cons_ne_nil _ _)
  have hdisplayed : Displayed s.left (s.before ++ .concat [.text s.head, doc] :: s.after) [s.right]
      sequence := by
    cases hlayout : s.layout with
    | arguments signature =>
      rw [hlayout] at hsequence
      exact displayed_of_arguments hne hsequence
    | bracketed =>
      rw [hlayout] at hsequence
      exact displayed_of_bracketed hne hsequence
  obtain ⟨soft, body, comma, soft', -, hsoft', hcomma, hbody, rfl⟩ := hdisplayed
  obtain ⟨pre, entry, post, rfl, hentry, hpost⟩ := exists_emits_entry hbody
  obtain ⟨head, vs, hhead, hvs, rfl⟩ := emits_cons.mp hentry
  obtain rfl := emits_text.mp hhead
  refine ⟨front ++ (s.left ++ (soft ++ (pre ++ s.head))), vs,
    post ++ (comma ++ (soft' ++ s.right :: back)), ?_, emits_singleton.mp hvs, ?_⟩
  · simp only [List.append_assoc, List.cons_append, List.nil_append]
  · rcases hpost with rfl | ⟨cs, rfl⟩
    · exact Closing.delimited s.closes ⟨comma, soft', hcomma, hsoft', rfl⟩
    · exact .cons rfl _

/-- What reads as a value is read so where a delimiter follows. -/
theorem readLiteral_of_readsAs {v : ConfigValue F} {us rest : List Char} (h : ReadsAs f named v us)
    (hrest : Delimited rest) : readLiteral f named (us ++ rest) = some (v, rest) :=
  h.2 rest _ hrest (by rw [List.length_append]; omega)

/-- **Printed literals read back** as the same value with the same key order: printed alone, and in
any call, signature or display, at any width and indentation. Any other value is refused, and so is
an integer of more than 4300 digits. -/
theorem literal_reads_back (f : Floats F) (named : List Char → Option ℕ)
    (printable : CodePoint → Bool)
    (columns : Char → ℕ) (v : ConfigValue F) :
    (supported f v = true → distinct v → ∃ doc, literal f printable v = .ok doc ∧
      (∀ lineWidth indent, readLiteral f named (printDoc columns lineWidth doc indent) =
        some (v, [])) ∧
      ∀ (s : Surroundings) (lineWidth indent : ℕ), ∃ pre us post,
        printDoc columns lineWidth (s.fill doc) indent = pre ++ (us ++ post) ∧ Emits doc us ∧
          readLiteral f named us = some (v, []) ∧ readLiteral f named (us ++ post) =
            some (v, post)) ∧
    (supported f v = false → ∃ e, literal f printable v = .error e) := by
  constructor
  · intro hsupported hdistinct
    obtain ⟨doc, hdoc⟩ := (exists_literal_iff f printable v).mpr hsupported
    have hreads := readsAs_of_literal f named printable v hdistinct doc hdoc
    have halone : ∀ us, Emits doc us → readLiteral f named us = some (v, []) := by
      intro us hus
      have hread := @readLiteral_of_readsAs F f named v us [] (hreads us hus) fun c hc => nomatch hc
      rwa [List.append_nil] at hread
    refine ⟨doc, hdoc, fun lineWidth indent =>
      halone _ (emits_printDoc columns lineWidth doc indent),
      fun s lineWidth indent => ?_⟩
    obtain ⟨pre, us, post, hprinted, hus, hpost⟩ :=
      exists_emits_fill (emits_printDoc columns lineWidth (s.fill doc) indent)
    exact ⟨pre, us, post, hprinted, hus, halone us hus, readLiteral_of_readsAs
      (hreads us hus) hpost⟩
  · intro hsupported
    cases hliteral : literal f printable v with
    | error e => exact ⟨e, rfl⟩
    | ok doc =>
      rw [(exists_literal_iff f printable v).mp ⟨doc, hliteral⟩] at hsupported
      cases hsupported

/-- Numbers of halves, of which one and a half is the only finite one. -/
def halves : Floats ℤ where
  finite x := decide (x = 3)
  negative x := decide (x < 0)
  special x := if x < 0 then "-inf" else "inf"
  digits _ := ⟨['1'], some ['5'], none⟩
  ofDigits _ := 3
  neg x := -x
  wellFormed x _ := by
    refine ⟨⟨by decide, List.all_eq_true.mp rfl⟩, fun ds hds => ?_, fun e he =>
      (nomatch he), .inl (by decide)⟩
    obtain rfl := Option.some.inj hds
    exact ⟨by decide, List.all_eq_true.mp rfl⟩
  roundTrip x hx := by
    obtain rfl := of_decide_eq_true hx
    rfl

/-- An integer of 4301 digits has no literal: `str` refuses it. -/
theorem exists_int_without_literal :
    literal halves (fun _ => false) (.int intLimit) =
      .error (.value ("Exceeds the limit (4300 digits) for integer string conversion; " ++
        "use sys.set_int_max_str_digits() to increase the limit")) := by
  rw [literal, if_neg]
  rw [Int.natAbs_natCast]
  exact lt_irrefl _

/-- A dict whose key is a double quote and whose item is a list, printed at any width and
indentation. -/
theorem literal_reads_back_dict :
    ∃ doc, literal halves (fun _ => false)
        (.dict [(.str [CodePoint.of 34], .list [.int (-5), .float 3, .none])]) = .ok doc ∧
      ∀ lineWidth indent, readLiteral halves (fun _ => none)
          (printDoc (fun _ => 1) lineWidth doc indent) =
        some (.dict [(.str [CodePoint.of 34], .list [.int (-5), .float 3, .none])], []) := by
  have hlimit : 5 < intLimit := by
    unfold intLimit
    exact lt_of_lt_of_le (by decide : 5 < 10) (le_self_pow₀ (by decide) (by decide))
  have hread := (literal_reads_back halves (fun _ => none) (fun _ => false) (fun _ => 1)
    (.dict [(.str [CodePoint.of 34], .list [.int (-5), .float 3, .none])])).1 (by
      simp [supported, entriesSupported, allSupported, halves, hlimit]) (by
      simp [distinct, entriesDistinct, allDistinct, stringKeys])
  obtain ⟨doc, hdoc, halone, -⟩ := hread
  exact ⟨doc, hdoc, halone⟩

end Haute.Layout
