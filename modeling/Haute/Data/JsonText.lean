import Mathlib.Data.List.Nodup
import Mathlib.Data.List.Perm.Basic
import Mathlib.Logic.Function.Basic
import Mathlib.Data.String.Basic
import Mathlib.Tactic.SplitIfs

/-!
# The text of a JSON document

Compact, ASCII-only JSON with the keys of every object sorted. `Json F` is a document whose
floats are of a type `F` with a text of their own (`FloatText`); `text` writes it and `dumps`
sorts the keys first. The one result is that the text says everything but the order of keys:
`dumps_eq_iff`.

The text is read off from the left. A scalar's text has no structural character in it, so it
ends where the next one stands (`token_append_inj`); a string's characters decode one at a
time (`unescapeChar_escapeChar`); an array and an object say before each element whether there
is one. `text_append_inj` puts these together by induction on the document.
-/

namespace Haute.Data

/-- The characters that JSON is put together with. -/
def structural (c : Char) : Bool :=
  c == '"' || c == '[' || c == ']' || c == '{' || c == '}' || c == ',' || c == ':'

/-- How floats are written: one text each, a token that is no integer and no keyword. -/
structure FloatText (F : Type) where
  text : F → List Char
  injective : Function.Injective text
  plain : ∀ x, ∀ c ∈ text x, structural c = false
  start : ∀ x, ∃ c rest, text x = c :: rest ∧ c ≠ 'n' ∧ c ≠ 't' ∧ c ≠ 'f'
  mark : ∀ x, ∃ c ∈ text x, c.isDigit = false ∧ c ≠ '-'

/-- What a document holds that holds nothing itself, strings apart. -/
inductive Scalar (F : Type) where
  | null
  | bool (b : Bool)
  | int (n : ℤ)
  | float (x : F)

/-- A JSON document, an object's entries in the order they were put in. -/
inductive Json (F : Type) where
  | scalar (s : Scalar F)
  | str (s : String)
  | arr (xs : List (Json F))
  | obj (fs : List (String × Json F))

variable {F : Type}

/-! ### Tokens -/

/-- The decimal digits of an integer. -/
def intText (n : ℤ) : List Char :=
  if n < 0 then '-' :: Nat.toDigits 10 n.natAbs else Nat.toDigits 10 n.natAbs

/-- A natural number is determined by its digits. -/
theorem toDigits_injective {m n : ℕ} (h : Nat.toDigits 10 m = Nat.toDigits 10 n) : m = n := by
  rw [← Nat.ofDigitChars_ten_toDigits (n := m), h, Nat.ofDigitChars_ten_toDigits]

theorem isDigit_of_mem_digits {c : Char} {n : ℕ} (h : c ∈ Nat.toDigits 10 n) : c.isDigit = true :=
  Nat.isDigit_of_mem_toDigits (by decide) (by decide) h

/-- An integer is written with digits and a minus. -/
theorem isDigit_or_minus_of_mem_intText {c : Char} {n : ℤ} (h : c ∈ intText n) :
    c.isDigit = true ∨ c = '-' := by
  unfold intText at h
  split_ifs at h with hn
  · rcases List.mem_cons.mp h with rfl | h
    · exact .inr rfl
    · exact .inl (isDigit_of_mem_digits h)
  · exact .inl (isDigit_of_mem_digits h)

theorem minus_notMem_digits {n : ℕ} : '-' ∉ Nat.toDigits 10 n :=
  fun h => absurd (isDigit_of_mem_digits h) (by decide)

/-- An integer is determined by its text. -/
theorem intText_injective : Function.Injective intText := by
  intro m n h
  unfold intText at h
  split_ifs at h with hm hn hn
  · have := toDigits_injective (List.cons.inj h).2
    omega
  · exact absurd (h ▸ List.mem_cons_self) minus_notMem_digits
  · exact absurd (h ▸ List.mem_cons_self) minus_notMem_digits
  · have := toDigits_injective h
    omega

theorem intText_ne_nil (n : ℤ) : intText n ≠ [] := by
  unfold intText
  split_ifs
  · exact List.cons_ne_nil _ _
  · exact Nat.toDigits_ne_nil

theorem structural_of_isDigit {c : Char} (h : c.isDigit = true) : structural c = false := by
  by_contra hs
  simp only [structural, Bool.not_eq_false, Bool.or_eq_true, beq_iff_eq] at hs
  rcases hs with (((((rfl | rfl) | rfl) | rfl) | rfl) | rfl) | rfl <;> revert h <;> decide

/-- `json.dumps` of a scalar. -/
def Scalar.text (T : FloatText F) : Scalar F → List Char
  | null => ['n', 'u', 'l', 'l']
  | bool true => ['t', 'r', 'u', 'e']
  | bool false => ['f', 'a', 'l', 's', 'e']
  | int n => intText n
  | float x => T.text x

/-- No scalar's text has a structural character. -/
theorem Scalar.text_plain (T : FloatText F) (s : Scalar F) :
    ∀ c ∈ s.text T, structural c = false := by
  intro c hc
  match s with
  | null | bool true =>
    simp only [text, List.mem_cons, List.not_mem_nil, or_false] at hc
    rcases hc with rfl | rfl | rfl | rfl <;> rfl
  | bool false =>
    simp only [text, List.mem_cons, List.not_mem_nil, or_false] at hc
    rcases hc with rfl | rfl | rfl | rfl | rfl <;> rfl
  | int n =>
    rcases isDigit_or_minus_of_mem_intText hc with h | rfl
    · exact structural_of_isDigit h
    · rfl
  | float x => exact T.plain x c hc

theorem Scalar.text_ne_nil (T : FloatText F) (s : Scalar F) : s.text T ≠ [] := by
  match s with
  | null | bool true | bool false => exact List.cons_ne_nil _ _
  | int n => exact intText_ne_nil n
  | float x =>
    obtain ⟨c, rest, h, -⟩ := T.start x
    exact fun h' => absurd (h ▸ h' : c :: rest = []) (List.cons_ne_nil _ _)

/-- A keyword starts with a letter of its own, which no number does. -/
theorem Scalar.keyword_ne {c : Char} {rest : List Char} (hc : c = 'n' ∨ c = 't' ∨ c = 'f')
    (T : FloatText F) : (∀ n, intText n ≠ c :: rest) ∧ ∀ x, T.text x ≠ c :: rest := by
  refine ⟨fun n h => ?_, fun x h => ?_⟩
  · rcases isDigit_or_minus_of_mem_intText (h ▸ List.mem_cons_self : c ∈ intText n) with h | rfl
    · rcases hc with rfl | rfl | rfl <;> revert h <;> decide
    · revert hc; decide
  · obtain ⟨d, rest', hd, hn, ht, hf⟩ := T.start x
    obtain rfl : d = c := (List.cons.inj (hd.symm.trans h)).1
    rcases hc with hc | hc | hc <;> contradiction

/-- No integer is written as a float is. -/
theorem Scalar.int_ne_float (T : FloatText F) (n : ℤ) (x : F) : intText n ≠ T.text x := by
  intro h
  obtain ⟨c, hc, hdigit, hminus⟩ := T.mark x
  rcases isDigit_or_minus_of_mem_intText (h ▸ hc) with h | h
  · rw [hdigit] at h
    cases h
  · exact hminus h

/-- A scalar is determined by its text. -/
theorem Scalar.text_injective (T : FloatText F) : Function.Injective (Scalar.text T) := by
  intro s t h
  have kw := fun {c rest} hc => @Scalar.keyword_ne F c rest hc T
  match s, t with
  | null, null | bool true, bool true | bool false, bool false => rfl
  | null, bool true | null, bool false | bool true, bool false => simp [text] at h
  | bool true, null | bool false, null | bool false, bool true => simp [text] at h
  | int m, int n => rw [intText_injective h]
  | float x, float y => rw [T.injective h]
  | null, int n | bool true, int n | bool false, int n =>
    exact absurd h.symm ((kw (by decide)).1 n)
  | int n, null | int n, bool true | int n, bool false => exact absurd h ((kw (by decide)).1 n)
  | null, float x | bool true, float x | bool false, float x =>
    exact absurd h.symm ((kw (by decide)).2 x)
  | float x, null | float x, bool true | float x, bool false =>
    exact absurd h ((kw (by decide)).2 x)
  | int n, float x => exact absurd h (Scalar.int_ne_float T n x)
  | float x, int n => exact absurd h.symm (Scalar.int_ne_float T n x)

/-- What follows a document inside another: nothing, or a structural character. -/
def Ends (r : List Char) : Prop := ∀ c rest, r = c :: rest → structural c = true

theorem Ends.nil : Ends [] := fun _ _ h => by cases h

theorem Ends.cons {c : Char} (hc : structural c = true) (r : List Char) : Ends (c :: r) :=
  fun _ _ h => (List.cons.inj h).1 ▸ hc

/-- A token ends where a structural character stands. -/
theorem token_append_inj {a b r s : List Char} (ha : ∀ c ∈ a, structural c = false)
    (hb : ∀ c ∈ b, structural c = false) (hr : Ends r) (hs : Ends s) (h : a ++ r = b ++ s) :
    a = b ∧ r = s := by
  induction a generalizing b with
  | nil =>
    cases b with
    | nil => exact ⟨rfl, h⟩
    | cons c b => exact absurd (hr c _ h) (by simp [hb c List.mem_cons_self])
  | cons c a ih =>
    cases b with
    | nil => exact absurd (hs c _ h.symm) (by simp [ha c List.mem_cons_self])
    | cons d b =>
      obtain ⟨rfl, htail⟩ := List.cons.inj h
      obtain ⟨rfl, rfl⟩ := ih (fun c hc => ha c (List.mem_cons_of_mem _ hc))
        (fun c hc => hb c (List.mem_cons_of_mem _ hc)) htail
      exact ⟨rfl, rfl⟩

/-! ### Strings -/

/-- The letter of a two-character escape. -/
def shortEscape (c : Char) : Option Char :=
  if c = '"' then some '"' else if c = '\\' then some '\\' else if c = '\n' then some 'n'
  else if c = '\r' then some 'r' else if c = '\t' then some 't'
  else if c = '\x0c' then some 'f' else if c = '\x08' then some 'b' else none

/-- What a two-character escape stands for. -/
def shortUnescape (e : Char) : Char :=
  if e = 'n' then '\n' else if e = 'r' then '\r' else if e = 't' then '\t'
  else if e = 'f' then '\x0c' else if e = 'b' then '\x08' else e

/-- Four hexadecimal digits, as `'\\u{0:04x}'` writes them. -/
def unicodeEscape (n : ℕ) : List Char :=
  ['\\', 'u', Nat.digitChar (n / 4096 % 16), Nat.digitChar (n / 256 % 16),
    Nat.digitChar (n / 16 % 16), Nat.digitChar (n % 16)]

/-- One character of a string: itself where it is printable ASCII, an escape otherwise, and
the escapes of its two surrogates beyond the basic plane. -/
def escapeChar (c : Char) : List Char :=
  match shortEscape c with
  | some e => ['\\', e]
  | none =>
    if ' '.toNat ≤ c.toNat ∧ c.toNat ≤ '~'.toNat then [c]
    else if c.toNat < 0x10000 then unicodeEscape c.toNat
    else unicodeEscape (0xD800 + (c.toNat - 0x10000) / 1024) ++
      unicodeEscape (0xDC00 + (c.toNat - 0x10000) % 1024)

/-- The number of a hexadecimal digit. -/
def hexValue (c : Char) : ℕ := if c.isDigit then c.toNat - 48 else c.toNat - 87

/-- A hexadecimal digit is read back as its value. -/
theorem hexValue_digitChar {n : ℕ} (h : n < 16) : hexValue (Nat.digitChar n) = n := by
  rcases n with _ | _ | _ | _ | _ | _ | _ | _ | _ | _ | _ | _ | _ | _ | _ | _ | n
  all_goals first | decide | omega

/-- The number four hexadecimal digits write. -/
def hexNumber (a b c d : Char) : ℕ :=
  hexValue a * 4096 + hexValue b * 256 + hexValue c * 16 + hexValue d

/-- Reads the second surrogate of a pair that starts with `n`. -/
def unescapePair (n : ℕ) : List Char → Option (Char × List Char)
  | '\\' :: 'u' :: a :: b :: c :: d :: rest =>
    some (.ofNat (0x10000 + (n - 0xD800) * 1024 + (hexNumber a b c d - 0xDC00)), rest)
  | _ => none

/-- Reads back one character of a string. -/
def unescapeChar : List Char → Option (Char × List Char)
  | '\\' :: 'u' :: a :: b :: c :: d :: rest =>
    if 0xD800 ≤ hexNumber a b c d ∧ hexNumber a b c d < 0xDC00 then
      unescapePair (hexNumber a b c d) rest
    else some (.ofNat (hexNumber a b c d), rest)
  | '\\' :: e :: rest => some (shortUnescape e, rest)
  | c :: rest => some (c, rest)
  | [] => none

/-- The four digits of an escape are read back as its number. -/
theorem hexNumber_unicodeEscape {n : ℕ} (h : n < 0x10000) :
    hexNumber (Nat.digitChar (n / 4096 % 16)) (Nat.digitChar (n / 256 % 16))
      (Nat.digitChar (n / 16 % 16)) (Nat.digitChar (n % 16)) = n := by
  simp only [hexNumber, hexValue_digitChar (Nat.mod_lt _ (by decide : 0 < 16))]
  omega

/-- A short escape is undone by its letter, which is no u. -/
theorem shortEscape_spec {c e : Char} (h : shortEscape c = some e) :
    e ≠ 'u' ∧ shortUnescape e = c := by
  unfold shortEscape at h
  split_ifs at h with h1 h2 h3 h4 h5 h6 h7 <;> cases h <;> subst_vars <;> decide

theorem ne_backslash_of_shortEscape {c : Char} (h : shortEscape c = none) : c ≠ '\\' ∧ c ≠ '"' := by
  constructor <;> rintro rfl <;> revert h <;> decide

/-- A character lies below the surrogates or above them. -/
theorem toNat_valid (c : Char) : c.toNat < 0xD800 ∨ (0xDFFF < c.toNat ∧ c.toNat < 0x110000) :=
  c.valid

/-- An escaped character is read back, and nothing after it. -/
theorem unescapeChar_escapeChar (c : Char) (r : List Char) :
    unescapeChar (escapeChar c ++ r) = some (c, r) := by
  unfold escapeChar
  cases he : shortEscape c with
  | some e =>
    obtain ⟨hu, hc⟩ := shortEscape_spec he
    change unescapeChar ('\\' :: e :: r) = _
    rw [unescapeChar.eq_2 _ _ (fun _ _ _ _ _ h _ => hu h), hc]
  | none =>
    have hvalid := toNat_valid c
    dsimp only
    split_ifs with hplain hbasic
    · have hslash := (ne_backslash_of_shortEscape he).1
      change unescapeChar (c :: r) = _
      rw [unescapeChar.eq_3 _ _ (fun _ _ _ _ _ h _ => hslash h) (fun _ _ h _ => hslash h)]
    · change unescapeChar ('\\' :: 'u' :: _ :: _ :: _ :: _ :: r) = _
      have hnot : ¬ (0xD800 ≤ c.toNat ∧ c.toNat < 0xDC00) := by omega
      rw [unescapeChar.eq_1]
      simp only [hexNumber_unicodeEscape hbasic, if_neg hnot, Char.ofNat_toNat]
    · -- the pair of surrogates that stands for a character beyond the basic plane
      have hhigh : 0xD800 + (c.toNat - 0x10000) / 1024 < 0x10000 := by omega
      have hlow : 0xDC00 + (c.toNat - 0x10000) % 1024 < 0x10000 := by omega
      have hrange : 0xD800 ≤ 0xD800 + (c.toNat - 0x10000) / 1024 ∧
          0xD800 + (c.toNat - 0x10000) / 1024 < 0xDC00 := by omega
      have hsum : 0x10000 + (0xD800 + (c.toNat - 0x10000) / 1024 - 0xD800) * 1024 +
          (0xDC00 + (c.toNat - 0x10000) % 1024 - 0xDC00) = c.toNat := by omega
      change unescapeChar
        ('\\' :: 'u' :: _ :: _ :: _ :: _ :: '\\' :: 'u' :: _ :: _ :: _ :: _ :: r) = _
      rw [unescapeChar.eq_1]
      simp only [hexNumber_unicodeEscape hhigh, if_pos hrange, unescapePair,
        hexNumber_unicodeEscape hlow, hsum, Char.ofNat_toNat]

/-- No character is written with a quote in front. -/
theorem escapeChar_ne_quote (c : Char) : ∃ d rest, escapeChar c = d :: rest ∧ d ≠ '"' := by
  unfold escapeChar
  cases he : shortEscape c with
  | some e => exact ⟨_, _, rfl, by decide⟩
  | none =>
    dsimp only
    split_ifs
    · exact ⟨_, _, rfl, (ne_backslash_of_shortEscape he).2⟩
    · exact ⟨_, _, rfl, by decide⟩
    · exact ⟨_, _, rfl, by decide⟩

/-- Two escaped texts up to their closing quotes are of one string. -/
theorem escape_append_inj {a b r s : List Char}
    (h : a.flatMap escapeChar ++ '"' :: r = b.flatMap escapeChar ++ '"' :: s) : a = b ∧ r = s := by
  induction a generalizing b with
  | nil =>
    cases b with
    | nil => exact ⟨rfl, (List.cons.inj h).2⟩
    | cons d b =>
      obtain ⟨x, rest, hx, hne⟩ := escapeChar_ne_quote d
      rw [List.flatMap_cons, hx] at h
      exact absurd (List.cons.inj h).1.symm hne
  | cons c a ih =>
    cases b with
    | nil =>
      obtain ⟨x, rest, hx, hne⟩ := escapeChar_ne_quote c
      rw [List.flatMap_cons, hx] at h
      exact absurd (List.cons.inj h).1 hne
    | cons d b =>
      simp only [List.flatMap_cons, List.append_assoc] at h
      have hread := congrArg unescapeChar h
      rw [unescapeChar_escapeChar, unescapeChar_escapeChar, Option.some_inj, Prod.mk.injEq] at hread
      obtain ⟨rfl, rfl⟩ := ih hread.2
      exact ⟨by rw [hread.1], rfl⟩

/-- `json.dumps` of a string. -/
def strText (s : String) : List Char := '"' :: s.toList.flatMap escapeChar ++ ['"']

/-- A string's text determines the string and what follows it. -/
theorem strText_append_inj {s t : String} {r r' : List Char}
    (h : strText s ++ r = strText t ++ r') : s = t ∧ r = r' := by
  simp only [strText, List.cons_append, List.append_assoc, List.nil_append, List.cons.injEq,
    true_and] at h
  obtain ⟨hst, hr⟩ := escape_append_inj h
  exact ⟨String.toList_inj.mp hst, hr⟩

/-! ### Documents -/

namespace Json

mutual

/-- The text of a document as it stands. -/
def text (T : FloatText F) : Json F → List Char
  | scalar s => s.text T
  | str s => strText s
  | arr [] => ['[', ']']
  | arr (x :: xs) => '[' :: text T x ++ textTail T xs
  | obj [] => ['{', '}']
  | obj ((k, v) :: fs) => '{' :: strText k ++ ':' :: text T v ++ textFields T fs

/-- The rest of an array. -/
def textTail (T : FloatText F) : List (Json F) → List Char
  | [] => [']']
  | x :: xs => ',' :: text T x ++ textTail T xs

/-- The rest of an object. -/
def textFields (T : FloatText F) : List (String × Json F) → List Char
  | [] => ['}']
  | (k, v) :: fs => ',' :: strText k ++ ':' :: text T v ++ textFields T fs

end

variable (T : FloatText F)

/-- What follows a value in an array is structural. -/
theorem ends_textTail (xs : List (Json F)) (r : List Char) : Ends (textTail T xs ++ r) := by
  cases xs with
  | nil => exact Ends.cons rfl _
  | cons x xs => exact Ends.cons rfl _

/-- What follows a value in an object is structural. -/
theorem ends_textFields (fs : List (String × Json F)) (r : List Char) :
    Ends (textFields T fs ++ r) := by
  cases fs with
  | nil => exact Ends.cons rfl _
  | cons e fs => exact Ends.cons rfl _

/-- A scalar's text starts with no structural character. -/
theorem scalar_text_ne (s : Scalar F) {c : Char} (hc : structural c = true) (r t : List Char) :
    s.text T ++ r ≠ c :: t := by
  intro h
  cases hs : s.text T with
  | nil => exact s.text_ne_nil T hs
  | cons d rest =>
    rw [hs] at h
    have hplain := s.text_plain T d (hs ▸ List.mem_cons_self)
    rw [(List.cons.inj h).1, hc] at hplain
    cases hplain

/-- What a document other than a scalar starts with. -/
def opening : Json F → Option Char
  | scalar _ => none
  | str _ => some '"'
  | arr _ => some '['
  | obj _ => some '{'

/-- A container's text begins with its bracket. -/
theorem text_of_opening {v : Json F} {c : Char} (h : v.opening = some c) :
    structural c = true ∧ ∃ t, text T v = c :: t := by
  match v with
  | str s => cases h; exact ⟨rfl, _, rfl⟩
  | arr [] | arr (x :: xs) => cases h; exact ⟨rfl, _, rfl⟩
  | obj [] | obj ((k, w) :: fs) => cases h; exact ⟨rfl, _, rfl⟩

/-- No document starts with a closing bracket. -/
theorem text_ne_closing (v : Json F) {c : Char} (hc : c = ']' ∨ c = '}') (r t : List Char) :
    text T v ++ r ≠ c :: t := by
  intro h
  cases ho : v.opening with
  | none =>
    cases v with
    | scalar a => exact scalar_text_ne T a (by rcases hc with rfl | rfl <;> rfl) _ _ h
    | str _ | arr _ | obj _ => cases ho
  | some d =>
    obtain ⟨-, t', ht⟩ := text_of_opening T ho
    rw [ht] at h
    obtain rfl : d = c := (List.cons.inj h).1
    cases v with
    | scalar _ => cases ho
    | str _ | arr _ | obj _ => cases ho; revert hc; decide

/-- Documents with one text start the same way. -/
theorem opening_eq {v w : Json F} {r s : List Char} (h : text T v ++ r = text T w ++ s) :
    v.opening = w.opening := by
  cases hv : v.opening with
  | none =>
    cases hw : w.opening with
    | none => rfl
    | some d =>
      obtain ⟨hd, t, ht⟩ := text_of_opening T hw
      cases v with
      | scalar a =>
        rw [ht] at h
        exact absurd h (scalar_text_ne T a hd _ _)
      | str _ | arr _ | obj _ => cases hv
  | some c =>
    obtain ⟨hc, t, ht⟩ := text_of_opening T hv
    cases hw : w.opening with
    | none =>
      cases w with
      | scalar a =>
        rw [ht] at h
        exact absurd h.symm (scalar_text_ne T a hc _ _)
      | str _ | arr _ | obj _ => cases hw
    | some d =>
      obtain ⟨-, t', ht'⟩ := text_of_opening T hw
      rw [ht, ht'] at h
      rw [(List.cons.inj h).1]

mutual

/-- **The text of a document can be read off**: it says which document, and where it ends. -/
theorem text_append_inj : ∀ (v w : Json F) {r s : List Char}, Ends r → Ends s →
    text T v ++ r = text T w ++ s → v = w ∧ r = s
  | scalar a, scalar b, _, _, hr, hs, h => by
    obtain ⟨hab, hrs⟩ := token_append_inj (a.text_plain T) (b.text_plain T) hr hs h
    exact ⟨by rw [a.text_injective T hab], hrs⟩
  | str a, str b, _, _, _, _, h => by
    obtain ⟨rfl, hrs⟩ := strText_append_inj h
    exact ⟨rfl, hrs⟩
  | arr [], arr [], _, _, _, _, h => ⟨rfl, (List.cons.inj (List.cons.inj h).2).2⟩
  | arr [], arr (y :: ys), r, s, _, _, h => by
    have h : ']' :: r = text T y ++ textTail T ys ++ s := (List.cons.inj h).2
    exact absurd (by simpa using h.symm) (text_ne_closing T y (.inl rfl) _ _)
  | arr (x :: xs), arr [], r, s, _, _, h => by
    have h : text T x ++ textTail T xs ++ r = ']' :: s := (List.cons.inj h).2
    exact absurd (by simpa using h) (text_ne_closing T x (.inl rfl) _ _)
  | arr (x :: xs), arr (y :: ys), r, s, _, _, h => by
    have h : text T x ++ (textTail T xs ++ r) = text T y ++ (textTail T ys ++ s) := by
      simpa [text] using h
    obtain ⟨rfl, hxs⟩ := text_append_inj x y (ends_textTail T xs r) (ends_textTail T ys s) h
    obtain ⟨rfl, hrs⟩ := textTail_append_inj xs ys hxs
    exact ⟨rfl, hrs⟩
  | obj [], obj [], _, _, _, _, h => ⟨rfl, (List.cons.inj (List.cons.inj h).2).2⟩
  | obj [], obj ((l, w) :: gs), _, _, _, _, h => by simp [text, strText] at h
  | obj ((k, v) :: fs), obj [], _, _, _, _, h => by simp [text, strText] at h
  | obj ((k, v) :: fs), obj ((l, w) :: gs), r, s, _, _, h => by
    have h : strText k ++ ':' :: (text T v ++ (textFields T fs ++ r))
        = strText l ++ ':' :: (text T w ++ (textFields T gs ++ s)) := by
      simpa [text] using h
    obtain ⟨rfl, hv⟩ := strText_append_inj h
    obtain ⟨rfl, hfs⟩ := text_append_inj v w (ends_textFields T fs r) (ends_textFields T gs s)
      (List.cons.inj hv).2
    obtain ⟨rfl, hrs⟩ := textFields_append_inj fs gs hfs
    exact ⟨rfl, hrs⟩
  | scalar _, str _, _, _, _, _, h | scalar _, arr _, _, _, _, _, h
  | scalar _, obj _, _, _, _, _, h | str _, scalar _, _, _, _, _, h
  | str _, arr _, _, _, _, _, h | str _, obj _, _, _, _, _, h
  | arr _, scalar _, _, _, _, _, h | arr _, str _, _, _, _, _, h
  | arr _, obj _, _, _, _, _, h | obj _, scalar _, _, _, _, _, h
  | obj _, str _, _, _, _, _, h | obj _, arr _, _, _, _, _, h => by
    exact absurd (opening_eq T h) (by simp [opening])

/-- The elements of an array are determined by their text, and so is what follows. -/
theorem textTail_append_inj : ∀ (xs ys : List (Json F)) {r s : List Char},
    textTail T xs ++ r = textTail T ys ++ s → xs = ys ∧ r = s
  | [], [], _, _, h => ⟨rfl, (List.cons.inj h).2⟩
  | [], _ :: _, _, _, h => absurd (List.cons.inj h).1 (by decide)
  | _ :: _, [], _, _, h => absurd (List.cons.inj h).1 (by decide)
  | x :: xs, y :: ys, r, s, h => by
    have h : text T x ++ (textTail T xs ++ r) = text T y ++ (textTail T ys ++ s) := by
      simpa [textTail] using h
    obtain ⟨rfl, hxs⟩ := text_append_inj x y (ends_textTail T xs r) (ends_textTail T ys s) h
    obtain ⟨rfl, hrs⟩ := textTail_append_inj xs ys hxs
    exact ⟨rfl, hrs⟩

/-- The fields of an object are determined by their text, and so is what follows. -/
theorem textFields_append_inj : ∀ (fs gs : List (String × Json F)) {r s : List Char},
    textFields T fs ++ r = textFields T gs ++ s → fs = gs ∧ r = s
  | [], [], _, _, h => ⟨rfl, (List.cons.inj h).2⟩
  | [], _ :: _, _, _, h => absurd (List.cons.inj h).1 (by decide)
  | _ :: _, [], _, _, h => absurd (List.cons.inj h).1 (by decide)
  | (k, v) :: fs, (l, w) :: gs, r, s, h => by
    have h : strText k ++ ':' :: (text T v ++ (textFields T fs ++ r))
        = strText l ++ ':' :: (text T w ++ (textFields T gs ++ s)) := by
      simpa [textFields] using h
    obtain ⟨rfl, hv⟩ := strText_append_inj h
    obtain ⟨rfl, hfs⟩ := text_append_inj v w (ends_textFields T fs r) (ends_textFields T gs s)
      (List.cons.inj hv).2
    obtain ⟨rfl, hrs⟩ := textFields_append_inj fs gs hfs
    exact ⟨rfl, hrs⟩

end

/-! ### Sorted keys -/

/-- Entries in the order of their keys. -/
def byKey {α : Type} (fs : List (String × α)) : List (String × α) :=
  fs.mergeSort fun a b => decide (a.1 ≤ b.1)

/-- Ordering fields by key rearranges them. -/
theorem byKey_perm {α : Type} (fs : List (String × α)) : (byKey fs).Perm fs :=
  List.mergeSort_perm _ _

mutual

/-- The document with the keys of every object sorted: `sort_keys=True`. -/
def sortKeys : Json F → Json F
  | scalar s => scalar s
  | str s => str s
  | arr xs => arr (sortElements xs)
  | obj fs => obj (byKey (sortEntries fs))

/-- Sorts the keys inside every element. -/
def sortElements : List (Json F) → List (Json F)
  | [] => []
  | x :: xs => sortKeys x :: sortElements xs

/-- Sorts the keys inside every entry. -/
def sortEntries : List (String × Json F) → List (String × Json F)
  | [] => []
  | (k, v) :: fs => (k, sortKeys v) :: sortEntries fs

end

theorem sortElements_eq_map (xs : List (Json F)) : sortElements xs = xs.map sortKeys := by
  induction xs with
  | nil => rfl
  | cons x xs ih => rw [sortElements, ih, List.map_cons]

theorem sortEntries_eq_map (fs : List (String × Json F)) :
    sortEntries fs = fs.map fun e => (e.1, sortKeys e.2) := by
  induction fs with
  | nil => rfl
  | cons e fs ih => rw [sortEntries, ih, List.map_cons]

theorem sortKeys_scalar (a : Scalar F) : sortKeys (scalar a) = scalar a := rfl

theorem sortKeys_str (s : String) : sortKeys (str s : Json F) = str s := rfl

theorem sortKeys_arr (xs : List (Json F)) : sortKeys (arr xs) = arr (xs.map sortKeys) :=
  congrArg arr (sortElements_eq_map xs)

theorem sortKeys_obj (fs : List (String × Json F)) :
    sortKeys (obj fs) = obj (byKey (fs.map fun e => (e.1, sortKeys e.2))) :=
  congrArg (fun es => obj (byKey es)) (sortEntries_eq_map fs)

/-- `json.dumps(value, sort_keys=True, separators=(",", ":"), ensure_ascii=True)`. -/
def dumps (v : Json F) : String := String.ofList (text T (sortKeys v))

/-- **The text says everything but the order of keys.** -/
theorem dumps_eq_iff {v w : Json F} : dumps T v = dumps T w ↔ sortKeys v = sortKeys w := by
  refine ⟨fun h => ?_, fun h => by rw [dumps, dumps, h]⟩
  have htext : text T (sortKeys v) ++ [] = text T (sortKeys w) ++ [] := by
    rw [String.ofList_injective h]
  exact (text_append_inj T _ _ Ends.nil Ends.nil htext).1

/-- Sorting keys identifies no two strings. -/
@[simp] theorem sortKeys_str_inj {s t : String} :
    sortKeys (str s : Json F) = sortKeys (str t) ↔ s = t := by
  rw [sortKeys_str, sortKeys_str, str.injEq]

/-- Sorting keys identifies no two scalars. -/
@[simp] theorem sortKeys_scalar_inj {a b : Scalar F} :
    sortKeys (scalar a) = sortKeys (scalar b) ↔ a = b := by
  rw [sortKeys_scalar, sortKeys_scalar, scalar.injEq]

@[simp] theorem sortKeys_str_ne_scalar {s : String} {a : Scalar F} :
    sortKeys (str s) ≠ sortKeys (scalar a) := by
  rw [sortKeys_str, sortKeys_scalar]
  exact fun h => nomatch h

@[simp] theorem sortKeys_scalar_ne_str {s : String} {a : Scalar F} :
    sortKeys (scalar a) ≠ sortKeys (str s) := sortKeys_str_ne_scalar.symm

@[simp] theorem sortKeys_obj_ne_scalar {fs : List (String × Json F)} {a : Scalar F} :
    sortKeys (obj fs) ≠ sortKeys (scalar a) := by
  rw [sortKeys_obj, sortKeys_scalar]
  exact fun h => nomatch h

@[simp] theorem sortKeys_scalar_ne_obj {fs : List (String × Json F)} {a : Scalar F} :
    sortKeys (scalar a) ≠ sortKeys (obj fs) := sortKeys_obj_ne_scalar.symm

/-- Two arrays become one by sorting keys exactly when their elements do. -/
theorem sortKeys_arr_inj {xs ys : List (Json F)} :
    sortKeys (arr xs) = sortKeys (arr ys) ↔ xs.map sortKeys = ys.map sortKeys := by
  rw [sortKeys_arr, sortKeys_arr, arr.injEq]

/-- Objects that are equal but for the order of keys hold, under a key, values that are. -/
theorem sortKeys_obj_entry {fs gs : List (String × Json F)}
    (h : sortKeys (obj fs) = sortKeys (obj gs))
    (hnodup : (gs.map Prod.fst).Nodup) {i j : ℕ} {k : String} {v w : Json F}
    (hv : fs[i]? = some (k, v)) (hw : gs[j]? = some (k, w)) : sortKeys v = sortKeys w := by
  replace hv := List.mem_of_getElem? hv
  replace hw := List.mem_of_getElem? hw
  rw [sortKeys_obj, sortKeys_obj, obj.injEq] at h
  have hgs := byKey_perm (gs.map fun e => (e.1, sortKeys e.2))
  rw [← h] at hgs
  have hperm := (byKey_perm _).symm.trans hgs
  have hmem := (hperm.mem_iff).mp (List.mem_map_of_mem (f := fun e => (e.1, sortKeys e.2)) hv)
  obtain ⟨e, he, heq⟩ := List.mem_map.mp hmem
  obtain ⟨hk, hval⟩ := Prod.mk.inj heq
  obtain rfl : e = (k, w) := List.inj_on_of_nodup_map hnodup he hw hk
  exact hval.symm

end Json

end Haute.Data
