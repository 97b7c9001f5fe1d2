import Mathlib.Tactic.IntervalCases
import Haute.Data.CodePoints

/-!
# Percent-encoded texts

`quote` writes a text with every byte of its UTF-8 that is not a letter, a digit or one of
`_.-~` as `%` and two hexadecimal digits; it fails on a text that has no UTF-8. `unquote` reads
such escapes in a text's ASCII stretches and leaves the rest. What was quoted is read back
(`unquote_quote`), so quoting is injective, and a quoted text has none of the reserved
characters in it (`unreserved_or_percent_of_mem_quote`).
-/

namespace Haute.Data

/-- The bytes that `quote` leaves as they are. -/
def unreserved (b : ℕ) : Bool :=
  (0x30 ≤ b && b ≤ 0x39) || (0x41 ≤ b && b ≤ 0x5A) || (0x61 ≤ b && b ≤ 0x7A) ||
    b == 0x5F || b == 0x2E || b == 0x2D || b == 0x7E

/-- The sign an escape begins with. -/
def percent : CodePoint := .ofChar '%'

/-- The upper-case hexadecimal digit of a number below sixteen. -/
def hexDigit (n : ℕ) : CodePoint := .of (if n < 10 then 0x30 + n else 0x37 + n)

/-- What a hexadecimal digit of either case stands for. -/
def hexDigitValue (c : CodePoint) : Option ℕ :=
  if 0x30 ≤ c.val ∧ c.val ≤ 0x39 then some (c.val - 0x30)
  else if 0x41 ≤ c.val ∧ c.val ≤ 0x46 then some (c.val - 0x37)
  else if 0x61 ≤ c.val ∧ c.val ≤ 0x66 then some (c.val - 0x57)
  else none

theorem val_hexDigit {n : ℕ} (h : n < 16) :
    (hexDigit n).val = if n < 10 then 0x30 + n else 0x37 + n := by
  unfold hexDigit
  rw [CodePoint.val_of]
  split_ifs <;> omega

theorem hexDigitValue_hexDigit {n : ℕ} (h : n < 16) : hexDigitValue (hexDigit n) = some n := by
  unfold hexDigitValue
  rw [val_hexDigit h]
  by_cases hn : n < 10
  · rw [if_pos hn, if_pos (by omega), Nat.add_sub_cancel_left]
  · rw [if_neg hn, if_neg (by omega), if_pos (by omega), Nat.add_sub_cancel_left]

theorem val_percent : percent.val = 0x25 := by decide

/-! ### Quoting -/

/-- A byte, escaped unless it is unreserved. -/
def quoteByte (b : ℕ) : CodeText :=
  if unreserved b then [.of b] else [percent, hexDigit (b / 16), hexDigit (b % 16)]

/-- A text percent-encoded, with no character that is safe but the unreserved. -/
def quote (s : CodeText) : Option CodeText := (encode s).map fun bs => bs.flatMap quoteByte

theorem unreserved_hexDigit {n : ℕ} (h : n < 16) : unreserved (hexDigit n).val = true := by
  rw [val_hexDigit h]
  unfold unreserved
  interval_cases n <;> rfl

theorem lt_of_unreserved {b : ℕ} (h : unreserved b = true) : b < 0x80 ∧ b ≠ 0x25 := by
  simp only [unreserved, Bool.or_eq_true, Bool.and_eq_true, decide_eq_true_eq, beq_iff_eq] at h
  omega

theorem of_mem_quoteByte {b : ℕ} (hb : b < 0x100) {c : CodePoint} (h : c ∈ quoteByte b) :
    unreserved c.val = true ∨ c = percent := by
  unfold quoteByte at h
  split_ifs at h with hu
  · rw [List.mem_singleton] at h
    subst h
    rw [CodePoint.val_of (by have := lt_of_unreserved hu; omega)]
    exact .inl hu
  · simp only [List.mem_cons, List.not_mem_nil, or_false] at h
    rcases h with rfl | rfl | rfl
    · exact .inr rfl
    · exact .inl (unreserved_hexDigit (by omega))
    · exact .inl (unreserved_hexDigit (by omega))

/-- Nothing stands in a quoted text but unreserved characters and the signs of its escapes. -/
theorem unreserved_or_percent_of_mem_quote {s q : CodeText} (h : quote s = some q) {c : CodePoint}
    (hc : c ∈ q) : unreserved c.val = true ∨ c = percent := by
  simp only [quote, Option.map_eq_some_iff] at h
  obtain ⟨bs, hbs, rfl⟩ := h
  obtain ⟨b, hb, hc⟩ := List.mem_flatMap.mp hc
  exact of_mem_quoteByte (lt_of_mem_encode hbs hb) hc

theorem ascii_of_mem_quote {s q : CodeText} (h : quote s = some q) {c : CodePoint} (hc : c ∈ q) :
    c.ascii = true := by
  unfold CodePoint.ascii
  rw [decide_eq_true_eq]
  rcases unreserved_or_percent_of_mem_quote h hc with hu | rfl
  · exact (lt_of_unreserved hu).1
  · rw [val_percent]; omega

/-! ### Unquoting -/

/-- The bytes of an ASCII stretch, each escape read as the byte it stands for. -/
def unquoteToBytes : CodeText → List ℕ
  | [] => []
  | [c] => [c.val]
  | [c, d] => [c.val, d.val]
  | c :: h :: l :: rest =>
    match if c = percent then
        (hexDigitValue h).bind fun m => (hexDigitValue l).map fun n => 16 * m + n
      else none with
    | some b => b :: unquoteToBytes rest
    | none => c.val :: unquoteToBytes (h :: l :: rest)

/-- A text with the escapes of its ASCII stretches read, each stretch decoded on its own. -/
def unquote (s : CodeText) : CodeText :=
  if percent ∈ s then
    (s.splitBy fun c d => c.ascii == d.ascii).flatMap fun stretch =>
      if stretch.all CodePoint.ascii then decodeReplace (unquoteToBytes stretch) else stretch
  else s

theorem unquoteToBytes_cons_ne {c : CodePoint} (h : c ≠ percent) (s : CodeText) :
    unquoteToBytes (c :: s) = c.val :: unquoteToBytes s := by
  rcases s with _ | ⟨d, _ | ⟨e, s⟩⟩
  · rfl
  · rfl
  · rw [unquoteToBytes, if_neg h]

theorem unquoteToBytes_escape {m n : ℕ} (hm : m < 16) (hn : n < 16) (s : CodeText) :
    unquoteToBytes (percent :: hexDigit m :: hexDigit n :: s) =
      (16 * m + n) :: unquoteToBytes s := by
  rw [unquoteToBytes, if_pos rfl, hexDigitValue_hexDigit hm, hexDigitValue_hexDigit hn]
  rfl

/-- A quoted byte is read as the byte, whatever follows it. -/
theorem unquoteToBytes_quoteByte {b : ℕ} (hb : b < 0x100) (s : CodeText) :
    unquoteToBytes (quoteByte b ++ s) = b :: unquoteToBytes s := by
  unfold quoteByte
  split_ifs with hu
  · have hlt := lt_of_unreserved hu
    have hval : (CodePoint.of b).val = b := CodePoint.val_of (by omega)
    rw [List.singleton_append, unquoteToBytes_cons_ne, hval]
    intro h
    rw [h, val_percent] at hval
    exact hlt.2 hval.symm
  · rw [List.cons_append, List.cons_append, List.singleton_append,
      unquoteToBytes_escape (by omega) (by omega), Nat.div_add_mod]

theorem unquoteToBytes_flatMap {bs : List ℕ} (h : ∀ b ∈ bs, b < 0x100) :
    unquoteToBytes (bs.flatMap quoteByte) = bs := by
  induction bs with
  | nil => rfl
  | cons b bs ih =>
    rw [List.flatMap_cons, unquoteToBytes_quoteByte (h b List.mem_cons_self),
      ih fun b' hb' => h b' (List.mem_cons_of_mem _ hb')]

/-- The ASCII stretches of an ASCII text are the text. -/
theorem splitBy_ascii {s : CodeText} (hs : s ≠ []) (h : ∀ c ∈ s, c.ascii = true) :
    s.splitBy (fun c d => c.ascii == d.ascii) = [s] := by
  refine List.splitBy_of_isChain hs ?_
  clear hs
  induction s with
  | nil => exact List.IsChain.nil
  | cons c s ih =>
    refine List.IsChain.cons (ih fun d hd => h d (List.mem_cons_of_mem _ hd)) fun d hd => ?_
    rw [h c List.mem_cons_self, h d (List.mem_cons_of_mem _ (List.mem_of_mem_head? hd))]
    rfl

/-- An ASCII text with no escapes spells itself. -/
theorem decodeReplace_unquoteToBytes_of_notMem {s : CodeText} (h : ∀ c ∈ s, c.ascii = true)
    (hp : percent ∉ s) : decodeReplace (unquoteToBytes s) = s := by
  induction s with
  | nil => exact decodeReplace_nil
  | cons c s ih =>
    have hc : c.val < 0x80 := of_decide_eq_true (h c List.mem_cons_self)
    rw [unquoteToBytes_cons_ne fun e => hp (e ▸ List.mem_cons_self), decodeReplace_cons_ascii hc,
      CodePoint.of_val, ih (fun d hd => h d (List.mem_cons_of_mem _ hd))
        fun hm => hp (List.mem_cons_of_mem _ hm)]

/-- On an ASCII text, `unquote` reads the escapes and decodes what they spell. -/
theorem unquote_of_ascii {s : CodeText} (h : ∀ c ∈ s, c.ascii = true) :
    unquote s = decodeReplace (unquoteToBytes s) := by
  unfold unquote
  split_ifs with hp
  · rw [splitBy_ascii (List.ne_nil_of_mem hp) h, List.flatMap_singleton,
      if_pos (List.all_eq_true.mpr h)]
  · exact (decodeReplace_unquoteToBytes_of_notMem h hp).symm

/-- What was quoted is read back. -/
theorem unquote_quote {s q : CodeText} (h : quote s = some q) : unquote q = s := by
  rw [unquote_of_ascii fun c hc => ascii_of_mem_quote h hc]
  simp only [quote, Option.map_eq_some_iff] at h
  obtain ⟨bs, hbs, rfl⟩ := h
  rw [unquoteToBytes_flatMap fun b hb => lt_of_mem_encode hbs hb, decodeReplace_encode hbs]

theorem quote_ne_nil {s q : CodeText} (h : quote s = some q) (hs : s ≠ []) : q ≠ [] := by
  rintro rfl
  refine hs ((unquote_quote h).symm.trans ?_)
  rw [unquote_of_ascii (by simp), unquoteToBytes, decodeReplace_nil]

end Haute.Data
