import Mathlib.Data.List.Induction
import Mathlib.Data.Nat.Digits.Defs
import Mathlib.Tactic.Common

/-!
# Decimals

The digits a natural number is written with (`IsDecimal`): ASCII, and no leading zero but of zero.
What such digits stand for is written with them again (`toDigits_ofDigitChars`).
-/

namespace Haute.Data

/-- Digits of a number as its decimal writes them: ASCII, and no leading zero but of zero. -/
def IsDecimal (ds : List Char) : Prop :=
  (∀ c ∈ ds, c.isDigit = true) ∧ ds ≠ [] ∧ (ds.head? = some '0' → ds = ['0'])

theorem ofDigitChars_concat (ds : List Char) (c : Char) :
    Nat.ofDigitChars 10 (ds ++ [c]) 0 = 10 * Nat.ofDigitChars 10 ds 0 + (c.toNat - '0'.toNat) := by
  rw [Nat.ofDigitChars_append, Nat.ofDigitChars_cons, Nat.ofDigitChars_nil]

theorem toNat_of_isDigit {c : Char} (h : c.isDigit = true) : 48 ≤ c.toNat ∧ c.toNat ≤ 57 := by
  simp only [Char.isDigit, Bool.and_eq_true, decide_eq_true_eq, ge_iff_le,
    UInt32.le_iff_toNat_le] at h
  exact h

theorem digitChar_sub {c : Char} (h : c.isDigit = true) :
    Nat.digitChar (c.toNat - '0'.toNat) = c := by
  obtain ⟨hlo, hhi⟩ := toNat_of_isDigit h
  have h0 : '0'.toNat = 48 := rfl
  have hlt : c.toNat - '0'.toNat < 10 := by omega
  have hsub := Nat.toNat_digitChar_sub_48_of_lt_ten hlt
  have hdigit := toNat_of_isDigit (c := Nat.digitChar (c.toNat - '0'.toNat))
    (by rw [Nat.isDigit_digitChar, decide_eq_true hlt])
  exact Char.toNat_inj.mp (by omega)

/-- The decimal of what the digits of a decimal stand for is the decimal. -/
theorem toDigits_ofDigitChars {ds : List Char} (h : IsDecimal ds) :
    Nat.toDigits 10 (Nat.ofDigitChars 10 ds 0) = ds ∧
      (ds.head? ≠ some '0' → 0 < Nat.ofDigitChars 10 ds 0) := by
  induction ds using List.reverseRecOn with
  | nil => exact absurd rfl h.2.1
  | append_singleton ds c ih =>
    obtain ⟨hdigits, -, hzero⟩ := h
    have hc := hdigits c (by simp)
    obtain ⟨hlo, hhi⟩ := toNat_of_isDigit hc
    have h0 : '0'.toNat = 48 := rfl
    rw [ofDigitChars_concat]
    rcases ds with _ | ⟨d, ds⟩
    · rw [Nat.ofDigitChars_nil, Nat.mul_zero, Nat.zero_add, Nat.toDigits_of_lt_base (by omega),
        digitChar_sub hc]
      refine ⟨rfl, fun hne => ?_⟩
      by_contra hle
      have : c = '0' := Char.toNat_inj.mp (by omega)
      exact hne (by rw [this]; rfl)
    · have hd : d ≠ '0' := by
        rintro rfl
        simpa using hzero rfl
      have hds : IsDecimal (d :: ds) := ⟨fun x hx => hdigits x (List.mem_append_left _ hx), by simp,
        fun hhead => absurd (Option.some.inj hhead) hd⟩
      obtain ⟨hdecimal, hpos⟩ := ih hds
      have hpos := hpos fun hhead => hd (Option.some.inj hhead)
      refine ⟨?_, fun _ => by omega⟩
      have hdiv : (10 * Nat.ofDigitChars 10 (d :: ds) 0 + (c.toNat - '0'.toNat)) / 10 =
          Nat.ofDigitChars 10 (d :: ds) 0 := by omega
      have hmod : (10 * Nat.ofDigitChars 10 (d :: ds) 0 + (c.toNat - '0'.toNat)) % 10 =
          c.toNat - '0'.toNat := by omega
      rw [Nat.toDigits_of_base_le (by omega) (by omega), hdiv, hmod, hdecimal, digitChar_sub hc]

theorem isDecimal_toDigits (n : ℕ) : IsDecimal (Nat.toDigits 10 n) := by
  refine ⟨fun c hc => Nat.isDigit_of_mem_toDigits (by omega) (by omega) hc, Nat.toDigits_ne_nil, ?_⟩
  induction n using Nat.strongRecOn with
  | ind n ih =>
    intro hhead
    by_cases hn : n < 10
    · rw [Nat.toDigits_of_lt_base hn] at hhead ⊢
      exact congrArg (fun c => [c]) (Option.some.inj hhead)
    · rw [Nat.toDigits_of_base_le (by omega) (by omega)] at hhead
      rw [List.head?_append, Option.or_of_isSome (by simp [Nat.toDigits_ne_nil])] at hhead
      have hzero := ih (n / 10) (by omega) hhead
      have hvalue := congrArg (fun ds => Nat.ofDigitChars 10 ds 0) hzero
      simp only [Nat.ofDigitChars_ten_toDigits] at hvalue
      have : Nat.ofDigitChars 10 ['0'] 0 = 0 := rfl
      omega

end Haute.Data
