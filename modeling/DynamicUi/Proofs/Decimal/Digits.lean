import DynamicUi.Decimal.Reading
import DynamicUi.Decimal.Writing
import DynamicUi.Proofs.Decimal.Rounding

/-! # Digits around a point

A number written with a point before its last places has the digits of its whole part, then as many
digits as there are places. Read without the point, the digits give the number again.
-/

namespace DynamicUi.Decimal

open Float.Model.UnpackedFloat

theorem roundDiv_eq (num : ℕ) {den : ℕ} (hden : 0 < den) :
    (roundDiv num den : ℤ) = roundEven (num / den) := by
  have hrounded : roundDiv num den = ExtendedMantissa.roundedMantissa
      (.ofMantissaAndAccuracy (num / den) (accuracyOfFraction (num % den) den)) := by
    simp only [roundDiv, accuracyOfFraction]
    by_cases hzero : num % den = 0
    · rw [if_pos hzero, hzero, compare_lt_iff_lt.mpr (by omega : 2 * 0 < den)]
      rfl
    · rw [if_neg hzero]
      cases compare (2 * (num % den)) den with
      | lt | gt => rfl
      | eq =>
        show (if num / den % 2 = 0 then num / den else num / den + 1) =
          num / den + num / den % 2
        split <;> omega
  rw [hrounded, (Describes.quotient num hden).roundedMantissa]

/-! ## Digits and their value -/

theorem digitsValue_concat (cs : List Char) (c : Char) :
    digitsValue (cs ++ [c]) = 10 * digitsValue cs + digitValue c := by
  simp [digitsValue]

theorem digitsValue_toDigits (n : ℕ) : digitsValue (Nat.toDigits 10 n) = n :=
  Nat.ofDigitChars_ten_toDigits

theorem digitValue_digitChar {d : ℕ} (h : d < 10) : digitValue (Nat.digitChar d) = d := by
  revert d
  decide

theorem digitsValue_append_zeros (cs : List Char) (k : ℕ) :
    digitsValue (cs ++ List.replicate k '0') = digitsValue cs * 10 ^ k := by
  induction k with
  | zero => simp
  | succ k ih =>
    rw [List.replicate_succ', ← List.append_assoc, digitsValue_concat, ih, pow_succ]
    show 10 * (digitsValue cs * 10 ^ k) + 0 = _
    ring

/-! ## Places -/

def lastDigits : ℕ → ℕ → List Char
  | 0, _ => []
  | places + 1, n => lastDigits places (n / 10) ++ [Nat.digitChar (n % 10)]

theorem length_lastDigits (places n : ℕ) : (lastDigits places n).length = places := by
  induction places generalizing n with
  | zero => rfl
  | succ places ih => rw [lastDigits, List.length_append, ih, List.length_singleton]

theorem isDigit_of_mem_lastDigits {places n : ℕ} {c : Char} (h : c ∈ lastDigits places n) :
    c.isDigit = true := by
  induction places generalizing n with
  | zero => cases h
  | succ places ih =>
    rcases List.mem_append.mp h with h | h
    · exact ih h
    · rw [List.mem_singleton.mp h, Nat.isDigit_digitChar, decide_eq_true_iff]
      omega

theorem lastDigits_mul_pow (places n : ℕ) :
    lastDigits places (n * 10 ^ places) = List.replicate places '0' := by
  induction places with
  | zero => rfl
  | succ places ih =>
    have hdiv : n * 10 ^ (places + 1) / 10 = n * 10 ^ places := by
      rw [pow_succ, ← mul_assoc, Nat.mul_div_cancel _ (by decide)]
    have hmod : n * 10 ^ (places + 1) % 10 = 0 := by
      rw [pow_succ, ← mul_assoc, Nat.mul_mod_left]
    rw [lastDigits, hdiv, hmod, ih, List.replicate_succ']
    rfl

theorem digitsValue_lastDigits (places n : ℕ) :
    digitsValue (Nat.toDigits 10 (n / 10 ^ places) ++ lastDigits places n) = n := by
  induction places generalizing n with
  | zero => simpa [lastDigits] using digitsValue_toDigits n
  | succ places ih =>
    have hmod := digitValue_digitChar (Nat.mod_lt n (by decide : 0 < 10))
    rw [lastDigits, ← List.append_assoc, digitsValue_concat, hmod, pow_succ',
      ← Nat.div_div_eq_div_mul, ih]
    omega

/-- With zeros before it for want of digits, a number has those of its whole part and its places. -/
theorem padded_eq (places n : ℕ) :
    List.replicate (places + 1 - (Nat.toDigits 10 n).length) '0' ++ Nat.toDigits 10 n =
      Nat.toDigits 10 (n / 10 ^ places) ++ lastDigits places n := by
  induction places generalizing n with
  | zero =>
    have hlength : 0 < (Nat.toDigits 10 n).length := Nat.length_toDigits_pos
    have hnone : 0 + 1 - (Nat.toDigits 10 n).length = 0 := by omega
    simp [hnone, lastDigits]
  | succ places ih =>
    rw [lastDigits, ← List.append_assoc, pow_succ', ← Nat.div_div_eq_div_mul, ← ih (n / 10)]
    by_cases hlt : n < 10
    · have hdiv : n / 10 = 0 := Nat.div_eq_of_lt hlt
      rw [hdiv, Nat.toDigits_of_lt_base hlt, Nat.mod_eq_of_lt hlt, Nat.toDigits_zero]
      simp only [List.length_singleton, Nat.add_sub_cancel]
      rw [← List.replicate_succ']
    · rw [Nat.toDigits_of_base_le (by decide) (not_lt.mp hlt), List.length_append,
        List.length_singleton, Nat.add_sub_add_right, List.append_assoc]

theorem placePoint_eq (n places : ℕ) : placePoint n places =
    Nat.toDigits 10 (n / 10 ^ places) ++ '.' :: lastDigits places n := by
  simp only [placePoint, digitsText, padded_eq]
  have hlength : (Nat.toDigits 10 (n / 10 ^ places) ++ lastDigits places n).length - places =
      (Nat.toDigits 10 (n / 10 ^ places)).length := by
    rw [List.length_append, length_lastDigits, Nat.add_sub_cancel]
  rw [hlength, List.take_left, List.drop_left]

end DynamicUi.Decimal
