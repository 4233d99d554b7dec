import DynamicUi.Decimal.Reading
import DynamicUi.Proofs.Decimal.Value

/-! # Decimals are read to the nearest value

Digits with up to twenty-two of them behind the point stand for a quotient by a power of ten, and
what is read is the binary value that is nearest to it. Powers of ten up to this one are themselves
such values, so for short digits a single division does it.
-/

namespace DynamicUi.Decimal

open Float.Model Float.Model.UnpackedFloat

variable {x : Float} {a : ℚ}

theorem hasValue_of_bits (hfinite : isFinite x = true) (hsign : isNegative x = false) :
    HasValue x.toModel.unpack (Binary.ofFloat x).value := by
  have hu := unpacks x
  generalize x.toModel.unpack = u at hu
  cases hu with
  | notANumber h | infinity _ h => exact absurd (hfinite.symm.trans h) (by decide)
  | zero s _ hsignificand =>
    rw [Binary.value, hsignificand, Nat.cast_zero, zero_mul]
    exact .zero s
  | finite s hm _ hs hsignificand hexponent h =>
    cases s with
    | positive =>
      rw [Binary.value, hsignificand, hexponent]
      exact .finite hm h
    | negative => exact absurd (hs.mpr rfl) (Bool.eq_false_iff.mp hsign)

theorem powersOfTen_bits : ∀ k : Fin Float.exactlyRepresentablePowersOfTen.size,
    let x := Float.exactlyRepresentablePowersOfTen[k.val]
    isFinite x = true ∧ isNegative x = false ∧
      (Binary.ofFloat x).numerator = 10 ^ k.val * (Binary.ofFloat x).denominator := by
  decide

theorem powersOfTen_hasValue {k : ℕ} (hk : k < Float.exactlyRepresentablePowersOfTen.size) :
    HasValue Float.exactlyRepresentablePowersOfTen[k].toModel.unpack (10 ^ k) := by
  obtain ⟨hfinite, hsign, hnumerator⟩ := powersOfTen_bits ⟨k, hk⟩
  have hpos : (Binary.ofFloat Float.exactlyRepresentablePowersOfTen[k]).denominator ≠ 0 :=
    (Nat.two_pow_pos _).ne'
  have hvalue := hasValue_of_bits hfinite hsign
  rw [Binary.value_eq_div, hnumerator, Nat.cast_mul, Nat.cast_pow,
    mul_div_cancel_right₀ _ (by exact_mod_cast hpos)] at hvalue
  exact hvalue

theorem toFloat_hasValue {m : ℕ} (hm : 0 < m) (hlt : m < 2 ^ 53) :
    HasValue m.toUInt64.toFloat.toModel.unpack m := by
  have htoNat : m.toUInt64.toNat = m := by
    show m % 2 ^ 64 = m
    omega
  have hround : HasValue (UnpackedFloat.ofUInt64 .binary64 m.toUInt64) m := by
    have hrounded := round_hasValue hm 0
    rw [← normalize_natCast hm 0 .positive, nearest_of_digits hlt (by norm_num), zpow_zero,
      mul_one] at hrounded
    rw [UnpackedFloat.ofUInt64, htoNat]
    exact hrounded
  have hsmall : (m : ℚ) < 2 ^ (53 : ℤ) := by exact_mod_cast hlt
  exact (holds_pack hround).hasValue
    (hsmall.trans (zpow_lt_zpow_right₀ one_lt_two (by norm_num)))

theorem ofScientific_hasValue {m k : ℕ} (hm : 0 < m) (hk : k ≤ 22) :
    HasValue (UnpackedFloat.ofScientific .binary64 m (-k)) (nearest (m / 10 ^ k)) := by
  have hpower : 0 < 10 ^ (-(-k : ℤ)).toNat := by positivity
  have hlarge : ¬(-k : ℤ) > 2 ^ Format.binary64.exponentBits := by
    have : (0 : ℤ) < 2 ^ Format.binary64.exponentBits := by positivity
    omega
  have hleast : ¬(-k : ℤ) < -(2 ^ Format.binary64.exponentBits + m.log2) := by
    have : (2 ^ Format.binary64.exponentBits : ℤ) = 2048 := by decide
    omega
  unfold UnpackedFloat.ofScientific
  rw [dif_neg hm.ne', if_neg hlarge, if_neg hleast]
  by_cases hwhole : (-k : ℤ) ≥ 0
  · rw [if_pos hwhole]
    obtain rfl : k = 0 := by omega
    have hshift : m <<< 53 = m * 2 ^ 53 := Nat.shiftLeft_eq m 53
    have hfull : 2 ^ 52 ≤ m <<< 53 * 10 ^ (-(-(0 : ℕ) : ℤ)).toNat := by
      rw [hshift]
      norm_num
      omega
    have hproduct := mul_hasValue (-53) 0 (by omega : 0 < m <<< 53) hpower hfull
    have hvalue : ((m <<< 53 : ℕ) * 2 ^ (-53 : ℤ) *
        ((10 ^ (-(-(0 : ℕ) : ℤ)).toNat : ℕ) * 2 ^ (0 : ℤ)) : ℚ) = m / 10 ^ 0 := by
      rw [hshift]
      push_cast
      norm_num
      ring
    rw [hvalue] at hproduct
    exact hproduct
  · rw [if_neg hwhole]
    have hquotient := div_hasValue 0 0 hm hpower
    have hvalue : (m * 2 ^ (0 : ℤ) / ((10 ^ (-(-k : ℤ)).toNat : ℕ) * 2 ^ (0 : ℤ)) : ℚ) =
        m / 10 ^ k := by
      simp
    rw [hvalue] at hquotient
    exact hquotient

theorem holds_ofScientific {m k : ℕ} (hm : 0 < m) (hk : k ≤ 22) :
    Holds (Float.ofScientific m (decide (-(k : ℤ) < 0)) k) (nearest (m / 10 ^ k)) := by
  by_cases hshort : m < 2 ^ 53
  · have hdigits := toFloat_hasValue hm hshort
    rw [Float.ofScientific, dif_pos ⟨hshort, hk⟩]
    rcases k.eq_zero_or_pos with rfl | hpos
    · have hproduct := holds_mul hdigits (powersOfTen_hasValue (by decide : 0 < 23))
        (by exact_mod_cast hm) (by positivity)
      rw [pow_zero, mul_one] at hproduct
      rw [pow_zero, div_one]
      exact hproduct
    · have hnegative : decide (-(k : ℤ) < 0) = true := decide_eq_true (by omega)
      simp only [hnegative, if_true]
      exact holds_div hdigits (powersOfTen_hasValue _) (by positivity)
  · have hexponent :
        (if decide (-(k : ℤ) < 0) = true then Int.negOfNat k else Int.ofNat k) = -k := by
      rw [Int.negOfNat_eq]
      split_ifs with h
      · rfl
      · rw [decide_eq_true_iff] at h
        show (k : ℤ) = -k
        omega
    rw [Float.ofScientific, dif_neg fun h => hshort h.1]
    simp only [hexponent]
    exact holds_pack (ofScientific_hasValue hm hk)

theorem greatest_le_pow : (2 ^ (1024 : ℤ) : ℚ) ≤ 10 ^ 400 :=
  calc (2 ^ (1024 : ℤ) : ℚ) ≤ 2 ^ (1200 : ℤ) := zpow_le_zpow_right₀ one_le_two (by norm_num)
    _ = (2 ^ 3) ^ 400 := by rw [← pow_mul]; exact zpow_natCast 2 1200
    _ ≤ 10 ^ 400 := pow_le_pow_left₀ (by norm_num) (by norm_num) 400

/-- The nearest value is read, and infinity where it is too large. -/
theorem holds_read (m : ℕ) {k : ℕ} (hk : k ≤ 22) : Holds (read m (-k)) (nearest (m / 10 ^ k)) := by
  have hlength := Nat.length_toDigits_pos (b := 10) (n := m)
  have hleast : ¬(-k + (Nat.toDigits 10 m).length : ℤ) < -400 := by omega
  rcases m.eq_zero_or_pos with rfl | hm
  · have hzero : read 0 (-k) = 0 := by simp [read]
    rw [Nat.cast_zero, zero_div, nearest_zero, hzero]
    exact .inl (.zero .positive)
  simp only [read, hm.ne', decide_false, hleast, Bool.or_false, Bool.false_eq_true, if_false]
  split
  · next hlarge =>
    have hdigits : 10 ^ (k + 400) ≤ m := by
      by_contra hlt
      have := (Nat.length_toDigits_le_iff (by decide) (by positivity)).mpr (not_le.mp hlt)
      omega
    have hquotient : (10 ^ 400 : ℚ) ≤ m / 10 ^ k := by
      rw [le_div_iff₀ (by positivity), ← pow_add, add_comm]
      exact_mod_cast hdigits
    refine .inr ⟨rfl, ?_⟩
    calc (2 ^ (1024 : ℤ) : ℚ) = nearest (2 ^ (1024 : ℤ)) := (nearest_zpow (by norm_num)).symm
      _ ≤ nearest (m / 10 ^ k) :=
        nearest_mono (by positivity) (greatest_le_pow.trans hquotient)
  · rw [Int.natAbs_neg, Int.natAbs_natCast]
    exact holds_ofScientific hm hk

end DynamicUi.Decimal
