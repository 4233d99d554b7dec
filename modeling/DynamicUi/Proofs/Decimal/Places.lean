import DynamicUi.Proofs.Decimal.Rounding

/-! # Ten places

A value with 53 binary digits is rounded to ten decimal places, and what comes out is rounded to the
nearest such value. The ten places of that are again the same: where binary values lie closer than
the places, the second rounding moves by less than half a place, and where they lie further apart,
it leads back to the first value.
-/

namespace DynamicUi.Decimal

/-! ## How far rounding moves -/

theorem abs_roundEven_sub_le (q : ℚ) : |(roundEven q : ℚ) - q| ≤ 1 / 2 := by
  have hl := Int.floor_le q
  have hu := Int.lt_floor_add_one q
  unfold roundEven
  rw [abs_le]
  split_ifs with hlt hgt
  · constructor <;> linarith
  · push_cast
    constructor <;> linarith
  · have hparity : ⌊q⌋ % 2 = 0 ∨ ⌊q⌋ % 2 = 1 := by omega
    rcases hparity with h | h <;> rw [h] <;> push_cast <;> constructor <;> linarith

theorem roundEven_eq {q : ℚ} {n : ℤ} (h : |q - n| < 1 / 2) : roundEven q = n := by
  have hround := abs_roundEven_sub_le q
  rw [abs_le] at hround
  rw [abs_lt] at h
  have hlt : (roundEven q : ℚ) < n + 1 := by linarith
  have hgt : (n : ℚ) < roundEven q + 1 := by linarith
  have hlt : roundEven q < n + 1 := by exact_mod_cast hlt
  have hgt : n < roundEven q + 1 := by exact_mod_cast hgt
  omega

theorem abs_nearest_sub_le (x : ℚ) : |nearest x - x| ≤ 2 ^ place x / 2 := by
  have hpow : (0 : ℚ) < 2 ^ place x := by positivity
  have hscaled : nearest x - x =
      (roundEven (x / 2 ^ place x) - x / 2 ^ place x) * 2 ^ place x := by
    rw [sub_mul, div_mul_cancel₀ _ hpow.ne', nearest]
  rw [hscaled, abs_mul, abs_of_pos hpow]
  calc |(roundEven (x / 2 ^ place x) : ℚ) - x / 2 ^ place x| * 2 ^ place x
      ≤ 1 / 2 * 2 ^ place x :=
        mul_le_mul_of_nonneg_right (abs_roundEven_sub_le _) hpow.le
    _ = 2 ^ place x / 2 := by ring

/-! ## Rounding to ten places -/

/-- The value in units of the tenth place. -/
def tenths (a : ℚ) : ℤ := roundEven (a * 10 ^ 10)

theorem abs_tenths_sub_le (a : ℚ) : |(tenths a : ℚ) / 10 ^ 10 - a| ≤ 1 / 2 / 10 ^ 10 := by
  have hscaled : (tenths a : ℚ) / 10 ^ 10 - a =
      (roundEven (a * 10 ^ 10) - a * 10 ^ 10) / 10 ^ 10 := by
    rw [sub_div, mul_div_cancel_right₀ _ (by norm_num)]
    rfl
  rw [hscaled, abs_div, abs_of_pos (by norm_num : (0 : ℚ) < 10 ^ 10)]
  exact div_le_div_of_nonneg_right (abs_roundEven_sub_le _) (by norm_num)

theorem tenths_mono {a b : ℚ} (h : a ≤ b) : tenths a ≤ tenths b :=
  roundEven_mono (mul_le_mul_of_nonneg_right h (by positivity))

theorem tenths_intCast_div (n : ℤ) : tenths (n / 10 ^ 10) = n := by
  rw [tenths, div_mul_cancel₀ _ (by positivity), roundEven_intCast]

theorem tenths_intCast (n : ℤ) : tenths n = n * 10 ^ 10 := by
  rw [tenths, ← roundEven_intCast (n * 10 ^ 10)]
  push_cast
  rfl

theorem tenths_nonneg {a : ℚ} (h : 0 ≤ a) : 0 ≤ tenths a := by
  have hmono := tenths_mono h
  rwa [← Int.cast_zero, tenths_intCast, zero_mul] at hmono

variable {a : ℚ}

theorem tenths_eq_zero_iff (h : 0 ≤ a) : tenths a = 0 ↔ a ≤ 1 / 2 / 10 ^ 10 := by
  constructor
  · intro hzero
    have hmoved := abs_tenths_sub_le a
    rwa [hzero, Int.cast_zero, zero_div, zero_sub, abs_neg, abs_of_nonneg h] at hmoved
  · intro hle
    have hhalf : tenths (1 / 2 / 10 ^ 10) = 0 := by
      rw [tenths, div_mul_cancel₀ _ (by norm_num)]
      decide +kernel
    exact le_antisymm (hhalf ▸ tenths_mono hle) (tenths_nonneg h)

theorem exists_eq_mul_place (h : nearest a = a) : ∃ k : ℤ, a = k * 2 ^ place a :=
  ⟨_, h.symm⟩

/-- Where the places of the decimal are the wider ones, rounding leads back to the value, unless the
decimal is a power of two above it. -/
theorem nearest_of_wide {q : ℚ} (ha : nearest a = a) (hnear : |q - a| < 2 ^ place q / 2)
    (hplace : place q ≤ place a) : nearest q = a := by
  obtain ⟨k, hk⟩ := exists_eq_mul_place ha
  obtain ⟨j, hj⟩ : ∃ j : ℕ, place a = j + place q := ⟨(place a - place q).toNat, by omega⟩
  have hpow : (0 : ℚ) < 2 ^ place q := by positivity
  have hunits : a = ((k * 2 ^ j : ℤ) : ℚ) * 2 ^ place q := by
    nth_rewrite 1 [hk]
    rw [hj, zpow_add₀ two_ne_zero, zpow_natCast]
    push_cast
    ring
  have hround : roundEven (q / 2 ^ place q) = k * 2 ^ j := by
    apply roundEven_eq
    have hscaled : q / 2 ^ place q - ((k * 2 ^ j : ℤ) : ℚ) = (q - a) / 2 ^ place q := by
      rw [sub_div, hunits, mul_div_cancel_right₀ _ hpow.ne']
    rw [hscaled, abs_div, abs_of_pos hpow, div_lt_iff₀ hpow]
    linarith
  rw [nearest, hround, ← hunits]

/-- Below `2 ^ 19` binary values lie closer than the places, so the nearest one does not leave the
place that it is sought for. -/
theorem tenths_nearest_of_close {n : ℤ} (h : place (n / 10 ^ 10) ≤ -34) :
    tenths (nearest (n / 10 ^ 10)) = n := by
  apply roundEven_eq
  have hscaled : nearest (n / 10 ^ 10) * 10 ^ 10 - n =
      (nearest (n / 10 ^ 10) - n / 10 ^ 10) * 10 ^ 10 := by
    rw [sub_mul, div_mul_cancel₀ _ (by norm_num)]
  have hpow : (2 : ℚ) ^ place (n / 10 ^ 10) ≤ 2 ^ (-34 : ℤ) := zpow_le_zpow_right₀ one_le_two h
  rw [hscaled, abs_mul, abs_of_pos (by norm_num : (0 : ℚ) < 10 ^ 10)]
  calc |nearest (n / 10 ^ 10) - n / 10 ^ 10| * 10 ^ 10
      ≤ 2 ^ (-34 : ℤ) / 2 * 10 ^ 10 := by
        apply mul_le_mul_of_nonneg_right _ (by norm_num)
        exact (abs_nearest_sub_le _).trans (div_le_div_of_nonneg_right hpow two_pos.le)
    _ < 1 / 2 := by norm_num

theorem lt_pow_of_place_lt {k : ℕ} (hnonneg : 0 ≤ a) (h : place a < k - 52) : a < 2 ^ k := by
  rcases hnonneg.eq_or_lt with rfl | hpos
  · positivity
  · rw [← zpow_natCast]
    apply (Int.lt_zpow_iff_log_lt one_lt_two hpos).mpr
    unfold place at h
    omega

theorem tenths_div_le_pow {k : ℕ} (h : a ≤ 2 ^ k) : (tenths a : ℚ) / 10 ^ 10 ≤ 2 ^ k := by
  have hmono := tenths_mono h
  rw [← Nat.cast_ofNat, ← Nat.cast_pow, ← Int.cast_natCast, tenths_intCast] at hmono
  rw [div_le_iff₀ (by norm_num)]
  exact_mod_cast hmono

/-- Rounded to ten places, then to the nearest binary value, a binary value keeps its places. -/
theorem tenths_nearest_tenths (hnonneg : 0 ≤ a) (ha : nearest a = a) :
    tenths (nearest (tenths a / 10 ^ 10)) = tenths a := by
  set q : ℚ := tenths a / 10 ^ 10 with hq
  by_cases hclose : place q ≤ -34
  · exact tenths_nearest_of_close hclose
  have hlog : place q = Int.log 2 q - 52 := by unfold place at hclose ⊢; omega
  by_cases hplace : place q ≤ place a
  · -- half of the binary place is more than half of the decimal one
    have hpow : (2 : ℚ) ^ (-33 : ℤ) ≤ 2 ^ place q := zpow_le_zpow_right₀ one_le_two (by omega)
    have hnear : |q - a| < 2 ^ place q / 2 :=
      calc |q - a| ≤ 1 / 2 / 10 ^ 10 := abs_tenths_sub_le a
        _ < 2 ^ (-33 : ℤ) / 2 := by norm_num
        _ ≤ 2 ^ place q / 2 := div_le_div_of_nonneg_right hpow two_pos.le
    rw [nearest_of_wide ha hnear hplace]
  · -- a power of two lies between the two, and it has no more than ten places
    have hqpos : 0 < q := by
      by_contra hzero
      rw [Int.log_of_right_le_zero _ (not_lt.mp hzero)] at hlog
      omega
    obtain ⟨k, hk⟩ : ∃ k : ℕ, Int.log 2 q = k := ⟨(Int.log 2 q).toNat, by omega⟩
    have hle : (2 : ℚ) ^ k ≤ q := by
      have hpow := Int.zpow_log_le_self one_lt_two hqpos
      rwa [hk, zpow_natCast] at hpow
    have hlt : a < 2 ^ k := lt_pow_of_place_lt hnonneg (by omega)
    have hpower : q = 2 ^ k := le_antisymm (tenths_div_le_pow hlt.le) hle
    have hfits : nearest q = q := by
      rw [hpower, ← zpow_natCast]
      exact nearest_zpow (by omega)
    rw [hfits, hq, tenths_intCast_div]

theorem nearest_tenths_lt (hnonneg : 0 ≤ a) (ha : nearest a = a) (hlt : a < 2 ^ (1024 : ℤ)) :
    nearest (tenths a / 10 ^ 10) < 2 ^ (1024 : ℤ) := by
  by_cases hplace : 0 ≤ place a
  · obtain ⟨k, hk⟩ := exists_eq_mul_place ha
    have hwhole : a = ((k * 2 ^ (place a).toNat : ℤ) : ℚ) := by
      nth_rewrite 1 [hk]
      rw [← Int.toNat_of_nonneg hplace, zpow_natCast]
      push_cast
      rfl
    have hdecimal : (tenths a : ℚ) / 10 ^ 10 = a := by
      rw [hwhole, tenths_intCast]
      push_cast
      exact mul_div_cancel_right₀ _ (by norm_num)
    rwa [hdecimal, ha]
  · have hlow : a < 2 ^ 52 := lt_pow_of_place_lt hnonneg (by push_cast; omega)
    have hdecimal : (0 : ℚ) ≤ tenths a / 10 ^ 10 :=
      div_nonneg (by exact_mod_cast tenths_nonneg hnonneg) (by norm_num)
    calc nearest (tenths a / 10 ^ 10)
        ≤ nearest (2 ^ (52 : ℤ)) := nearest_mono hdecimal (tenths_div_le_pow hlow.le)
      _ = 2 ^ (52 : ℤ) := nearest_zpow (by norm_num)
      _ < 2 ^ (1024 : ℤ) := zpow_lt_zpow_right₀ one_lt_two (by norm_num)

end DynamicUi.Decimal
