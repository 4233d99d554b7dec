import DynamicUi.Proofs.Decimal.Rounding

/-! # Sums, products and quotients of magnitudes

The sum and the product of two magnitudes, and the quotient by a positive one, are the nearest
values to the exact results. Products and quotients do not ask for the operands to be in canonical
form.
-/

namespace DynamicUi.Decimal

open Float.Model Float.Model.UnpackedFloat

theorem HasValue.nonneg {u : UnpackedFloat} {a : ℚ} (h : HasValue u a) : 0 ≤ a := by
  cases h with
  | zero => exact le_rfl
  | finite => positivity

theorem HasValue.nearest_eq {u : UnpackedFloat} {a : ℚ} (h : HasValue u a) : nearest a = a := by
  cases h with
  | zero => exact nearest_zero
  | finite _ h => exact nearest_of_digits h.digits h.least

theorem log_mul_zpow {m : ℕ} (hm : 0 < m) (e : ℤ) :
    Int.log 2 ((m : ℚ) * 2 ^ e) = m.log2 + e := by
  have hdiv : (m : ℚ) * 2 ^ e / 2 ^ e = m := mul_div_cancel_right₀ _ (by positivity)
  exact log_of_digits (by positivity) hm hdiv.ge (hdiv.trans_lt (lt_add_one _))

/-! ## Quotients -/

theorem divCore_describes {m₁ m₂ : ℕ} (e₁ e₂ : ℤ) (hm₂ : 0 < m₂) :
    let (m, e, accuracy) := divCore .binary64 m₁ e₁ m₂ e₂
    Describes (.ofMantissaAndAccuracy m accuracy) (m₁ * 2 ^ e₁ / (m₂ * 2 ^ e₂) / 2 ^ e) := by
  simp only [divCore, Nat.shiftLeft_eq]
  generalize ht : min (e₁ - e₂) _ = t
  have hk : ((e₁ - e₂ - t).toNat : ℤ) = e₁ - e₂ - t := Int.toNat_of_nonneg (by omega)
  have hvalue : (m₁ * 2 ^ e₁ / (m₂ * 2 ^ e₂) / 2 ^ t : ℚ) =
      ((m₁ * 2 ^ (e₁ - e₂ - t).toNat : ℕ) : ℚ) / m₂ := by
    rw [Nat.cast_mul, Nat.cast_pow, Nat.cast_ofNat, ← zpow_natCast, hk, zpow_sub₀ two_ne_zero,
      zpow_sub₀ two_ne_zero]
    ring
  rw [hvalue]
  exact .quotient _ hm₂

/-- The quotient is computed with enough digits to round it. -/
theorem divCore_le_place {m₁ m₂ : ℕ} (e₁ e₂ : ℤ) (hm₁ : 0 < m₁) (hm₂ : 0 < m₂) :
    (divCore .binary64 m₁ e₁ m₂ e₂).2.1 ≤ place (m₁ * 2 ^ e₁ / (m₂ * 2 ^ e₂)) := by
  have hlog : m₁.log2 + e₁ - (m₂.log2 + e₂ + 1) ≤ Int.log 2 (m₁ * 2 ^ e₁ / (m₂ * 2 ^ e₂) : ℚ) := by
    apply (Int.zpow_le_iff_le_log one_lt_two (by positivity)).mp
    rw [Nat.cast_ofNat, zpow_sub₀ two_ne_zero]
    apply div_le_div₀ (by positivity) _ (by positivity) _
    · rw [← log_mul_zpow hm₁]
      exact Int.zpow_log_le_self one_lt_two (by positivity)
    · rw [← log_mul_zpow hm₂]
      exact (Int.lt_zpow_succ_log_self one_lt_two _).le
  have hplaces : Format.binary64.mantissaBits = 53 := rfl
  simp only [divCore, Format.targetExponent, totalExponent, hplaces, Format.minExponent, place]
  omega

theorem div_hasValue {m₁ m₂ : ℕ} (e₁ e₂ : ℤ) (hm₁ : 0 < m₁) (hm₂ : 0 < m₂) :
    HasValue (UnpackedFloat.div .binary64 (.finite .positive m₁ e₁ hm₁)
      (.finite .positive m₂ e₂ hm₂)) (nearest (m₁ * 2 ^ e₁ / (m₂ * 2 ^ e₂))) :=
  roundWithAccuracy_hasValue (by positivity) (divCore_describes _ _ hm₂)
    (divCore_le_place _ _ hm₁ hm₂)

theorem HasValue.div {u v : UnpackedFloat} {a b : ℚ} (hu : HasValue u a) (hv : HasValue v b)
    (hb : 0 < b) : HasValue (u.div .binary64 v) (nearest (a / b)) := by
  cases hv with
  | zero => exact absurd hb (lt_irrefl 0)
  | finite hm₂ =>
    cases hu with
    | zero s =>
      rw [zero_div, nearest_zero]
      exact .zero _
    | finite hm₁ => exact div_hasValue _ _ hm₁ hm₂

/-! ## Products -/

theorem mul_hasValue {m₁ m₂ : ℕ} (e₁ e₂ : ℤ) (hm₁ : 0 < m₁) (hm₂ : 0 < m₂)
    (hfull : 2 ^ 52 ≤ m₁ * m₂) :
    HasValue (UnpackedFloat.mul .binary64 (.finite .positive m₁ e₁ hm₁)
      (.finite .positive m₂ e₂ hm₂)) (nearest (m₁ * 2 ^ e₁ * (m₂ * 2 ^ e₂))) := by
  have hm : 0 < m₁ * m₂ := Nat.mul_pos hm₁ hm₂
  have hvalue : (m₁ * 2 ^ e₁ * (m₂ * 2 ^ e₂) : ℚ) = (m₁ * m₂ : ℕ) * 2 ^ (e₁ + e₂) := by
    rw [zpow_add₀ two_ne_zero]
    push_cast
    ring
  have hlog : 52 ≤ (m₁ * m₂).log2 := (Nat.le_log2 hm.ne').mpr hfull
  rw [hvalue]
  apply roundWithAccuracy_hasValue (by positivity)
  · rw [mul_div_cancel_right₀ _ (by positivity)]
    exact .natCast _
  · unfold place
    rw [log_mul_zpow hm]
    omega

theorem Canonical.full_of_one_le {m : ℕ} {e : ℤ} (h : Canonical m e) (hle : 1 ≤ (m * 2 ^ e : ℚ)) :
    2 ^ 52 ≤ m := by
  refine h.full.resolve_right ?_
  rintro rfl
  have hm : (m : ℚ) < 2 ^ (53 : ℤ) := by exact_mod_cast h.digits
  have hlt : (m * 2 ^ (-1074 : ℤ) : ℚ) < 2 ^ (53 : ℤ) * 2 ^ (-1074 : ℤ) :=
    mul_lt_mul_of_pos_right hm (by positivity)
  rw [← zpow_add₀ two_ne_zero] at hlt
  have hone : (2 : ℚ) ^ (53 + -1074 : ℤ) ≤ 2 ^ (0 : ℤ) :=
    zpow_le_zpow_right₀ one_le_two (by norm_num)
  linarith [zpow_zero (2 : ℚ)]

theorem HasValue.mul {u v : UnpackedFloat} {a b : ℚ} (hu : HasValue u a) (hv : HasValue v b)
    (ha : 1 ≤ a) (hb : 0 < b) : HasValue (u.mul .binary64 v) (nearest (a * b)) := by
  cases hv with
  | zero => exact absurd hb (lt_irrefl 0)
  | finite hm₂ =>
    cases hu with
    | zero => exact absurd ha (by norm_num)
    | finite hm₁ h₁ =>
      exact mul_hasValue _ _ hm₁ hm₂
        ((h₁.full_of_one_le ha).trans (Nat.le_mul_of_pos_right _ hm₂))

/-! ## Sums -/

theorem decreaseExponent_value (m : ℕ) (e t : ℤ) :
    ((decreaseExponent m e t).1 * 2 ^ (decreaseExponent m e t).2 : ℚ) = m * 2 ^ e := by
  simp only [decreaseExponent, Nat.shiftLeft_eq]
  rw [Nat.cast_mul, Nat.cast_pow, Nat.cast_ofNat, ← zpow_natCast, mul_assoc,
    ← zpow_add₀ two_ne_zero, add_sub_cancel]

theorem round_hasValue {m : ℕ} (hm : 0 < m) (e : ℤ) :
    HasValue (UnpackedFloat.round .binary64 .positive m e) (nearest (m * 2 ^ e)) := by
  unfold UnpackedFloat.round
  have hvalue := decreaseExponent_value m e (Format.binary64.targetExponent (totalExponent m e))
  have hplace : (decreaseExponent m e (Format.binary64.targetExponent (totalExponent m e))).2 ≤
      place (m * 2 ^ e) := by
    simp only [decreaseExponent, targetExponent_totalExponent, place, log_mul_zpow hm]
    omega
  apply roundWithAccuracy_hasValue (by positivity) _ hplace
  rw [← hvalue, mul_div_cancel_right₀ _ (by positivity)]
  exact .natCast _

theorem mantissa_pos_of_decrease {m : ℕ} (hm : 0 < m) (e t : ℤ) :
    0 < (decreaseExponent m e t).1 := by
  simp only [decreaseExponent, Nat.shiftLeft_eq]
  positivity

theorem exponent_of_decrease (m : ℕ) {e t : ℤ} (h : t ≤ e) : (decreaseExponent m e t).2 = t := by
  simp only [decreaseExponent]
  omega

theorem normalize_natCast {m : ℕ} (hm : 0 < m) (e : ℤ) (s : Sign) :
    UnpackedFloat.normalize .binary64 m e s = UnpackedFloat.round .binary64 .positive m e := by
  unfold UnpackedFloat.normalize
  rw [Int.compare_eq_gt.mpr (by omega)]
  rfl

theorem HasValue.add {u v : UnpackedFloat} {a b : ℚ} (hu : HasValue u a) (hv : HasValue v b)
    (hb : 0 < b) : HasValue (u.add .binary64 v) (nearest (a + b)) := by
  cases hv with
  | zero => exact absurd hb (lt_irrefl 0)
  | @finite m₂ e₂ hm₂ h₂ =>
    cases hu with
    | zero s =>
      rw [zero_add, (HasValue.finite hm₂ h₂).nearest_eq]
      exact .finite hm₂ h₂
    | @finite m₁ e₁ hm₁ h₁ =>
      have hvalue₁ := decreaseExponent_value m₁ e₁ (min e₁ e₂)
      have hvalue₂ := decreaseExponent_value m₂ e₂ (min e₁ e₂)
      rw [exponent_of_decrease m₁ (min_le_left e₁ e₂)] at hvalue₁
      rw [exponent_of_decrease m₂ (min_le_right e₁ e₂)] at hvalue₂
      have hpos : 0 < (decreaseExponent m₁ e₁ (min e₁ e₂)).1 +
          (decreaseExponent m₂ e₂ (min e₁ e₂)).1 :=
        Nat.add_pos_left (mantissa_pos_of_decrease hm₁ e₁ _) _
      have hround := round_hasValue hpos (min e₁ e₂)
      rw [← normalize_natCast hpos _ .positive, @Nat.cast_add ℚ, add_mul, hvalue₁,
        hvalue₂] at hround
      exact hround

end DynamicUi.Decimal
