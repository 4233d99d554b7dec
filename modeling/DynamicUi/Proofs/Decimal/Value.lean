import DynamicUi.Proofs.Decimal.Packed

/-! # The value in the bits

The bits of a finite float show a magnitude and a sign, which does not count for a zero. They are
those of the arithmetic, and turning the sign over leaves the magnitude as it is.
-/

namespace DynamicUi.Decimal

open Float.Model Float.Model.UnpackedFloat

namespace Binary

def value (b : Binary) : ℚ := b.significand * 2 ^ b.exponent

theorem value_eq_div (b : Binary) : b.value = b.numerator / b.denominator := by
  have hexponent : b.exponent = b.exponent.toNat - (-b.exponent).toNat := by omega
  have hpow : (2 ^ b.exponent : ℚ) = 2 ^ b.exponent.toNat / 2 ^ (-b.exponent).toNat := by
    rw [← zpow_natCast, ← zpow_natCast, ← zpow_sub₀ two_ne_zero, ← hexponent]
  have hcast : ∀ k : ℕ, ((Nat.pow 2 k : ℕ) : ℚ) = 2 ^ k := Nat.cast_pow 2
  rw [value, hpow, ← mul_div_assoc, numerator, denominator, Nat.cast_mul, hcast, hcast]

end Binary

variable {x : Float} {a : ℚ}

/-- The value of a float as its bits show it. Zero may have either sign. -/
structure Reads (x : Float) (negative : Bool) (a : ℚ) : Prop where
  finite : isFinite x = true
  value : (Binary.ofFloat x).value = a
  sign : isNegative x = negative ∨ (Binary.ofFloat x).significand = 0
  lt : a < 2 ^ (1024 : ℤ)

theorem Reads.sign_eq {negative : Bool} (h : Reads x negative a) (ha : a ≠ 0) :
    isNegative x = negative := by
  refine h.sign.resolve_right fun hzero => ha ?_
  rw [← h.value, Binary.value, hzero, Nat.cast_zero, zero_mul]

theorem lt_of_canonical {m : ℕ} {e : ℤ} (h : Canonical m e) (he : e ≤ 971) :
    (m * 2 ^ e : ℚ) < 2 ^ (1024 : ℤ) := by
  have hm : (m : ℚ) < 2 ^ (53 : ℤ) := by exact_mod_cast h.digits
  calc (m * 2 ^ e : ℚ) < 2 ^ (53 : ℤ) * 2 ^ e := mul_lt_mul_of_pos_right hm (by positivity)
    _ ≤ 2 ^ (53 : ℤ) * 2 ^ (971 : ℤ) :=
      mul_le_mul_of_nonneg_left (zpow_le_zpow_right₀ one_le_two he) (by positivity)
    _ = 2 ^ (1024 : ℤ) := (zpow_add₀ two_ne_zero 53 971).symm

theorem reads_zero {s : Sign} (hx : x.toModel.unpack = .zero s) (negative : Bool) :
    Reads x negative 0 := by
  have hu := unpacks x
  rw [hx] at hu
  cases hu with
  | zero _ hfinite hsignificand =>
    exact ⟨hfinite, by simp [Binary.value, hsignificand], .inr hsignificand, by positivity⟩

theorem reads_finite {s : Sign} {m : ℕ} {e : ℤ} {hm : 0 < m} {negative : Bool}
    (hx : x.toModel.unpack = .finite s m e hm) (hs : negative = true ↔ s = .negative) :
    Reads x negative (m * 2 ^ e) := by
  have hu := unpacks x
  rw [hx] at hu
  cases hu with
  | finite _ _ hfinite hsign hsignificand hexponent hcanonical hgreatest =>
    refine ⟨hfinite, ?_, .inl ?_, lt_of_canonical hcanonical hgreatest⟩
    · rw [Binary.value, hsignificand, hexponent]
    · rw [Bool.eq_iff_iff, hsign, hs]

theorem reads (hx : HasValue x.toModel.unpack a) : Reads x false a := by
  generalize hu : x.toModel.unpack = u at hx
  cases hx with
  | zero => exact reads_zero hu false
  | finite => exact reads_finite hu (by simp)

theorem reads_neg (hx : HasValue x.toModel.unpack a) : Reads (-x) true a := by
  have hneg : (-x).toModel.unpack = (Float.Model.pack x.toModel.unpack.neg).unpack := rfl
  have hu := unpacks x
  generalize x.toModel.unpack = u at hx hneg hu
  cases hx with
  | zero s =>
    have hzero : (-x).toModel.unpack = .zero (-s) := by
      rw [hneg]
      cases s <;> rfl
    exact reads_zero hzero true
  | @finite m e hm h =>
    cases hu with
    | finite _ _ _ _ _ _ _ hgreatest =>
      change _ = (Float.Model.pack (.finite .negative m e hm)).unpack at hneg
      rw [unpack_pack_finite _ hm h hgreatest] at hneg
      exact reads_finite hneg (iff_of_true rfl rfl)

theorem exists_reads (hfinite : isFinite x = true) :
    ∃ a, Reads x (isNegative x) a ∧ 0 ≤ a ∧ nearest a = a := by
  have hu := unpacks x
  generalize hx : x.toModel.unpack = u at hu
  cases hu with
  | notANumber h | infinity _ h => exact absurd (hfinite.symm.trans h) (by decide)
  | zero s => exact ⟨0, reads_zero hx _, le_rfl, nearest_zero⟩
  | finite s hm _ hsign _ _ h =>
    exact ⟨_, reads_finite hx hsign, by positivity, nearest_of_digits h.digits h.least⟩

end DynamicUi.Decimal
