import Mathlib.Algebra.Order.Field.Power
import Mathlib.Data.Int.Log
import Mathlib.Data.Rat.Floor

/-! # Rounding to binary places

Arithmetic on 64-bit values takes the exact result to the nearest multiple of a power of two, ties
to even. The power depends on the result alone, so rounding is monotone, and a value that fits is
left as it is.
-/

namespace DynamicUi.Decimal

open Float.Model Float.Model.UnpackedFloat

/-- The nearest whole number, and the even one of two that are equally near. -/
def roundEven (q : ℚ) : ℤ :=
  if q < ⌊q⌋ + 1 / 2 then ⌊q⌋ else if ⌊q⌋ + 1 / 2 < q then ⌊q⌋ + 1 else ⌊q⌋ + ⌊q⌋ % 2

theorem floor_le_roundEven (q : ℚ) : ⌊q⌋ ≤ roundEven q := by
  unfold roundEven
  split_ifs <;> omega

theorem roundEven_le_floor_add_one (q : ℚ) : roundEven q ≤ ⌊q⌋ + 1 := by
  unfold roundEven
  split_ifs <;> omega

theorem roundEven_mono {q r : ℚ} (h : q ≤ r) : roundEven q ≤ roundEven r := by
  rcases (Int.floor_le_floor h).lt_or_eq with hlt | heq
  · calc roundEven q ≤ ⌊q⌋ + 1 := roundEven_le_floor_add_one q
      _ ≤ ⌊r⌋ := hlt
      _ ≤ roundEven r := floor_le_roundEven r
  · unfold roundEven
    rw [heq]
    split_ifs <;> first | omega | linarith

theorem roundEven_intCast (n : ℤ) : roundEven n = n := by
  simp [roundEven]

/-- The exponent of the places that a value is rounded to. -/
def place (x : ℚ) : ℤ := max (Int.log 2 x - 52) (-1074)

/-- The value that stands for `x`, were there no greatest one. -/
def nearest (x : ℚ) : ℚ := roundEven (x / 2 ^ place x) * 2 ^ place x

theorem div_place_lt {x : ℚ} : x / 2 ^ place x < 2 ^ (53 : ℤ) := by
  rw [div_lt_iff₀ (by positivity), ← zpow_add₀ two_ne_zero]
  calc x < 2 ^ (Int.log 2 x + 1) := Int.lt_zpow_succ_log_self one_lt_two x
    _ ≤ 2 ^ (53 + place x) := zpow_le_zpow_right₀ one_le_two (by unfold place; omega)

theorem roundEven_place_le {x : ℚ} : roundEven (x / 2 ^ place x) ≤ 2 ^ 53 := by
  have h : roundEven (x / 2 ^ place x) ≤ roundEven ((2 ^ 53 : ℤ) : ℚ) := by
    apply roundEven_mono
    have := div_place_lt (x := x)
    push_cast
    exact_mod_cast this.le
  rwa [roundEven_intCast] at h

theorem le_roundEven_place {x : ℚ} (hx : 0 < x) (h : place x ≠ -1074) :
    2 ^ 52 ≤ roundEven (x / 2 ^ place x) := by
  have hp : place x = Int.log 2 x - 52 := by unfold place at h ⊢; omega
  have h : roundEven ((2 ^ 52 : ℤ) : ℚ) ≤ roundEven (x / 2 ^ place x) := by
    apply roundEven_mono
    rw [le_div_iff₀ (by positivity)]
    calc ((2 ^ 52 : ℤ) : ℚ) * 2 ^ place x = 2 ^ (52 : ℤ) * 2 ^ (Int.log 2 x - 52) := by
          rw [hp]
          norm_cast
      _ = 2 ^ Int.log 2 x := by rw [← zpow_add₀ two_ne_zero, add_sub_cancel]
      _ ≤ x := Int.zpow_log_le_self one_lt_two hx
  rwa [roundEven_intCast] at h

theorem nearest_zero : nearest 0 = 0 := by
  have h := roundEven_intCast 0
  rw [Int.cast_zero] at h
  simp [nearest, h]

theorem nearest_nonneg {x : ℚ} (hx : 0 ≤ x) : 0 ≤ nearest x := by
  have h : roundEven ((0 : ℤ) : ℚ) ≤ roundEven (x / 2 ^ place x) :=
    roundEven_mono (by push_cast; positivity)
  rw [roundEven_intCast] at h
  exact mul_nonneg (by exact_mod_cast h) (by positivity)

/-- Between two values with different places lies the power of two at which the places change. -/
theorem nearest_mono {x y : ℚ} (hx : 0 ≤ x) (hxy : x ≤ y) : nearest x ≤ nearest y := by
  rcases hx.eq_or_lt with rfl | hx
  · rw [nearest_zero]
    exact nearest_nonneg hxy
  have hlog : Int.log 2 x ≤ Int.log 2 y := Int.log_mono_right hx hxy
  have hplace : place x ≤ place y := by unfold place; omega
  rcases hplace.eq_or_lt with heq | hlt
  · unfold nearest
    rw [heq]
    have hpow : (0 : ℚ) ≤ 2 ^ place y := by positivity
    have hround := roundEven_mono (div_le_div_of_nonneg_right hxy hpow)
    exact mul_le_mul_of_nonneg_right (by exact_mod_cast hround) hpow
  · have hy : 2 ^ 52 ≤ roundEven (y / 2 ^ place y) :=
      le_roundEven_place (hx.trans_le hxy) (by unfold place at hlt ⊢; omega)
    calc nearest x ≤ 2 ^ 53 * 2 ^ place x :=
          mul_le_mul_of_nonneg_right (by exact_mod_cast roundEven_place_le) (by positivity)
      _ = 2 ^ 52 * 2 ^ (place x + 1) := by rw [zpow_add_one₀ two_ne_zero]; ring
      _ ≤ 2 ^ 52 * 2 ^ place y :=
          mul_le_mul_of_nonneg_left (zpow_le_zpow_right₀ one_le_two hlt) (by positivity)
      _ ≤ nearest y := mul_le_mul_of_nonneg_right (by exact_mod_cast hy) (by positivity)

theorem nearest_of_digits {m : ℕ} {e : ℤ} (hm : m < 2 ^ 53) (he : -1074 ≤ e) :
    nearest (m * 2 ^ e) = m * 2 ^ e := by
  rcases m.eq_zero_or_pos with rfl | hpos
  · simp [nearest_zero]
  have hx : (0 : ℚ) < m * 2 ^ e := by positivity
  have hlog : Int.log 2 ((m : ℚ) * 2 ^ e) < 53 + e := by
    apply (Int.lt_zpow_iff_log_lt one_lt_two hx).mp
    rw [Nat.cast_ofNat, zpow_add₀ two_ne_zero]
    exact mul_lt_mul_of_pos_right (by exact_mod_cast hm) (by positivity)
  obtain ⟨k, hk⟩ : ∃ k : ℕ, e = k + place (m * 2 ^ e) :=
    ⟨(e - place (m * 2 ^ e)).toNat, by unfold place; omega⟩
  have hdiv : (m * 2 ^ e : ℚ) / 2 ^ place (m * 2 ^ e) = ((m * 2 ^ k : ℤ) : ℚ) := by
    rw [div_eq_iff (by positivity)]
    nth_rewrite 1 [hk]
    push_cast
    rw [zpow_add₀ two_ne_zero, zpow_natCast, mul_assoc]
  unfold nearest
  rw [hdiv, roundEven_intCast, ← hdiv, div_mul_cancel₀ _ (by positivity)]

theorem nearest_zpow {e : ℤ} (he : -1074 ≤ e) : nearest (2 ^ e) = 2 ^ e := by
  have h := nearest_of_digits (m := 1) (by norm_num) he
  rwa [Nat.cast_one, one_mul] at h

/-! ## Digits and what they leave out -/

/-- The mantissa is the whole part of the value. One more bit tells whether the rest is at least a
half, and another whether it is neither nothing nor a half. -/
structure Describes (d : ExtendedMantissa) (q : ℚ) : Prop where
  lower : d.mantissa ≤ q
  upper : q < d.mantissa + 1
  roundBit : d.roundBit = true ↔ d.mantissa + 1 / 2 ≤ q
  stickyBit : d.stickyBit = true ↔ q ≠ d.mantissa ∧ q ≠ d.mantissa + 1 / 2

namespace Describes

variable {d : ExtendedMantissa} {q : ℚ}

theorem floor (h : Describes d q) : ⌊q⌋ = d.mantissa :=
  Int.floor_eq_iff.mpr ⟨by exact_mod_cast h.lower, by exact_mod_cast h.upper⟩

theorem roundedMantissa (h : Describes d q) : (d.roundedMantissa : ℤ) = roundEven q := by
  obtain ⟨m, r, s⟩ := d
  have hfloor := h.floor
  obtain ⟨hl, hu, hr, hs⟩ := h
  simp only at hfloor hl hu hr hs
  simp only [roundEven, hfloor, Int.cast_natCast]
  cases r with
  | false =>
    have hlt : q < m + 1 / 2 := by simpa using hr
    rw [if_pos hlt]
    cases s <;> rfl
  | true =>
    have hle : m + 1 / 2 ≤ q := by simpa using hr
    rw [if_neg (not_lt.mpr hle)]
    cases s with
    | false =>
      have heq : q = m + 1 / 2 := by
        by_contra hne
        exact Bool.false_ne_true (hs.mpr ⟨by linarith, hne⟩)
      rw [if_neg (by linarith)]
      simp [ExtendedMantissa.roundedMantissa, ExtendedMantissa.accuracy,
        Accuracy.roundToNearestEven]
    | true =>
      have hne := (hs.mp rfl).2
      rw [if_pos (lt_of_le_of_ne hle (Ne.symm hne))]
      simp [ExtendedMantissa.roundedMantissa, ExtendedMantissa.accuracy,
        Accuracy.roundToNearestEven]

theorem bits_iff (h : Describes d q) :
    (d.roundBit || d.stickyBit) = true ↔ q ≠ d.mantissa := by
  rw [Bool.or_eq_true, h.roundBit, h.stickyBit]
  constructor
  · rintro (hle | ⟨hne, -⟩)
    · intro heq
      linarith
    · exact hne
  · intro hne
    by_cases hhalf : q = d.mantissa + 1 / 2
    · exact .inl hhalf.ge
    · exact .inr ⟨hne, hhalf⟩

theorem shiftRightOne (h : Describes d q) : Describes d.shiftRightOne (q / 2) := by
  have hsticky := h.bits_iff
  obtain ⟨m, r, s⟩ := d
  obtain ⟨hl, hu, -, -⟩ := h
  simp only at hl hu hsticky
  obtain ⟨k, rfl | rfl⟩ : ∃ k, m = 2 * k ∨ m = 2 * k + 1 := ⟨m / 2, by omega⟩
  · have hk : 2 * k / 2 = k := by omega
    have hround : (2 * k % 2 != 0) = false := by simp
    push_cast at hl hu hsticky
    refine ⟨?_, ?_, ?_, ?_⟩ <;> simp only [ExtendedMantissa.shiftRightOne, hk, hround, hsticky]
    · linarith
    · linarith
    · exact iff_of_false Bool.false_ne_true (by linarith)
    · exact ⟨fun hne => ⟨fun _ => hne (by linarith), by linarith⟩,
        fun hne _ => hne.1 (by linarith)⟩
  · have hk : (2 * k + 1) / 2 = k := by omega
    have hround : ((2 * k + 1) % 2 != 0) = true := by simp
    push_cast at hl hu hsticky
    refine ⟨?_, ?_, ?_, ?_⟩ <;> simp only [ExtendedMantissa.shiftRightOne, hk, hround, hsticky]
    · linarith
    · linarith
    · exact iff_of_true trivial (by linarith)
    · exact ⟨fun hne => ⟨by linarith, fun _ => hne (by linarith)⟩,
        fun hne _ => hne.2 (by linarith)⟩

theorem shiftRight (h : Describes d q) (n : ℕ) : Describes (d >>> n) (q / 2 ^ n) := by
  show Describes (n.repeat ExtendedMantissa.shiftRightOne d) _
  induction n with
  | zero => simpa [Nat.repeat] using h
  | succ n ih =>
    rw [pow_succ, ← div_div]
    exact ih.shiftRightOne

theorem natCast (m : ℕ) : Describes (.ofMantissaAndAccuracy m .exact) m where
  lower := le_rfl
  upper := lt_add_one _
  roundBit := iff_of_false Bool.false_ne_true (by simp [ExtendedMantissa.ofMantissaAndAccuracy])
  stickyBit := iff_of_false Bool.false_ne_true fun h => h.1 rfl

theorem inexact (m : ℕ) {f : ℚ} (hpos : 0 < f) (hlt : f < 1) :
    Describes (.ofMantissaAndAccuracy m (.inexact (compare f (1 / 2)))) (m + f) := by
  rcases lt_trichotomy f (1 / 2) with h | h | h
  · rw [compare_lt_iff_lt.mpr h]
    refine ⟨?_, ?_, ?_, ?_⟩ <;> simp only [ExtendedMantissa.ofMantissaAndAccuracy]
    · linarith
    · linarith
    · exact iff_of_false Bool.false_ne_true (by linarith)
    · exact iff_of_true trivial ⟨by linarith, by linarith⟩
  · rw [compare_eq_iff_eq.mpr h]
    refine ⟨?_, ?_, ?_, ?_⟩ <;> simp only [ExtendedMantissa.ofMantissaAndAccuracy]
    · linarith
    · linarith
    · exact iff_of_true trivial (by linarith)
    · exact iff_of_false Bool.false_ne_true fun hne => hne.2 (by linarith)
  · rw [compare_gt_iff_gt.mpr h]
    refine ⟨?_, ?_, ?_, ?_⟩ <;> simp only [ExtendedMantissa.ofMantissaAndAccuracy]
    · linarith
    · linarith
    · exact iff_of_true trivial (by linarith)
    · exact iff_of_true trivial ⟨by linarith, by linarith⟩

theorem compare_two_mul (n : ℕ) {k : ℕ} (hk : 0 < k) :
    compare (2 * n) k = compare ((n : ℚ) / k) (1 / 2) := by
  have hkq : (0 : ℚ) < k := by exact_mod_cast hk
  rcases lt_trichotomy (2 * n) k with h | h | h
  · rw [compare_lt_iff_lt.mpr h, eq_comm, compare_lt_iff_lt, div_lt_div_iff₀ hkq two_pos]
    exact_mod_cast (by omega : n * 2 < 1 * k)
  · rw [compare_eq_iff_eq.mpr h, eq_comm, compare_eq_iff_eq, div_eq_div_iff hkq.ne' two_ne_zero]
    exact_mod_cast (by omega : n * 2 = 1 * k)
  · rw [compare_gt_iff_gt.mpr h, eq_comm, compare_gt_iff_gt, div_lt_div_iff₀ two_pos hkq]
    exact_mod_cast (by omega : 1 * k < n * 2)

theorem quotient (n : ℕ) {k : ℕ} (hk : 0 < k) :
    Describes (.ofMantissaAndAccuracy (n / k) (accuracyOfFraction (n % k) k)) (n / k) := by
  have hkq : (0 : ℚ) < k := by exact_mod_cast hk
  have hsplit : (n : ℚ) / k = (n / k : ℕ) + (n % k : ℕ) / (k : ℚ) := by
    rw [add_div_eq_mul_add_div _ _ hkq.ne']
    exact_mod_cast congrArg (fun a : ℕ => (a : ℚ) / k) (Nat.div_add_mod' n k).symm
  rw [hsplit]
  unfold accuracyOfFraction
  split_ifs with hb
  · simpa [hb] using natCast (n / k)
  · rw [compare_two_mul _ hk]
    exact inexact _ (by positivity) ((div_lt_one hkq).mpr (by exact_mod_cast Nat.mod_lt n hk))

end Describes

/-! ## The rounding of the arithmetic -/

/-- A mantissa and an exponent as they stand in 64 bits, were there no greatest exponent. -/
structure Canonical (m : ℕ) (e : ℤ) : Prop where
  digits : m < 2 ^ 53
  least : -1074 ≤ e
  full : 2 ^ 52 ≤ m ∨ e = -1074

inductive HasValue : UnpackedFloat → ℚ → Prop
  | zero (s : Sign) : HasValue (.zero s) 0
  | finite {m : ℕ} {e : ℤ} (hm : 0 < m) (h : Canonical m e) :
    HasValue (.finite .positive m e hm) (m * 2 ^ e)

theorem targetExponent_totalExponent (m : ℕ) (e : ℤ) :
    Format.binary64.targetExponent (totalExponent m e) = max (m.log2 + e - 52) (-1074) := by
  have hplaces : Format.binary64.mantissaBits = 53 := rfl
  simp only [Format.targetExponent, totalExponent, hplaces, Format.minExponent]
  omega

theorem mantissa_ofMantissaAndAccuracy (m : ℕ) (a : Accuracy) :
    (ExtendedMantissa.ofMantissaAndAccuracy m a).mantissa = m := by
  rcases a with _ | (_ | _ | _) <;> rfl

theorem log_of_digits {m : ℕ} {e : ℤ} {x : ℚ} (hx : 0 < x) (hm : 0 < m) (hl : m ≤ x / 2 ^ e)
    (hu : x / 2 ^ e < m + 1) : Int.log 2 x = m.log2 + e := by
  rw [le_div_iff₀ (by positivity)] at hl
  rw [div_lt_iff₀ (by positivity)] at hu
  apply le_antisymm
  · apply Int.lt_add_one_iff.mp
    apply (Int.lt_zpow_iff_log_lt one_lt_two hx).mp
    have hm : (m + 1 : ℚ) ≤ 2 ^ (m.log2 + 1) := by exact_mod_cast Nat.lt_log2_self
    calc x < (m + 1) * 2 ^ e := hu
      _ ≤ 2 ^ (m.log2 + 1) * 2 ^ e := mul_le_mul_of_nonneg_right hm (by positivity)
      _ = 2 ^ (m.log2 + e + 1) := by
        rw [← zpow_natCast, ← zpow_add₀ two_ne_zero]
        push_cast
        ring_nf
  · apply (Int.zpow_le_iff_le_log one_lt_two hx).mp
    have hm : (2 ^ m.log2 : ℚ) ≤ m := by exact_mod_cast Nat.log2_self_le hm.ne'
    calc ((2 : ℕ) : ℚ) ^ (m.log2 + e) = 2 ^ m.log2 * 2 ^ e := by
          rw [Nat.cast_ofNat, zpow_add₀ two_ne_zero, zpow_natCast]
      _ ≤ m * 2 ^ e := mul_le_mul_of_nonneg_right hm (by positivity)
      _ ≤ x := hl

theorem place_of_describes {m : ℕ} {e : ℤ} {a : Accuracy} {x : ℚ} (hx : 0 < x)
    (hd : Describes (.ofMantissaAndAccuracy m a) (x / 2 ^ e)) (he : e ≤ place x) :
    e + (Format.binary64.targetExponent (totalExponent m e) - e).toNat = place x := by
  obtain ⟨hl, hu, -, -⟩ := hd
  rw [mantissa_ofMantissaAndAccuracy] at hl hu
  rw [targetExponent_totalExponent]
  rcases m.eq_zero_or_pos with rfl | hm
  · have hlog : Int.log 2 x < e := by
      apply (Int.lt_zpow_iff_log_lt one_lt_two hx).mp
      rw [div_lt_iff₀ (by positivity)] at hu
      simpa using hu
    simp only [Nat.log2_zero]
    unfold place at he ⊢
    omega
  · have hlog := log_of_digits hx hm hl hu
    unfold place at he ⊢
    omega

/-- A second shift takes back a carry into a 54th digit, and nothing else. -/
theorem shift_of_rounded {n : ℕ} {e : ℤ} (hn : n ≤ 2 ^ 53) (he : -1074 ≤ e)
    (hfull : 2 ^ 52 ≤ n ∨ e = -1074) :
    let shifted := shiftToTargetExponent .binary64 n e .exact
    Canonical shifted.1.mantissa shifted.2 ∧
      (shifted.1.mantissa * 2 ^ shifted.2 : ℚ) = n * 2 ^ e := by
  simp only [shiftToTargetExponent, shiftToExponent, targetExponent_totalExponent]
  rcases hn.eq_or_lt with rfl | hlt
  · have hk : (max (((2 ^ 53 : ℕ).log2 : ℤ) + e - 52) (-1074) - e).toNat = 1 := by
      rw [Nat.log2_two_pow]
      omega
    rw [hk]
    show Canonical (2 ^ 52) (e + 1) ∧ (((2 ^ 52 : ℕ) : ℚ) * 2 ^ (e + 1) = _)
    refine ⟨⟨by norm_num, by omega, .inl le_rfl⟩, ?_⟩
    rw [zpow_add_one₀ two_ne_zero]
    push_cast
    ring
  · have hlog : n.log2 < 53 := by
      rcases n.eq_zero_or_pos with rfl | hpos
      · decide
      · exact (Nat.log2_lt hpos.ne').mpr hlt
    have hk : (max ((n.log2 : ℤ) + e - 52) (-1074) - e).toNat = 0 := by omega
    rw [hk, Nat.cast_zero, add_zero]
    exact ⟨⟨hlt, he, hfull⟩, rfl⟩

theorem roundWithAccuracy_hasValue {m : ℕ} {e : ℤ} {a : Accuracy} {x : ℚ} (hx : 0 < x)
    (hd : Describes (.ofMantissaAndAccuracy m a) (x / 2 ^ e)) (he : e ≤ place x) :
    HasValue (roundWithAccuracy .binary64 .positive m e a) (nearest x) := by
  have hplace := place_of_describes hx hd he
  have hround : (((shiftToTargetExponent .binary64 m e a).1.roundedMantissa : ℕ) : ℤ) =
      roundEven (x / 2 ^ place x) := by
    have h := (hd.shiftRight
      (Format.binary64.targetExponent (totalExponent m e) - e).toNat).roundedMantissa
    rw [div_div, ← zpow_natCast, ← zpow_add₀ two_ne_zero, hplace] at h
    exact h
  have hexponent : (shiftToTargetExponent .binary64 m e a).2 = place x := hplace
  have hle := @roundEven_place_le x
  have hfull := @le_roundEven_place x hx
  rw [← hround] at hle hfull
  obtain ⟨hcanonical, hvalue⟩ := @shift_of_rounded _ (place x) (by exact_mod_cast hle)
    (le_max_right _ _) (or_iff_not_imp_right.mpr fun h => by exact_mod_cast hfull h)
  rw [nearest, ← hround, Int.cast_natCast, ← hvalue, ← hexponent]
  rw [← hexponent] at hcanonical
  unfold roundWithAccuracy
  dsimp only
  generalize shiftToTargetExponent .binary64 _ _ .exact = d at hcanonical ⊢
  by_cases hzero : d.1.mantissa = 0
  · rw [dif_pos hzero, hzero, Nat.cast_zero, zero_mul]
    exact .zero .positive
  · rw [dif_neg hzero]
    exact .finite _ hcanonical

end DynamicUi.Decimal
