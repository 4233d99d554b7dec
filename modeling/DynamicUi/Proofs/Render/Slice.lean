import DynamicUi.Config.Basic
import DynamicUi.Proofs.Decimal.Value
import DynamicUi.Render.Slice
import Mathlib.Data.Nat.Cast.Order.Field

/-! # Slices lie within their lists

With heights that can be laid out with, the first index of a slice is not past the last, whatever
the offset: rounding is monotone, so it cannot turn a shorter quotient into a longer one.
-/

namespace DynamicUi

open Decimal Float.Model.UnpackedFloat

namespace Decimal

/-! ## Indices -/

namespace Binary

theorem floor_le_ceil {b c : Binary} (h : b.value ≤ c.value) : b.floor ≤ c.ceil := by
  have hc : 0 < c.denominator := Nat.two_pow_pos _
  rw [value_eq_div, value_eq_div] at h
  have hfloor : (b.floor : ℚ) ≤ (c.numerator : ℚ) / c.denominator := Nat.cast_div_le.trans h
  rw [le_div_iff₀ (by exact_mod_cast hc)] at hfloor
  have hfloor : b.floor * c.denominator ≤ c.numerator := by exact_mod_cast hfloor
  rw [ceil, Nat.le_div_iff_mul_le hc]
  omega

end Binary

variable {x y : Float} {a b : ℚ}

theorem floorIndex_le_maxIndex (x : Float) : Length.floorIndex x ≤ Length.maxIndex := by
  show Length.toIndex Binary.floor x ≤ _
  unfold Length.toIndex
  split_ifs <;> omega

theorem floorIndex_le_floor (hx : Reads x false a) :
    Length.floorIndex x ≤ (Binary.ofFloat x).floor := by
  show Length.toIndex Binary.floor x ≤ _
  simp only [Length.toIndex, hx.finite, Bool.not_true, Bool.false_eq_true, if_false]
  split_ifs <;> omega

theorem ceil_le_ceilIndex (hx : Reads x false a) :
    min (Binary.ofFloat x).ceil Length.maxIndex ≤ Length.ceilIndex x := by
  show _ ≤ Length.toIndex Binary.ceil x
  rcases hx.sign with hpositive | hsignificand
  · simp [Length.toIndex, isNaN, hx.finite, hpositive]
  · have hceil : (Binary.ofFloat x).ceil = 0 := by
      have hpos : 0 < (Binary.ofFloat x).denominator := Nat.two_pow_pos _
      rw [Binary.ceil, Binary.numerator, hsignificand, Nat.zero_mul, zero_add]
      exact Nat.div_eq_of_lt (by omega)
    rw [hceil, Nat.zero_min]
    exact Nat.zero_le _

theorem ceilIndex_of_infinity (hx : x.toModel.unpack = .infinity .positive) :
    Length.ceilIndex x = Length.maxIndex := by
  have hu := unpacks x
  rw [hx] at hu
  cases hu with
  | infinity _ hfinite hnan hsign =>
    have hpositive : isNegative x = false := by simpa using hsign
    show Length.toIndex Binary.ceil x = _
    simp [Length.toIndex, hnan, hpositive, hfinite]

theorem floorIndex_le_ceilIndex (hx : Holds x a) (hy : Holds y b) (h : a ≤ b) :
    Length.floorIndex x ≤ Length.ceilIndex y := by
  rcases hy with hy | ⟨hy, -⟩
  · rcases hx with hx | ⟨-, hlarge⟩
    · have hvalue : (Binary.ofFloat x).value ≤ (Binary.ofFloat y).value := by
        rw [(reads hx).value, (reads hy).value]
        exact h
      calc Length.floorIndex x ≤ min (Binary.ofFloat y).ceil Length.maxIndex :=
            le_min ((floorIndex_le_floor (reads hx)).trans (Binary.floor_le_ceil hvalue))
              (floorIndex_le_maxIndex x)
        _ ≤ Length.ceilIndex y := ceil_le_ceilIndex (reads hy)
    · exact absurd (hlarge.trans h) (not_le.mpr (reads hy).lt)
  · rw [ceilIndex_of_infinity hy]
    exact floorIndex_le_maxIndex x

/-! ## Heights and offsets -/

theorem lt_iff : x < y ↔ x.toModel.unpack.compare y.toModel.unpack = some .lt := by
  show decide (x.toModel < y.toModel) = true ↔ _
  rw [decide_eq_true_iff]
  exact beq_iff_eq

theorem unpack_zero : (Float.ofNat 0).toModel.unpack = .zero .positive := rfl

theorem exists_hasValue (hfinite : isFinite x = true) (hx : ¬x < Float.ofNat 0) :
    ∃ a, HasValue x.toModel.unpack a := by
  rw [lt_iff, unpack_zero] at hx
  have hu := unpacks x
  generalize x.toModel.unpack = u at hx hu
  cases hu with
  | notANumber h | infinity _ h => exact absurd (hfinite.symm.trans h) (by decide)
  | zero s => exact ⟨0, .zero s⟩
  | finite s hm _ _ _ _ h =>
    cases s with
    | positive => exact ⟨_, .finite hm h⟩
    | negative => exact absurd rfl hx

theorem infinity_or_hasValue (hx : Float.ofNat 0 < x) :
    x.toModel.unpack = .infinity .positive ∨ ∃ a, HasValue x.toModel.unpack a ∧ 0 < a := by
  rw [lt_iff, unpack_zero] at hx
  have hu := unpacks x
  generalize x.toModel.unpack = u at hx hu
  cases hu with
  | notANumber | zero => cases hx
  | infinity s =>
    cases s with
    | positive => exact .inl rfl
    | negative => cases hx
  | finite s hm _ _ _ _ h =>
    cases s with
    | positive => exact .inr ⟨_, .finite hm h, by positivity⟩
    | negative => cases hx

theorem exists_hasValue_of_isUsable (hx : Config.isUsable x = true) :
    ∃ a, HasValue x.toModel.unpack a ∧ 0 < a := by
  obtain ⟨hfinite, hpos⟩ := Bool.and_eq_true_iff.mp hx
  rcases infinity_or_hasValue (of_decide_eq_true hpos) with hinfinite | hvalue
  · have hu := unpacks x
    rw [hinfinite] at hu
    cases hu with
    | infinity _ h => exact absurd (hfinite.symm.trans h) (by decide)
  · exact hvalue

theorem exists_hasValue_of_between (hx : Float.ofNat 0 < x) (hxy : x < y) :
    ∃ a, HasValue x.toModel.unpack a := by
  rcases infinity_or_hasValue hx with hinfinite | ⟨a, ha, -⟩
  · rw [lt_iff, hinfinite] at hxy
    generalize y.toModel.unpack = v at hxy
    rcases v with ⟨_ | _⟩ | _ | _ | _ <;> cases hxy
  · exact ⟨a, ha⟩

end Decimal

/-! ## The bounds of a slice -/

namespace Slice

open Decimal

variable {height offset viewport : Float}

theorem exists_hasValue_clamp {x z : Float} (hfinite : isFinite x = true) :
    ∃ a, HasValue (clamp x (positivePart z)).toModel.unpack a := by
  have hzero : HasValue (Float.ofNat 0).toModel.unpack 0 := .zero .positive
  simp only [clamp, positivePart, Length.less, Length.ofCount, decide_eq_true_iff]
  split_ifs with hneg hpos hless hless
  · exact ⟨0, hzero⟩
  · exact exists_hasValue_of_between hpos hless
  · exact exists_hasValue hfinite hneg
  · exact ⟨0, hzero⟩
  · exact exists_hasValue hfinite hneg

theorem start_le_stop (count overscan : Nat) (hheight : Config.isUsable height = true)
    (hviewport : Config.isUsable viewport = true) :
    (inView count height offset viewport overscan).start ≤
      (inView count height offset viewport overscan).stop := by
  simp only [inView]
  generalize ho : (if Length.isFinite offset then _ else _) = o
  obtain ⟨a, ha⟩ : ∃ a, HasValue o.toModel.unpack a := by
    rw [← ho]
    split_ifs with hfinite
    · exact exists_hasValue_clamp hfinite
    · exact ⟨0, .zero .positive⟩
  obtain ⟨h, hh, hhpos⟩ := exists_hasValue_of_isUsable hheight
  obtain ⟨v, hv, hvpos⟩ := exists_hasValue_of_isUsable hviewport
  obtain ⟨c, hc, hlast⟩ := exists_holds_div (holds_add ha hv hvpos) hh hhpos
  have hle : a ≤ nearest (a + v) :=
    calc a = nearest a := ha.nearest_eq.symm
      _ ≤ nearest (a + v) := nearest_mono ha.nonneg (le_add_of_nonneg_right hvpos.le)
  have hquotient : nearest (a / h) ≤ nearest (nearest (a + v) / h) :=
    nearest_mono (div_nonneg ha.nonneg hhpos.le) (div_le_div_of_nonneg_right hle hhpos.le)
  have hindex := floorIndex_le_ceilIndex (holds_div ha hh hhpos) hlast (hquotient.trans hc)
  show min (Length.floorIndex (o.div height) - overscan) count ≤
    min (Length.ceilIndex ((o.add viewport).div height) + overscan) count
  omega

theorem stop_le_count (count overscan : Nat) :
    (inView count height offset viewport overscan).stop ≤ count :=
  Nat.min_le_right ..

end Slice

end DynamicUi
