import DynamicUi.Decimal.Binary
import DynamicUi.Proofs.Decimal.Arithmetic

/-! # Magnitudes in their bits

What the bits of a float say about it is what its arithmetic works with. A sum, a product or a
quotient is found in the bits as it was rounded, unless it is too large.
-/

namespace DynamicUi.Decimal

open Float.Model Float.Model.UnpackedFloat

/-! ## Fields -/

theorem toNat_exponentField (bits : UInt64) :
    ((bits >>> 52) &&& 0x7FF).toNat = (@unpackExponent .binary64 bits.toBitVec).toNat := by
  simp only [unpackExponent, BitVec.toNat_cast, BitVec.extractLsb_toNat, UInt64.toNat_and,
    UInt64.toNat_shiftRight]
  exact Nat.and_two_pow_sub_one_eq_mod _ 11

theorem toNat_mantissaField (bits : UInt64) :
    (bits &&& 0xFFFFFFFFFFFFF).toNat = (@unpackMantissa .binary64 bits.toBitVec).toNat := by
  simp only [unpackMantissa, BitVec.toNat_cast, BitVec.extractLsb_toNat, UInt64.toNat_and]
  exact Nat.and_two_pow_sub_one_eq_mod _ 52

theorem toNat_signField (bits : UInt64) :
    (bits >>> 63).toNat = (@unpackSign .binary64 bits.toBitVec).toNat := by
  have hlt : bits.toNat / 2 ^ 63 < 2 := by
    have := bits.toNat_lt
    omega
  unfold unpackSign
  simp only [BitVec.toNat_cast, BitVec.extractLsb_toNat, UInt64.toNat_shiftRight]
  rw [← Nat.shiftRight_eq_div_pow] at hlt
  exact (Nat.mod_eq_of_lt hlt).symm

theorem toNat_one_append (v : BitVec 52) : (1#1 ++ v).toNat = 2 ^ 52 + v.toNat := by
  rw [BitVec.toNat_append, ← Nat.shiftLeft_add_eq_or_of_lt v.isLt, Nat.shiftLeft_eq]
  rfl

theorem isFinite_iff (x : Float) :
    isFinite x = true ↔ @unpackExponent .binary64 x.toBits.toBitVec ≠ -1#_ := by
  rw [isFinite, bne_iff_ne, ne_eq, ← UInt64.toNat_inj, toNat_exponentField, ne_eq,
    ← BitVec.toNat_inj]
  rfl

theorem isNaN_iff (x : Float) : isNaN x = true ↔
    isFinite x = false ∧ @unpackMantissa .binary64 x.toBits.toBitVec ≠ 0#_ := by
  rw [isNaN, Bool.and_eq_true, Bool.not_eq_true', bne_iff_ne, ne_eq, ← UInt64.toNat_inj,
    toNat_mantissaField, ne_eq, ← BitVec.toNat_inj]
  rfl

theorem isNegative_iff (x : Float) : isNegative x = true ↔
    Sign.ofBitVec (@unpackSign .binary64 x.toBits.toBitVec) = .negative := by
  rw [isNegative, decide_eq_true_iff, ← UInt64.toNat_inj, toNat_signField, Sign.ofBitVec]
  generalize @unpackSign .binary64 x.toBits.toBitVec = b
  obtain rfl | rfl : b = 0#1 ∨ b = 1#1 := by revert b; decide
  · exact iff_of_false (by decide) nofun
  · exact iff_of_true (by decide) rfl

/-! ## Floats unpacked -/

/-- A form of a float that says the same as its bits. -/
inductive Unpacks (x : Float) : UnpackedFloat → Prop
  | notANumber (hfinite : isFinite x = false) : Unpacks x .notANumber
  | infinity (s : Sign) (hfinite : isFinite x = false) (hnan : isNaN x = false)
    (hsign : isNegative x = true ↔ s = .negative) : Unpacks x (.infinity s)
  | zero (s : Sign) (hfinite : isFinite x = true)
    (hbinary : (Binary.ofFloat x).significand = 0) : Unpacks x (.zero s)
  | finite (s : Sign) {m : ℕ} {e : ℤ} (hm : 0 < m) (hfinite : isFinite x = true)
    (hsign : isNegative x = true ↔ s = .negative)
    (hsignificand : (Binary.ofFloat x).significand = m)
    (hexponent : (Binary.ofFloat x).exponent = e) (hcanonical : Canonical m e)
    (hgreatest : e ≤ 971) : Unpacks x (.finite s m e hm)

theorem unpacks (x : Float) : Unpacks x x.toModel.unpack := by
  show Unpacks x (UnpackedFloat.unpack .binary64 x.toBits.toBitVec)
  have hfinite := isFinite_iff x
  have hnan := isNaN_iff x
  have hsign := isNegative_iff x
  have hexponent := toNat_exponentField x.toBits
  have hmantissa := toNat_mantissaField x.toBits
  have hlt : (@unpackMantissa .binary64 x.toBits.toBitVec).toNat < 2 ^ 52 := BitVec.isLt _
  unfold UnpackedFloat.unpack
  dsimp only
  by_cases hmax : @unpackExponent .binary64 x.toBits.toBitVec = -1#_
  · rw [if_pos hmax]
    by_cases hm : @unpackMantissa .binary64 x.toBits.toBitVec = 0#_
    · rw [if_pos hm]
      exact .infinity _ (by simpa [hmax] using hfinite) (by simpa [hm] using hnan) hsign
    · rw [if_neg hm]
      exact .notANumber (by simpa [hmax] using hfinite)
  rw [if_neg hmax]
  by_cases hleast : @unpackExponent .binary64 x.toBits.toBitVec = 0#_
  · rw [if_pos hleast]
    by_cases hm : @unpackMantissa .binary64 x.toBits.toBitVec = 0#_
    · rw [dif_pos hm]
      exact .zero _ (hfinite.mpr hmax)
        (by simp [Binary.ofFloat, Binary.ofBits, hexponent, hmantissa, hleast, hm])
    · rw [dif_neg hm]
      refine .finite _ _ (hfinite.mpr hmax) hsign ?_ ?_ ⟨?_, ?_, ?_⟩ ?_
      · simp [Binary.ofFloat, Binary.ofBits, hexponent, hmantissa, hleast]
      · simp [Binary.ofFloat, Binary.ofBits, hexponent, hleast, Format.exponentBias]
      · omega
      all_goals simp [hleast, Format.exponentBias]
  · rw [if_neg hleast]
    have hltmax : (@unpackExponent .binary64 x.toBits.toBitVec).toNat < 2 ^ 11 := BitVec.isLt _
    have hmax : (@unpackExponent .binary64 x.toBits.toBitVec).toNat ≠ 2 ^ 11 - 1 := fun h =>
      hmax (BitVec.eq_of_toNat_eq h)
    have hleast : (@unpackExponent .binary64 x.toBits.toBitVec).toNat ≠ 0 := fun h =>
      hleast (BitVec.eq_of_toNat_eq h)
    have hone := toNat_one_append (@unpackMantissa .binary64 x.toBits.toBitVec)
    refine .finite _ _ (hfinite.mpr ‹_›) hsign ?_ ?_ ⟨?_, ?_, ?_⟩ ?_
    · simp [Binary.ofFloat, Binary.ofBits, hexponent, hmantissa, hleast, hone]
    · simp [Binary.ofFloat, Binary.ofBits, hexponent, hleast, Format.exponentBias]
    all_goals
      simp only [hone, Format.exponentBias]
      omega

/-! ## Packed and unpacked again -/

theorem ofBitVec_unpackSign {f : Format} (s : Sign) (e : BitVec f.exponentBits)
    (m : BitVec f.mantissaBitsWithoutImplicit) :
    Sign.ofBitVec (unpackSign (packComponents f s e m)) = s := by
  have h : unpackSign (packComponents f s e m) = s.toBitVec := by
    ext i hi
    obtain rfl : i = 0 := by omega
    unfold unpackSign
    simp [packComponents, BitVec.getLsbD_append, BitVec.getElem_append]
  rw [h]
  cases s <;> rfl

section

variable {m : ℕ} {e : ℤ} (s : Sign) (hm : 0 < m)

theorem biasedExponent_eq (e : ℤ) :
    (e + Format.binary64.exponentBias + (52 : ℕ)).toNat = (e + 1075).toNat := by
  show (e + (1023 : ℕ) + (52 : ℕ)).toNat = _
  omega

theorem unpack_pack_large (he : 971 < e) :
    (Float.Model.pack (.finite s m e hm)).unpack = .infinity s := by
  have hlarge : 2 ^ 11 ≤ (e + 1075).toNat + 1 := by omega
  show UnpackedFloat.unpack .binary64 (UnpackedFloat.pack .binary64 _) = _
  delta UnpackedFloat.pack
  dsimp only
  rw [biasedExponent_eq, if_pos hlarge]
  cases s <;> rfl

theorem unpack_pack_normal (h : Canonical m e) (hfull : 2 ^ 52 ≤ m) (he : e ≤ 971) :
    (Float.Model.pack (.finite s m e hm)).unpack = .finite s m e hm := by
  have hleast := h.least
  have hdigits := h.digits
  have hsmall : ¬2 ^ 11 ≤ (e + 1075).toNat + 1 := by omega
  have hlog : m.log2 + 1 = Format.binary64.mantissaBits :=
    le_antisymm ((Nat.log2_lt hm.ne').mpr hdigits)
      (Nat.succ_le_succ ((Nat.le_log2 hm.ne').mpr hfull))
  have hexponent : (BitVec.ofNat 11 (e + 1075).toNat).toNat = (e + 1075).toNat := by
    rw [BitVec.toNat_ofNat]
    omega
  have hmantissa : (1#1 ++ BitVec.ofNat 52 m).toNat = m := by
    rw [toNat_one_append, BitVec.toNat_ofNat]
    omega
  have hne : ∀ b : BitVec 11, b.toNat = 0 ∨ b.toNat = 2 ^ 11 - 1 →
      BitVec.ofNat 11 (e + 1075).toNat ≠ b := by
    rintro b hb rfl
    omega
  show UnpackedFloat.unpack .binary64 (UnpackedFloat.pack .binary64 _) = _
  delta UnpackedFloat.pack
  dsimp only
  rw [biasedExponent_eq, if_neg hsmall, if_pos hlog]
  unfold UnpackedFloat.unpack
  dsimp only
  rw [if_neg (unpackExponent_packComponents .. ▸ hne _ (.inr rfl)),
    if_neg (unpackExponent_packComponents .. ▸ hne _ (.inl rfl)), UnpackedFloat.finite.injEq]
  refine ⟨ofBitVec_unpackSign .., ?_, ?_⟩
  · rw [unpackMantissa_packComponents]
    exact hmantissa
  · rw [unpackExponent_packComponents, hexponent]
    show ((e + 1075).toNat : ℤ) - ((1023 : ℕ) + (52 : ℕ)) = e
    omega

theorem unpack_pack_subnormal (hlt : m < 2 ^ 52) :
    (Float.Model.pack (.finite s m (-1074) hm)).unpack = .finite s m (-1074) hm := by
  have hlog : m.log2 + 1 ≠ Format.binary64.mantissaBits :=
    (Nat.succ_lt_succ ((Nat.log2_lt hm.ne').mpr hlt)).ne
  have hmantissa : (BitVec.ofNat 52 m).toNat = m := by
    rw [BitVec.toNat_ofNat]
    omega
  have hne : BitVec.ofNat 52 m ≠ 0#52 := by
    intro h
    rw [h] at hmantissa
    exact hm.ne hmantissa
  show UnpackedFloat.unpack .binary64 (UnpackedFloat.pack .binary64 _) = _
  delta UnpackedFloat.pack
  dsimp only
  rw [if_neg (by decide), if_neg hlog]
  unfold UnpackedFloat.unpack
  dsimp only
  rw [if_neg (unpackExponent_packComponents .. ▸ by decide),
    if_pos (unpackExponent_packComponents ..), dif_neg (unpackMantissa_packComponents .. ▸ hne),
    UnpackedFloat.finite.injEq]
  refine ⟨ofBitVec_unpackSign .., ?_, ?_⟩
  · rw [unpackMantissa_packComponents]
    exact hmantissa
  · rw [unpackExponent_packComponents]
    rfl

theorem unpack_pack_finite (h : Canonical m e) (he : e ≤ 971) :
    (Float.Model.pack (.finite s m e hm)).unpack = .finite s m e hm := by
  by_cases hfull : 2 ^ 52 ≤ m
  · exact unpack_pack_normal s hm h hfull he
  · obtain rfl := h.full.resolve_left hfull
    exact unpack_pack_subnormal s hm (not_le.mp hfull)

end

/-! ## Magnitudes -/

/-- A float holds a value, or is infinite for one that is too large. -/
def Holds (x : Float) (a : ℚ) : Prop :=
  HasValue x.toModel.unpack a ∨ x.toModel.unpack = .infinity .positive ∧ 2 ^ (1024 : ℤ) ≤ a

theorem Holds.hasValue {x : Float} {a : ℚ} (h : Holds x a) (hlt : a < 2 ^ (1024 : ℤ)) :
    HasValue x.toModel.unpack a :=
  h.resolve_right fun hlarge => not_lt.mpr hlarge.2 hlt

theorem holds_pack {u : UnpackedFloat} {a : ℚ} (h : HasValue u a) :
    Holds (.ofModel (.pack u)) a := by
  cases h with
  | zero s => cases s <;> exact .inl (.zero _)
  | @finite m e hm h =>
    by_cases he : e ≤ 971
    · exact .inl ((unpack_pack_finite _ hm h he).symm ▸ .finite hm h)
    · refine .inr ⟨unpack_pack_large _ hm (not_le.mp he), ?_⟩
      have hm : (2 ^ (52 : ℤ) : ℚ) ≤ m := by exact_mod_cast h.full.resolve_right (by omega)
      have hpow : (2 ^ (972 : ℤ) : ℚ) ≤ 2 ^ e := zpow_le_zpow_right₀ one_le_two (not_le.mp he)
      calc (2 ^ (1024 : ℤ) : ℚ) = 2 ^ (52 : ℤ) * 2 ^ (972 : ℤ) := (zpow_add₀ two_ne_zero 52 972)
        _ ≤ m * 2 ^ e := mul_le_mul hm hpow (by positivity) (by positivity)

theorem holds_add {x y : Float} {a b : ℚ} (hx : HasValue x.toModel.unpack a)
    (hy : HasValue y.toModel.unpack b) (hb : 0 < b) : Holds (x.add y) (nearest (a + b)) :=
  holds_pack (hx.add hy hb)

theorem holds_mul {x y : Float} {a b : ℚ} (hx : HasValue x.toModel.unpack a)
    (hy : HasValue y.toModel.unpack b) (ha : 1 ≤ a) (hb : 0 < b) :
    Holds (x.mul y) (nearest (a * b)) :=
  holds_pack (hx.mul hy ha hb)

theorem holds_div {x y : Float} {a b : ℚ} (hx : HasValue x.toModel.unpack a)
    (hy : HasValue y.toModel.unpack b) (hb : 0 < b) : Holds (x.div y) (nearest (a / b)) :=
  holds_pack (hx.div hy hb)

theorem div_infinity {u : UnpackedFloat} {b : ℚ} (hu : HasValue u b) (hb : 0 < b) :
    (UnpackedFloat.infinity .positive).div .binary64 u = .infinity .positive := by
  cases hu with
  | zero => exact absurd hb (lt_irrefl 0)
  | finite => rfl

/-- An infinite float stands for every large value, so its quotients do too. -/
theorem exists_holds_div {x y : Float} {a b : ℚ} (hx : Holds x a)
    (hy : HasValue y.toModel.unpack b) (hb : 0 < b) :
    ∃ c, nearest (a / b) ≤ c ∧ Holds (x.div y) c := by
  rcases hx with hx | ⟨hx, -⟩
  · exact ⟨_, le_rfl, holds_div hx hy hb⟩
  · refine ⟨max (nearest (a / b)) (2 ^ (1024 : ℤ)), le_max_left _ _, .inr ⟨?_, le_max_right _ _⟩⟩
    show (Float.Model.pack (x.toModel.unpack.div .binary64 y.toModel.unpack)).unpack = _
    rw [hx, div_infinity hy hb]
    rfl

end DynamicUi.Decimal
