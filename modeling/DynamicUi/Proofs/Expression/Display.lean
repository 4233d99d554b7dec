import DynamicUi.Expression.Display
import DynamicUi.Proofs.Decimal.Digits
import DynamicUi.Proofs.Decimal.Places
import DynamicUi.Proofs.Decimal.Reading
import DynamicUi.Proofs.Expression.Reading
import DynamicUi.Proofs.Text.Trim
import Mathlib.Data.List.DropRight
import Mathlib.Data.Nat.Cast.Field

/-! # Results are read as they are shown

The text of a result is its sign and its ten places, in digits. Read again, the places give the
value that is nearest to them, and of this value they are the places again. The sign is kept, save
that a negative value without a digit in its ten places is read as zero, which has no sign.
-/

namespace DynamicUi.Expression

open Decimal

/-! ## Zeros at the end -/

theorem dropTrailing_append {c d : Char} (h : d ≠ c) (cs ds : List Char) :
    dropTrailing c (cs ++ d :: ds) = cs ++ d :: dropTrailing c ds := by
  simp only [dropTrailing, List.reverse_append, List.reverse_cons, List.append_assoc,
    List.singleton_append, List.dropWhile_append]
  split
  · next hnone => simp [h, List.isEmpty_iff.mp hnone]
  · simp

theorem exists_append_replicate (c : Char) (cs : List Char) :
    ∃ k, dropTrailing c cs ++ List.replicate k c = cs := by
  refine ⟨(cs.rtakeWhile (· = c)).length, ?_⟩
  have hall : cs.rtakeWhile (· = c) = List.replicate (cs.rtakeWhile (· = c)).length c :=
    List.eq_replicate_of_mem fun d hd => by simpa using List.mem_rtakeWhile_imp hd
  rw [← hall]
  exact List.rdropWhile_append_rtakeWhile ..

theorem dropTrailing_point {cs ds : List Char} (hne : ds ≠ [])
    (hdigits : ∀ c ∈ ds, c.isDigit = true) : dropTrailing '.' (cs ++ ds) = cs ++ ds := by
  apply List.rdropWhile_eq_self_iff.mpr
  intro hl hpoint
  rw [List.getLast_append_of_ne_nil hl hne, decide_eq_true_iff] at hpoint
  have hdigit := hdigits _ (List.getLast_mem hne)
  rw [hpoint] at hdigit
  cases hdigit

/-! ## Digits with a point among them -/

/-- The digits before and after a point, which does not end the text. -/
def pointed (whole : List Char) : List Char → List Char
  | [] => whole
  | c :: cs => whole ++ '.' :: c :: cs

section

variable {whole fraction : List Char} (hwhole : ∀ c ∈ whole, c.isDigit = true)
  (hfraction : ∀ c ∈ fraction, c.isDigit = true)

include hwhole

theorem takeWhile_pointed : (pointed whole fraction).takeWhile Char.isDigit = whole := by
  cases fraction with
  | nil => exact List.takeWhile_eq_self_iff.mpr hwhole
  | cons c cs =>
    rw [pointed, List.takeWhile_append_of_pos hwhole, List.takeWhile_cons_of_neg (by decide),
      List.append_nil]

theorem drop_dropWhile_pointed :
    ((pointed whole fraction).dropWhile Char.isDigit).drop 1 = fraction := by
  cases fraction with
  | nil => rw [pointed, List.dropWhile_eq_nil_iff.mpr hwhole, List.drop_nil]
  | cons c cs =>
    rw [pointed, List.dropWhile_append_of_pos hwhole, List.dropWhile_cons_of_neg (by decide),
      List.drop_one, List.tail_cons]

theorem numeralValue_pointed :
    numeralValue (pointed whole fraction) = readParts whole fraction 0 := by
  rw [numeralValue, takeWhile_pointed hwhole, drop_dropWhile_pointed hwhole]

include hfraction

theorem isNumeral_pointed (hne : whole ≠ []) : IsNumeral (pointed whole fraction) := by
  obtain ⟨d, hd⟩ := List.exists_mem_of_ne_nil whole hne
  cases fraction with
  | nil =>
    refine ⟨fun c hc => ?_, ⟨d, hd, hwhole d hd⟩, ?_⟩
    · rw [isNumberChar, hwhole c hc, Bool.true_or]
    · exact (count_point_of_digits hwhole).trans_le zero_le_one
  | cons c cs =>
    refine ⟨fun e he => ?_, ⟨d, List.mem_append_left _ hd, hwhole d hd⟩, ?_⟩
    · rcases List.mem_append.mp he with he | he
      · rw [isNumberChar, hwhole e he, Bool.true_or]
      · rcases List.mem_cons.mp he with rfl | he
        · rfl
        · rw [isNumberChar, hfraction e he, Bool.true_or]
    · rw [pointed, List.count_append, List.count_cons_self, count_point_of_digits hwhole,
        count_point_of_digits hfraction]

end

/-! ## The text of the places -/

def fraction (n : ℕ) : List Char := dropTrailing '0' (lastDigits 10 n)

def tenthsText (n : ℕ) : List Char := pointed (Nat.toDigits 10 (n / 10 ^ 10)) (fraction n)

theorem isDigit_of_mem_whole {n : ℕ} : ∀ c ∈ Nat.toDigits 10 n, c.isDigit = true :=
  fun _ => Nat.isDigit_of_mem_toDigits (by decide) (by decide)

theorem isDigit_of_mem_fraction {n : ℕ} : ∀ c ∈ fraction n, c.isDigit = true :=
  fun _ hc => isDigit_of_mem_lastDigits ((List.rdropWhile_prefix _ _).subset hc)

theorem isNumeral_tenthsText (n : ℕ) : IsNumeral (tenthsText n) :=
  isNumeral_pointed isDigit_of_mem_whole isDigit_of_mem_fraction Nat.toDigits_ne_nil

theorem dropTrailing_placePoint (sign : List Char) (n : ℕ) :
    dropTrailing '.' (dropTrailing '0' (sign ++ placePoint n 10)) = sign ++ tenthsText n := by
  have hwhole : Nat.toDigits 10 (n / 10 ^ 10) ≠ [] := Nat.toDigits_ne_nil
  rw [placePoint_eq, ← List.append_assoc, dropTrailing_append (by decide), tenthsText]
  change dropTrailing '.' (_ ++ '.' :: fraction n) = _
  have hdigits := @isDigit_of_mem_fraction n
  cases hfraction : fraction n with
  | nil =>
    have hpoint : dropTrailing '.' (sign ++ Nat.toDigits 10 (n / 10 ^ 10) ++ ['.']) =
        dropTrailing '.' (sign ++ Nat.toDigits 10 (n / 10 ^ 10)) :=
      List.rdropWhile_concat_pos _ _ _ (by decide)
    rw [hpoint, dropTrailing_point hwhole isDigit_of_mem_whole, pointed]
  | cons c cs =>
    rw [hfraction] at hdigits
    rw [List.append_cons, dropTrailing_point (List.cons_ne_nil c cs) hdigits, pointed,
      List.append_assoc, List.append_assoc, List.singleton_append]

theorem tenthsText_mul (k : ℕ) : tenthsText (k * 10 ^ 10) = Nat.toDigits 10 k := by
  rw [tenthsText, fraction, lastDigits_mul_pow, Nat.mul_div_cancel _ (by positivity)]
  rfl

theorem length_fraction_le (n : ℕ) : (fraction n).length ≤ 10 :=
  (List.rdropWhile_prefix _ _).length_le.trans (length_lastDigits 10 n).le

theorem digitsValue_div (n : ℕ) :
    (digitsValue (Nat.toDigits 10 (n / 10 ^ 10) ++ fraction n) / 10 ^ (fraction n).length : ℚ) =
      n / 10 ^ 10 := by
  obtain ⟨k, hk⟩ := exists_append_replicate '0' (lastDigits 10 n)
  change fraction n ++ _ = _ at hk
  have hlength : (fraction n).length + k = 10 := by
    rw [← length_lastDigits 10 n, ← hk, List.length_append, List.length_replicate]
  have hvalue := digitsValue_lastDigits 10 n
  rw [← hk, ← List.append_assoc, digitsValue_append_zeros] at hvalue
  have hpow : (10 ^ 10 : ℚ) = 10 ^ (fraction n).length * 10 ^ k := by rw [← pow_add, hlength]
  rw [hpow, ← mul_div_mul_right _ _ (by positivity : (10 ^ k : ℚ) ≠ 0)]
  congr 1
  exact_mod_cast hvalue

theorem holds_tenthsText (n : ℕ) : Holds (numeralValue (tenthsText n)) (nearest (n / 10 ^ 10)) := by
  rw [tenthsText, numeralValue_pointed isDigit_of_mem_whole, readParts, zero_sub,
    ← digitsValue_div]
  exact holds_read _ ((length_fraction_le n).trans (by decide))

theorem tenthsText_eq_zero_iff {n : ℕ} : tenthsText n = ['0'] ↔ n = 0 := by
  constructor
  · intro h
    have hvalue := digitsValue_div n
    unfold tenthsText at h
    cases hfraction : fraction n with
    | nil =>
      rw [hfraction, pointed] at h
      rw [hfraction, h] at hvalue
      have hzero : (n : ℚ) = 0 := by simpa [digitsValue, digitValue] using hvalue.symm
      exact_mod_cast hzero
    | cons c cs =>
      have hlength := congrArg List.length h
      rw [hfraction, pointed, List.length_append] at hlength
      simp only [List.length_cons, List.length_nil] at hlength
      omega
  · rintro rfl
    exact tenthsText_mul 0

/-! ## The text of a result -/

/-- The sign, which zero does not have, and the ten places. -/
def valueText (negative : Bool) (a : ℚ) : List Char :=
  (if negative = true ∧ a ≠ 0 then ['-'] else []) ++ tenthsText (tenths a).toNat

variable {x : Float} {negative : Bool} {a : ℚ}

theorem isNaN_of_isFinite (h : isFinite x = true) : isNaN x = false := by
  rw [isNaN, h]
  rfl

theorem valueText_natCast (n : ℕ) : valueText negative n =
    (if negative = true ∧ n ≠ 0 then ['-'] else []) ++ Nat.toDigits 10 n := by
  have htenths : tenths n = n * 10 ^ 10 := tenths_intCast n
  have hnat : (tenths n).toNat = n * 10 ^ 10 := by omega
  simp only [valueText, hnat, tenthsText_mul, ne_eq, Nat.cast_eq_zero]

theorem placesText_eq (h : Reads x negative a) (ha : a ≠ 0) :
    placesText x = valueText negative a := by
  have hdenominator : 0 < (Binary.ofFloat x).denominator := Nat.two_pow_pos _
  have hround : (roundDiv ((Binary.ofFloat x).numerator * Nat.pow 10 10)
      (Binary.ofFloat x).denominator : ℤ) = tenths a := by
    rw [roundDiv_eq _ hdenominator, tenths, ← h.value, Binary.value_eq_div, Nat.cast_mul,
      mul_div_right_comm]
    rfl
  rw [placesText, h.sign_eq ha, Binary.fixed, valueText, ← hround, Int.toNat_natCast]
  simp only [dropTrailing_placePoint, ne_eq, ha, not_false_eq_true, and_true]

theorem numberChars_eq (h : Reads x negative a) : numberChars x = valueText negative a := by
  have hvalue := h.value
  rw [Binary.value_eq_div] at hvalue
  simp only [numberChars, isNaN_of_isFinite h.finite, h.finite, Bool.not_true, Bool.false_eq_true,
    if_false]
  split
  · next hwhole =>
    rw [Bool.and_eq_true] at hwhole
    have hfloor : a = (Binary.ofFloat x).floor := by
      have hdvd := Nat.dvd_of_mod_eq_zero (of_decide_eq_true hwhole.1)
      rw [← hvalue, Binary.floor, Nat.cast_div hdvd (by exact_mod_cast (Nat.two_pow_pos _).ne')]
    rw [hfloor, valueText_natCast]
    by_cases hzero : (Binary.ofFloat x).floor = 0
    · simp [hzero]
    · have hsign := h.sign_eq (by rw [hfloor]; exact_mod_cast hzero)
      simp [hsign, hzero]
  · next hplaces =>
    refine placesText_eq h ?_
    rintro rfl
    have hdenominator : ((Binary.ofFloat x).denominator : ℚ) ≠ 0 :=
      Nat.cast_ne_zero.mpr (Nat.two_pow_pos _).ne'
    have hnumerator : (Binary.ofFloat x).numerator = 0 := by
      exact_mod_cast (div_eq_zero_iff.mp hvalue).resolve_right hdenominator
    exact hplaces (by simp [Binary.isIntegral, Binary.floor, hnumerator])

/-! ## Reading a text that is shown -/

theorem plainSign_eq_self {c : Char} (h : isNumberChar c = true ∨ isSign c = true) :
    plainSign c = c := by
  have hne : ∀ d, isNumberChar d = false → isSign d = false → c ≠ d := by
    rintro _ hnumber hsign rfl
    rcases h with h | h
    · exact absurd (hnumber.symm.trans h) (by decide)
    · exact absurd (hsign.symm.trans h) (by decide)
  simp [plainSign, hne '×' rfl rfl, hne 'x' rfl rfl, hne '÷' rfl rfl, hne '−' rfl rfl]

theorem isBlank_eq_false {c : Char} (h : isNumberChar c = true ∨ isSign c = true) :
    Text.isBlank c = false := by
  rcases h with h | h
  · by_cases hdigit : c.isDigit = true
    · exact Text.isBlank_of_isDigit hdigit
    · rw [point_of_isNumberChar h hdigit]
      decide
  · rw [isSign, Bool.or_eq_true, decide_eq_true_iff, decide_eq_true_iff] at h
    rcases h with rfl | rfl <;> decide

theorem normalize_ofList {cs : List Char} (h : ∀ c ∈ cs, isNumberChar c = true ∨ isSign c = true) :
    normalize (String.ofList cs) = cs := by
  have hfilter : cs.filter (!Text.isBlank ·) = cs :=
    List.filter_eq_self.mpr fun c hc => by rw [isBlank_eq_false (h c hc), Bool.not_false]
  rw [normalize, String.toList_ofList, hfilter,
    List.map_congr_left fun c hc => plainSign_eq_self (h c hc), List.map_id']

theorem evaluate_numeral (signs : List Sign) {run : List Char} (h : IsNumeral run)
    (hx : x = if Odd (signs.count .minus) then -numeralValue run else numeralValue run)
    (hfinite : isFinite x = true) :
    evaluate (String.ofList (signs.map Sign.char ++ run)) = .ok x := by
  let tree : Sum := .mk (.mk (.mk signs (.numeral run h)) .done) .done
  have htext : tree.text = signs.map Sign.char ++ run := by
    show signs.map Sign.char ++ run ++ [] ++ [] = _
    rw [List.append_nil, List.append_nil]
  have hvalue : tree.value = some x := hx ▸ rfl
  have hnormal : normalize (String.ofList tree.text) = tree.text := by
    refine normalize_ofList fun c hc => ?_
    rw [htext] at hc
    rcases List.mem_append.mp hc with hc | hc
    · obtain ⟨sign, -, rfl⟩ := List.mem_map.mp hc
      exact .inr (by cases sign <;> rfl)
    · exact .inl (h.chars c hc)
  rw [← htext, evaluate, hnormal, evaluateChars_text tree (Nat.zero_le _), hvalue]
  exact if_pos hfinite

theorem exists_evaluate (h : Reads x negative a) (hnonneg : 0 ≤ a) (hnearest : nearest a = a) :
    ∃ y, evaluate (numberText x) = .ok y ∧
      Reads y (decide (negative = true ∧ a ≠ 0)) (nearest (tenths a / 10 ^ 10)) := by
  have htenths : ((tenths a).toNat : ℤ) = tenths a := Int.toNat_of_nonneg (tenths_nonneg hnonneg)
  have hvalue : HasValue (numeralValue (tenthsText (tenths a).toNat)).toModel.unpack
      (nearest (tenths a / 10 ^ 10)) := by
    have hholds := holds_tenthsText (tenths a).toNat
    rw [← Int.cast_natCast, htenths] at hholds
    exact hholds.hasValue (nearest_tenths_lt hnonneg hnearest h.lt)
  have hnumeral := isNumeral_tenthsText (tenths a).toNat
  rw [numberText, numberChars_eq h, valueText]
  by_cases hminus : negative = true ∧ a ≠ 0
  · have hread := reads_neg hvalue
    refine ⟨_, ?_, by rwa [decide_eq_true hminus]⟩
    rw [if_pos hminus]
    exact evaluate_numeral [.minus] hnumeral (by simp) hread.finite
  · have hread := reads hvalue
    refine ⟨_, ?_, by rwa [decide_eq_false hminus]⟩
    rw [if_neg hminus]
    exact evaluate_numeral [] hnumeral (by simp) hread.finite

/-! ## Showing it again -/

theorem valueText_eq_minus_zero_iff (hnonneg : 0 ≤ a) :
    valueText negative a = ['-', '0'] ↔ negative = true ∧ a ≠ 0 ∧ tenths a = 0 := by
  have hplaces : tenthsText (tenths a).toNat = ['0'] ↔ tenths a = 0 := by
    rw [tenthsText_eq_zero_iff, Int.toNat_eq_zero]
    exact ⟨fun h => le_antisymm h (tenths_nonneg hnonneg), le_of_eq⟩
  by_cases hminus : negative = true ∧ a ≠ 0
  · rw [valueText, if_pos hminus, List.singleton_append, List.cons.injEq, hplaces]
    exact ⟨fun h => ⟨hminus.1, hminus.2, h.2⟩, fun h => ⟨rfl, h.2.2⟩⟩
  · rw [valueText, if_neg hminus, List.nil_append]
    refine iff_of_false (fun h => ?_) fun h => hminus ⟨h.1, h.2.1⟩
    have hdigit := (isNumeral_tenthsText (tenths a).toNat).chars '-' (h ▸ List.mem_cons_self)
    exact absurd hdigit (by decide)

theorem numberChars_of_reads {y : Float} (hnonneg : 0 ≤ a) (hnearest : nearest a = a)
    (h : Reads y (decide (negative = true ∧ a ≠ 0)) (nearest (tenths a / 10 ^ 10))) :
    numberChars y =
      if valueText negative a = ['-', '0'] then ['0'] else valueText negative a := by
  have hagain := tenths_nearest_tenths hnonneg hnearest
  have hzero : nearest (tenths a / 10 ^ 10) = 0 ↔ tenths a = 0 := by
    constructor
    · intro hzero
      rw [← hagain, hzero]
      exact tenths_intCast 0
    · intro hzero
      rw [hzero, Int.cast_zero, zero_div, nearest_zero]
  rw [numberChars_eq h, valueText, hagain]
  simp only [decide_eq_true_iff]
  split_ifs with hminus htext htext
  · exact absurd (hzero.mpr ((valueText_eq_minus_zero_iff hnonneg).mp htext).2.2) hminus.2
  · rw [valueText, if_pos hminus.1]
  · rw [((valueText_eq_minus_zero_iff hnonneg).mp htext).2.2]
    rfl
  · rw [valueText_eq_minus_zero_iff hnonneg] at htext
    rw [valueText, if_neg]
    rintro ⟨hnegative, hne⟩
    exact hminus ⟨⟨hnegative, hne⟩, fun h => htext ⟨hnegative, hne, hzero.mp h⟩⟩

/-- A result that is shown is read again, and shown as it was. Only a zero with a sign is not. -/
theorem numberText_settles (hfinite : isFinite x = true) :
    ∃ y, evaluate (numberText x) = .ok y ∧
      numberText y = if numberText x = "-0" then "0" else numberText x := by
  obtain ⟨a, h, hnonneg, hnearest⟩ := exists_reads hfinite
  obtain ⟨y, hread, hy⟩ := exists_evaluate h hnonneg hnearest
  have htext : numberText x = "-0" ↔ valueText (isNegative x) a = ['-', '0'] := by
    rw [numberText, numberChars_eq h, ← String.ofList_inj]
  refine ⟨y, hread, ?_⟩
  rw [numberText, numberChars_of_reads hnonneg hnearest hy]
  by_cases hzero : numberText x = "-0"
  · rw [if_pos hzero, if_pos (htext.mp hzero)]
  · rw [if_neg hzero, if_neg (hzero ∘ htext.mpr), numberText, numberChars_eq h]

theorem numberText_eq_minus_zero_iff (hfinite : isFinite x = true) :
    numberText x = "-0" ↔ isNegative x = true ∧
      0 < (Binary.ofFloat x).value ∧ (Binary.ofFloat x).value ≤ 1 / 2 / 10 ^ 10 := by
  obtain ⟨a, h, hnonneg, -⟩ := exists_reads hfinite
  rw [h.value, ← tenths_eq_zero_iff hnonneg, lt_iff_le_and_ne, and_iff_right hnonneg, ne_comm,
    ← valueText_eq_minus_zero_iff hnonneg, numberText, numberChars_eq h, ← String.ofList_inj]

end DynamicUi.Expression
