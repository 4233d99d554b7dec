import DynamicUi.Text.Basic
import Mathlib.Algebra.Group.Nat.Defs
import Mathlib.Data.List.Induction

/-! # Hexadecimal numbers of a fixed width

Digits stand for a number, which is written with as many digits as were read: they come back in
lower case. In turn a number is read from the digits that it is written with, up to those that do
not fit.
-/

namespace DynamicUi.Text.Hex

def isDigit (c : Char) : Bool :=
  c.isDigit || ('a' ≤ c && c ≤ 'f') || ('A' ≤ c && c ≤ 'F')

structure Digits (width : Nat) (cs : List Char) : Prop where
  length : cs.length = width
  digits : ∀ c ∈ cs, isDigit c = true

instance (width : Nat) (cs : List Char) : Decidable (Digits width cs) :=
  decidable_of_iff (cs.length = width ∧ cs.all isDigit = true)
    ⟨fun h => ⟨h.1, List.all_eq_true.mp h.2⟩, fun h => ⟨h.1, List.all_eq_true.mpr h.2⟩⟩

/-! ## One digit -/

theorem isSome_digitValue? (c : Char) : (digitValue? c).isSome = isDigit c := by
  have hle : ∀ a b : Char, a ≤ b ↔ a.toNat ≤ b.toNat := fun a b => UInt32.le_iff_toNat_le
  have hdigit : c.isDigit = decide (48 ≤ c.toNat ∧ c.toNat ≤ 57) := by
    rw [Bool.eq_iff_iff, Char.isDigit, Bool.and_eq_true, decide_eq_true_eq, decide_eq_true_eq,
      decide_eq_true_eq]
    exact and_congr UInt32.le_iff_toNat_le UInt32.le_iff_toNat_le
  rw [Bool.eq_iff_iff, isDigit, hdigit]
  simp only [digitValue?, hle, Bool.or_eq_true, Bool.and_eq_true, decide_eq_true_eq]
  show _ ↔ (48 ≤ c.toNat ∧ c.toNat ≤ 57 ∨ 97 ≤ c.toNat ∧ c.toNat ≤ 102) ∨
    65 ≤ c.toNat ∧ c.toNat ≤ 70
  split_ifs with hdecimal hlower hupper
  · simp [hdecimal]
  · simp [hlower]
  · simp [hupper]
  · simp [hdecimal, hlower, hupper]

theorem digitValue?_digit {d : Nat} (h : d < 16) : digitValue? (digit d) = some d := by
  revert d
  decide

/-- A digit that is written for the value of another is that one in lower case. -/
theorem digit_of_digitValue? {c : Char} {d : Nat} (h : digitValue? c = some d) :
    d < 16 ∧ digit d = c.toLower := by
  have htable : ∀ n < 103, ∀ d ∈ digitValue? (Char.ofNat n),
      d < 16 ∧ digit d = (Char.ofNat n).toLower := by decide
  have hlt : c.toNat < 103 := by
    simp only [digitValue?, Bool.and_eq_true, decide_eq_true_eq] at h
    split_ifs at h <;> omega
  have hc : Char.ofNat c.toNat = c := Char.ofNat_toNat c
  have hd := htable c.toNat hlt
  rw [hc] at hd
  exact hd d h

/-! ## Runs of digits -/

theorem valueFrom?_append (high : Nat) (cs cs' : List Char) :
    valueFrom? high (cs ++ cs') = (valueFrom? high cs).bind fun n => valueFrom? n cs' := by
  induction cs generalizing high with
  | nil => rfl
  | cons c cs ih =>
    simp only [List.cons_append, valueFrom?, Option.bind_assoc, ih]

theorem value?_concat (cs : List Char) (c : Char) :
    value? (cs ++ [c]) = (value? cs).bind fun n => (digitValue? c).map (16 * n + ·) := by
  rw [value?, valueFrom?_append]
  congr 1
  funext n
  cases hd : digitValue? c <;> simp [valueFrom?, hd]

theorem length_padded (width n : Nat) : (padded width n).length = width := by
  induction width generalizing n with
  | zero => rfl
  | succ width ih => rw [padded, List.length_append, ih, List.length_singleton]

theorem value?_padded (width n : Nat) : value? (padded width n) = some (n % 16 ^ width) := by
  induction width generalizing n with
  | zero => simp [padded, value?, valueFrom?, Nat.mod_one]
  | succ width ih =>
    have hdigit := digitValue?_digit (Nat.mod_lt n (by decide : 0 < 16))
    rw [padded, value?_concat, ih, hdigit, Option.bind_some, Option.map_some, Nat.pow_succ',
      Nat.mod_mul, Nat.add_comm]

theorem padded_of_value? {cs : List Char} {n : Nat} (h : value? cs = some n) :
    n < 16 ^ cs.length ∧ padded cs.length n = cs.map Char.toLower := by
  induction cs using List.reverseRecOn generalizing n with
  | nil =>
    obtain rfl : 0 = n := Option.some.inj h
    exact ⟨Nat.one_pos, rfl⟩
  | append_singleton cs c ih =>
    rw [value?_concat] at h
    obtain ⟨high, hhigh, hlow⟩ := Option.bind_eq_some_iff.mp h
    obtain ⟨d, hd, rfl⟩ := Option.map_eq_some_iff.mp hlow
    obtain ⟨hlt, hpadded⟩ := ih hhigh
    obtain ⟨hd16, hdigit⟩ := digit_of_digitValue? hd
    have hdiv : (16 * high + d) / 16 = high := by omega
    have hmod : (16 * high + d) % 16 = d := by omega
    constructor
    · rw [List.length_append, List.length_singleton, Nat.pow_succ]
      omega
    · rw [List.length_append, List.length_singleton, padded, hdiv, hmod, hpadded, hdigit,
        List.map_append, List.map_singleton]

theorem isSome_value?_iff (cs : List Char) :
    (value? cs).isSome = true ↔ ∀ c ∈ cs, isDigit c = true := by
  induction cs using List.reverseRecOn with
  | nil => simp [value?, valueFrom?]
  | append_singleton cs c ih =>
    rw [value?_concat, List.forall_mem_append, List.forall_mem_singleton, ← ih,
      ← isSome_digitValue?]
    cases value? cs <;> cases digitValue? c <;> simp

end DynamicUi.Text.Hex
