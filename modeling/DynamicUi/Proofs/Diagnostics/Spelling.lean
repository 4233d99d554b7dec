import DynamicUi.Diagnostics.Uuid
import DynamicUi.Proofs.Text.Hex

/-! # Spellings of identifiers

A spelling is lawful if it takes thirty-two digits for an identifier, and no other text without a
hyphen, and writes the digits of one in lower case and in their places. Which identifier is read is
settled by that: it is the one written with the same digits. The spelling with plain, grouped and
marked forms is lawful, since without a hyphen only the plain form comes up.
-/

namespace DynamicUi.Uuid

open Text

namespace Spelling

structure Lawful (s : Spelling) : Prop where
  /-- Without a hyphen, thirty-two digits in either case are read, and nothing else. -/
  accepts {text : String} (h : '-' ∉ text.toList) :
    (s.read? text).isSome = true ↔ Hex.Digits 32 text.toList
  inverse (u : Uuid) : s.read? (s.plain u) = some u
  digits (u : Uuid) : Hex.Digits 32 (s.plain u).toList
  lower (u : Uuid) : (s.plain u).toList.map Char.toLower = (s.plain u).toList
  /-- The first sixteen digits stand for the first eight bytes, the others for the last eight. -/
  positions {text : String} {u : Uuid} (h : '-' ∉ text.toList) (hu : s.read? text = some u) :
    Hex.value? (text.toList.take 16) = some u.high.toNat ∧
      Hex.value? (text.toList.drop 16) = some u.low.toNat

end Spelling

variable {s : Spelling}

/-! ## Thirty-two digits -/

theorem not_mem_of_digits {width : Nat} {cs : List Char} (h : Hex.Digits width cs) : '-' ∉ cs :=
  fun hmem => absurd (h.digits '-' hmem) (by decide)

theorem simpleChars_of_values {u : Uuid} {cs : List Char} (h : cs.length = 32)
    (hhigh : Hex.value? (cs.take 16) = some u.high.toNat)
    (hlow : Hex.value? (cs.drop 16) = some u.low.toNat) :
    u.simpleChars = cs.map Char.toLower := by
  have hfront := (Hex.padded_of_value? hhigh).2
  have hback := (Hex.padded_of_value? hlow).2
  rw [List.length_take, h] at hfront
  rw [List.length_drop, h] at hback
  calc u.simpleChars = (cs.take 16).map Char.toLower ++ (cs.drop 16).map Char.toLower :=
        congrArg₂ (· ++ ·) hfront hback
    _ = cs.map Char.toLower := by rw [← List.map_append, List.take_append_drop]

theorem Spelling.Lawful.toList_plain (hs : s.Lawful) (u : Uuid) :
    (s.plain u).toList = u.simpleChars := by
  obtain ⟨hhigh, hlow⟩ := hs.positions (not_mem_of_digits (hs.digits u)) (hs.inverse u)
  rw [simpleChars_of_values (hs.digits u).length hhigh hlow, hs.lower u]

theorem Spelling.Lawful.exists_read? (hs : s.Lawful) {text : String}
    (h : Hex.Digits 32 text.toList) :
    ∃ u, s.read? text = some u ∧ (s.plain u).toList = text.toList.map Char.toLower := by
  have hplain := not_mem_of_digits h
  obtain ⟨u, hu⟩ := Option.isSome_iff_exists.mp ((hs.accepts hplain).mpr h)
  obtain ⟨hhigh, hlow⟩ := hs.positions hplain hu
  exact ⟨u, hu, (hs.toList_plain u).trans (simpleChars_of_values h.length hhigh hlow)⟩

/-! ## The plain form -/

theorem length_simpleChars (u : Uuid) : u.simpleChars.length = 32 := by
  simp [simpleChars, Hex.length_padded]

theorem take_simpleChars (u : Uuid) : u.simpleChars.take 16 = Hex.padded 16 u.high.toNat :=
  List.take_left' (Hex.length_padded ..)

theorem drop_simpleChars (u : Uuid) : u.simpleChars.drop 16 = Hex.padded 16 u.low.toNat :=
  List.drop_left' (Hex.length_padded ..)

theorem value?_half (n : UInt64) : Hex.value? (Hex.padded 16 n.toNat) = some n.toNat := by
  have hfits : n.toNat < 16 ^ 16 := n.toNat_lt
  rw [Hex.value?_padded, Nat.mod_eq_of_lt hfits]

theorem ofSimple?_eq {cs : List Char} (h : cs.length = 32) : ofSimple? cs =
    (Hex.value? (cs.take 16)).bind fun high =>
      (Hex.value? (cs.drop 16)).map fun low => ⟨.ofNat high, .ofNat low⟩ := by
  rw [ofSimple?, if_neg (not_not.mpr h)]
  cases Hex.value? (cs.take 16) <;> cases Hex.value? (cs.drop 16) <;> rfl

theorem ofSimple?_eq_none {cs : List Char} (h : cs.length ≠ 32) : ofSimple? cs = none :=
  if_pos h

theorem ofSimple?_simpleChars (u : Uuid) : ofSimple? u.simpleChars = some u := by
  rw [ofSimple?_eq u.length_simpleChars, take_simpleChars, drop_simpleChars, value?_half,
    value?_half, Option.bind_some, Option.map_some, UInt64.ofNat_toNat, UInt64.ofNat_toNat]

theorem isSome_ofSimple?_iff (cs : List Char) :
    (ofSimple? cs).isSome = true ↔ Hex.Digits 32 cs := by
  by_cases hlength : cs.length = 32
  · have hhalves : (∀ c ∈ cs, Hex.isDigit c = true) ↔
        (Hex.value? (cs.take 16)).isSome = true ∧ (Hex.value? (cs.drop 16)).isSome = true := by
      rw [Hex.isSome_value?_iff, Hex.isSome_value?_iff, ← List.forall_mem_append,
        List.take_append_drop]
    have hdigits : Hex.Digits 32 cs ↔ ∀ c ∈ cs, Hex.isDigit c = true :=
      ⟨Hex.Digits.digits, fun h => ⟨hlength, h⟩⟩
    rw [hdigits, hhalves, ofSimple?_eq hlength]
    cases Hex.value? (cs.take 16) <;> cases Hex.value? (cs.drop 16) <;> simp
  · rw [ofSimple?_eq_none hlength]
    exact iff_of_false nofun fun h => hlength h.length

theorem toNat_half {cs : List Char} {n : Nat} (hlength : cs.length = 16)
    (h : Hex.value? cs = some n) : (UInt64.ofNat n).toNat = n := by
  have hlt := (Hex.padded_of_value? h).1
  rw [hlength] at hlt
  have hfits : n < 2 ^ 64 := hlt
  rw [UInt64.toNat_ofNat', Nat.mod_eq_of_lt hfits]

theorem values_of_ofSimple? {cs : List Char} {u : Uuid} (h : ofSimple? cs = some u) :
    Hex.value? (cs.take 16) = some u.high.toNat ∧ Hex.value? (cs.drop 16) = some u.low.toNat := by
  have hlength : cs.length = 32 := ((isSome_ofSimple?_iff cs).mp (h ▸ rfl)).length
  rw [ofSimple?_eq hlength] at h
  obtain ⟨high, hhigh, hrest⟩ := Option.bind_eq_some_iff.mp h
  obtain ⟨low, hlow, rfl⟩ := Option.map_eq_some_iff.mp hrest
  rw [hhigh, hlow, toNat_half (by rw [List.length_take]; omega) hhigh,
    toNat_half (by rw [List.length_drop]; omega) hlow]
  exact ⟨rfl, rfl⟩

/-! ## Texts without a hyphen -/

theorem joined?_eq_none {n m : Nat} {ns : List Nat} {cs : List Char} (h : '-' ∉ cs) :
    joined? (n :: m :: ns) cs = none := by
  rw [joined?]
  · split
    · next rest hdrop => exact absurd (List.mem_of_mem_drop (hdrop ▸ List.mem_cons_self)) h
    · rfl
  · exact nofun

theorem ofHyphenated?_eq_none {cs : List Char} (h : '-' ∉ cs) : ofHyphenated? cs = none := by
  rw [ofHyphenated?, groups, joined?_eq_none h, Option.bind_none]

/-- Neither brace is a digit, and neither is the first letter of the mark in either case. -/
theorem ofSimple?_eq_none_of_mem {c : Char} {cs : List Char} (hc : c ∈ cs)
    (hdigit : Hex.isDigit c = false) : ofSimple? cs = none := by
  rw [← Option.not_isSome_iff_eq_none, isSome_ofSimple?_iff]
  intro h
  rw [h.digits c hc] at hdigit
  cases hdigit

theorem not_isDigit_of_toLower {c : Char} (h : c.toLower = 'u') : Hex.isDigit c = false := by
  have hletters : ∀ d < 16, Hex.digit d ≠ 'u' := by decide
  rw [← Hex.isSome_digitValue?, Option.isSome_eq_false_iff, Option.isNone_iff_eq_none]
  by_contra hsome
  obtain ⟨d, hd⟩ := Option.ne_none_iff_exists'.mp hsome
  obtain ⟨hlt, hdigit⟩ := Hex.digit_of_digitValue? hd
  exact hletters d hlt (hdigit.trans h)

theorem ofChars?_eq_ofSimple? {cs : List Char} (h : '-' ∉ cs) : ofChars? cs = ofSimple? cs := by
  rw [ofChars?]
  split_ifs with hbraces hmark
  · have hinner : '-' ∉ (cs.drop 1).dropLast :=
      fun hmem => h (List.mem_of_mem_drop ((List.dropLast_sublist _).subset hmem))
    obtain ⟨hfirst, -⟩ := Bool.and_eq_true_iff.mp hbraces
    have hbrace : '{' ∈ cs := List.mem_of_head? (of_decide_eq_true hfirst)
    rw [ofHyphenated?_eq_none hinner, ofSimple?_eq_none_of_mem hbrace (by decide)]
  · have hrest : '-' ∉ cs.drop urnMark.length := fun hmem => h (List.mem_of_mem_drop hmem)
    have hletter : 'u' ∈ cs.map Char.toLower :=
      (List.isPrefixOf_iff_prefix.mp hmark).subset (by decide)
    obtain ⟨c, hc, hlower⟩ := List.mem_map.mp hletter
    rw [ofHyphenated?_eq_none hrest, ofSimple?_eq_none_of_mem hc (not_isDigit_of_toLower hlower)]
  · rw [ofHyphenated?_eq_none h, Option.or_none]

theorem spelling_lawful : spelling.Lawful := by
  have hread : ∀ {text : String}, '-' ∉ text.toList →
      spelling.read? text = ofSimple? text.toList := ofChars?_eq_ofSimple?
  have hplain : ∀ u, (spelling.plain u).toList = u.simpleChars := fun _ => String.toList_ofList
  have hdigits : ∀ u, Hex.Digits 32 (spelling.plain u).toList := by
    intro u
    rw [hplain, ← isSome_ofSimple?_iff, ofSimple?_simpleChars]
    rfl
  constructor
  case accepts =>
    intro text h
    rw [hread h, isSome_ofSimple?_iff]
  case inverse =>
    intro u
    rw [hread (not_mem_of_digits (hdigits u)), hplain, ofSimple?_simpleChars]
  case digits => exact hdigits
  case lower =>
    intro u
    obtain ⟨hhigh, hlow⟩ := values_of_ofSimple? u.ofSimple?_simpleChars
    rw [hplain, ← simpleChars_of_values u.length_simpleChars hhigh hlow]
  case positions =>
    intro text u h hu
    exact values_of_ofSimple? (hread h ▸ hu)

end DynamicUi.Uuid
