import DynamicUi.Spec.Decoder
import Mathlib.Data.List.Basic
import Mathlib.Data.List.TakeWhile

/-! # Texts without blank ends

Trimming leaves of a text that is not blank a text whose ends are not blank, and leaves such a text
as it is. The texts of numbers and the ids given to nodes are of this kind; such an id tells its
number.
-/

namespace DynamicUi

namespace Text

/-- A text with a first and a last character, neither of them blank. -/
structure Trimmed (s : String) : Prop where
  first : ∃ c, s.toList.head? = some c ∧ isBlank c = false
  last : ∃ c, s.toList.getLast? = some c ∧ isBlank c = false

theorem isBlank_of_printable {c : Char} (hlo : 0x20 < c.toNat) (hhi : c.toNat < 0x85) :
    isBlank c = false := by
  apply Bool.eq_false_iff.mpr
  intro h
  simp [isBlank, blankRanges] at h
  omega

theorem isBlank_of_isDigit {c : Char} (h : c.isDigit = true) : isBlank c = false := by
  have hd : 48 ≤ c.val ∧ c.val ≤ 57 := by simpa [Char.isDigit] using h
  have hlo : 48 ≤ c.toNat := UInt32.le_iff_toNat_le.mp hd.1
  have hhi : c.toNat ≤ 57 := UInt32.le_iff_toNat_le.mp hd.2
  exact isBlank_of_printable (by omega) (by omega)

theorem isBlank_of_all {cs : List Char} (h : cs.all (fun c => !isBlank c) = true) {c : Char}
    (hc : c ∈ cs) : isBlank c = false := by
  simpa using List.all_eq_true.mp h c hc

theorem dropWhile_append_singleton {p : Char → Bool} {c : Char} (h : p c = false)
    (cs : List Char) : (cs ++ [c]).dropWhile p = cs.dropWhile p ++ [c] := by
  induction cs with
  | nil => simp [h]
  | cons d cs ih =>
    simp only [List.cons_append, List.dropWhile_cons, ih]
    split <;> rfl

theorem trimChars_eq_self {cs : List Char} (hf : ∀ c, cs.head? = some c → isBlank c = false)
    (hl : ∀ c, cs.getLast? = some c → isBlank c = false) : trimChars cs = cs := by
  have hkeep : ∀ {l : List Char}, (∀ c, l.head? = some c → isBlank c = false) →
      l.dropWhile isBlank = l := by
    intro l h
    cases l with
    | nil => rfl
    | cons c l => rw [List.dropWhile_cons_of_neg (by simp [h c rfl])]
  rw [trimChars, hkeep hf, hkeep (by simpa [List.head?_reverse] using hl), List.reverse_reverse]

namespace Trimmed

variable {s t : String}

theorem trim_eq (h : Trimmed s) : trim s = s := by
  obtain ⟨⟨c, hc, hcb⟩, ⟨d, hd, hdb⟩⟩ := h
  rw [trim, trimChars_eq_self, String.ofList_toList]
  · intro c' hc'
    rw [hc] at hc'
    exact Option.some.inj hc' ▸ hcb
  · intro d' hd'
    rw [hd] at hd'
    exact Option.some.inj hd' ▸ hdb

theorem allBlank_eq (h : Trimmed s) : allBlank s = false := by
  obtain ⟨c, hc, hb⟩ := h.first
  apply Bool.eq_false_iff.mpr
  intro ha
  rw [List.all_eq_true.mp ha c (List.mem_of_head? hc)] at hb
  cases hb

theorem ne_empty (h : Trimmed s) : s ≠ "" := by
  rintro rfl
  obtain ⟨c, hc, -⟩ := h.first
  cases hc

theorem append (hs : Trimmed s) (ht : Trimmed t) : Trimmed (s ++ t) := by
  obtain ⟨c, hc, hcb⟩ := hs.first
  obtain ⟨d, hd, hdb⟩ := ht.last
  constructor
  · exact ⟨c, by simp [String.toList_append, List.head?_append, hc], hcb⟩
  · exact ⟨d, by simp [String.toList_append, List.getLast?_append, hd], hdb⟩

theorem of_all (hne : s.toList ≠ []) (h : ∀ c ∈ s.toList, isBlank c = false) : Trimmed s := by
  constructor
  · exact ⟨_, List.head?_eq_some_head hne, h _ (List.head_mem hne)⟩
  · exact ⟨_, List.getLast?_eq_some_getLast hne, h _ (List.getLast_mem hne)⟩

end Trimmed

theorem exists_dropWhile_eq_cons {p : Char → Bool} {cs : List Char} (h : cs.all p = false) :
    ∃ c rest, cs.dropWhile p = c :: rest ∧ p c = false := by
  have hne : cs.dropWhile p ≠ [] := by
    intro hnil
    rw [List.all_eq_true.mpr (List.dropWhile_eq_nil_iff.mp hnil)] at h
    cases h
  obtain ⟨c, rest, hcs⟩ := List.exists_cons_of_ne_nil hne
  have hc := List.head_dropWhile_not p hne
  simp only [hcs, List.head_cons] at hc
  exact ⟨c, rest, hcs, hc⟩

theorem trimmed_trim {s : String} (h : allBlank s = false) : Trimmed (trim s) := by
  obtain ⟨c, rest, hcs, hc⟩ := exists_dropWhile_eq_cons h
  have hall : (rest.reverse ++ [c]).all isBlank = false := by simp [hc]
  obtain ⟨d, front, hrev, hd⟩ := exists_dropWhile_eq_cons hall
  have htrim : (trim s).toList = (d :: front).reverse := by
    rw [trim, String.toList_ofList, trimChars, hcs, List.reverse_cons, hrev]
  constructor
  · refine ⟨c, ?_, hc⟩
    rw [htrim, ← hrev, dropWhile_append_singleton hc]
    simp
  · exact ⟨d, by simp [htrim], hd⟩

theorem trim_of_allBlank {s : String} (h : allBlank s = true) : trim s = "" := by
  rw [trim, trimChars, List.dropWhile_eq_nil_iff.mpr (List.all_eq_true.mp h)]
  rfl

def trimStart (s : String) : String := String.ofList (s.toList.dropWhile isBlank)

theorem trim_trim (s : String) : trim (trim s) = trim s := by
  cases h : allBlank s with
  | false => exact (trimmed_trim h).trim_eq
  | true => rw [trim_of_allBlank h]; rfl

end Text

/-! ## Numerals -/

open Text

theorem isBlank_of_mem_digits {n : Nat} {c : Char} (h : c ∈ Nat.toDigits 10 n) :
    isBlank c = false :=
  isBlank_of_isDigit (Nat.isDigit_of_mem_toDigits (by decide) (by decide) h)

theorem trimmed_nat (n : Nat) : Trimmed (toString n) :=
  Trimmed.of_all (String.toList_ofList ▸ Nat.toDigits_ne_nil) fun _ hc =>
    isBlank_of_mem_digits (String.toList_ofList ▸ hc)

theorem trimmed_int (n : Int) : Trimmed (toString n) := by
  cases n with
  | ofNat n => exact trimmed_nat n
  | negSucc n =>
    have hminus : Trimmed "-" := .of_all (by decide) fun _ => isBlank_of_all (by decide)
    exact hminus.append (trimmed_nat _)

theorem mem_layout {d : Decimal.Scaled} {c : Char} (h : c ∈ Decimal.layout d) :
    c ∈ ['0', '.', 'e', '+', '-'] ∨ ∃ n, c ∈ Nat.toDigits 10 n := by
  unfold Decimal.layout Decimal.digitsText at h
  simp only at h
  split at h
  · split at h
    · simp only [List.mem_append, List.mem_replicate, List.mem_cons] at h
      rcases h with (h | ⟨-, rfl⟩) | h
      · exact .inr ⟨_, h⟩
      · simp
      · rcases h with rfl | rfl | h
        · simp
        · simp
        · cases h
    · split at h
      · rcases List.mem_append.mp h with h | h
        · exact .inr ⟨_, List.mem_of_mem_take h⟩
        · rcases List.mem_cons.mp h with rfl | h
          · simp
          · exact .inr ⟨_, List.mem_of_mem_drop h⟩
      · simp only [List.cons_append, List.mem_cons, List.mem_append, List.mem_replicate] at h
        rcases h with rfl | rfl | ⟨-, rfl⟩ | h
        · simp
        · simp
        · simp
        · exact .inr ⟨_, h⟩
  · rcases List.mem_append.mp h with h | h
    · rcases List.mem_append.mp h with h | h
      · exact .inr ⟨_, List.mem_of_mem_take h⟩
      · split at h
        · rcases List.mem_cons.mp h with rfl | h
          · simp
          · exact .inr ⟨_, List.mem_of_mem_drop h⟩
        · cases h
    · rcases List.mem_cons.mp h with rfl | h
      · simp
      · rcases List.mem_cons.mp h with rfl | h
        · split <;> simp
        · exact .inr ⟨_, h⟩

theorem isBlank_of_mem_layout {d : Decimal.Scaled} {c : Char} (h : c ∈ Decimal.layout d) :
    isBlank c = false := by
  have hplain : ∀ c ∈ ['0', '.', 'e', '+', '-'], isBlank c = false :=
    fun _ => isBlank_of_all (by decide)
  rcases mem_layout h with h | ⟨n, h⟩
  · exact hplain c h
  · exact isBlank_of_mem_digits h

theorem layout_ne_nil (d : Decimal.Scaled) : Decimal.layout d ≠ [] := by
  unfold Decimal.layout
  simp only
  split
  · split
    · simp
    · split <;> simp
  · simp

theorem trimmed_floatText (x : Float) : Trimmed (Decimal.floatText x) := by
  unfold Decimal.floatText
  apply Trimmed.of_all <;> simp only [String.toList_ofList]
  · apply List.append_ne_nil_of_right_ne_nil
    split
    · simp
    · exact layout_ne_nil _
  · have hzero : ∀ c ∈ ['0', '.', '0'], isBlank c = false := fun _ => isBlank_of_all (by decide)
    intro c hc
    rcases List.mem_append.mp hc with hc | hc
    · split at hc
      · rw [List.mem_singleton.mp hc]; decide
      · cases hc
    · split at hc
      · exact hzero c hc
      · exact isBlank_of_mem_layout hc

theorem trimmed_numberText (n : Json.Number) : Trimmed n.text := by
  cases n with
  | whole n => exact trimmed_int n
  | float x =>
    simp only [Json.Number.text]
    split
    · exact trimmed_floatText x
    · exact Trimmed.of_all (by decide) fun _ => isBlank_of_all (by decide)

/-! ## Ids -/

theorem trimmed_freshId {kind : String} (h : Trimmed kind) (n : Nat) :
    Trimmed (freshId kind n) := by
  have hdash : Trimmed "-" := .of_all (by decide) fun _ => isBlank_of_all (by decide)
  have he : freshId kind n = kind ++ "-" ++ toString n := rfl
  rw [he]
  exact (h.append hdash).append (trimmed_nat n)

theorem freshId_toList (kind : String) (n : Nat) :
    (freshId kind n).toList = kind.toList ++ '-' :: Nat.toDigits 10 n := by
  have h : freshId kind n = kind ++ "-" ++ toString n := rfl
  have hdash : "-".toList = ['-'] := rfl
  have hdigits : (toString n).toList = Nat.toDigits 10 n := String.toList_ofList
  rw [h, String.toList_append, String.toList_append, hdash, hdigits, List.append_assoc,
    List.singleton_append]

theorem dash_not_mem_digits (n : Nat) : '-' ∉ Nat.toDigits 10 n := by
  intro h
  have hdigit : '-'.isDigit = true := Nat.isDigit_of_mem_toDigits (by decide) (by decide) h
  exact absurd hdigit (by decide)

theorem digits_eq_of_suffix {front : List Char} {n m : Nat}
    (h : '-' :: Nat.toDigits 10 n = front ++ '-' :: Nat.toDigits 10 m) :
    Nat.toDigits 10 n = Nat.toDigits 10 m := by
  cases front with
  | nil => exact (List.cons.inj h).2
  | cons c front =>
    refine absurd ?_ (dash_not_mem_digits n)
    rw [(List.cons.inj h).2]
    exact List.mem_append_right front List.mem_cons_self

/-- What follows the last dash of a fresh id is its number. -/
theorem freshId_number {kind kind' : String} {n m : Nat} (h : freshId kind n = freshId kind' m) :
    n = m := by
  have hchars := congrArg String.toList h
  rw [freshId_toList, freshId_toList, List.append_eq_append_iff] at hchars
  have hdigits : Nat.toDigits 10 n = Nat.toDigits 10 m := by
    rcases hchars with ⟨front, -, hrest⟩ | ⟨front, -, hrest⟩
    · exact digits_eq_of_suffix hrest
    · exact (digits_eq_of_suffix hrest).symm
  rw [← @Nat.ofDigitChars_ten_toDigits n, hdigits, Nat.ofDigitChars_ten_toDigits]

theorem allBlank_freshId (kind : String) (n : Nat) : allBlank (freshId kind n) = false := by
  apply Bool.eq_false_iff.mpr
  intro h
  have hdash := List.all_eq_true.mp h '-' (by simp [freshId_toList])
  exact absurd hdash (by decide)

/-- Of a fresh id only the beginning can be blank, where the kind is. -/
theorem trim_freshId (kind : String) (n : Nat) :
    trim (freshId kind n) = freshId (trimStart kind) n := by
  let kept := kind.toList.dropWhile isBlank ++ '-' :: Nat.toDigits 10 n
  have hdash : ('-' :: Nat.toDigits 10 n).dropWhile isBlank = '-' :: Nat.toDigits 10 n :=
    List.dropWhile_cons_of_neg (by decide)
  have hfront : (freshId kind n).toList.dropWhile isBlank = kept := by
    rw [freshId_toList, List.dropWhile_append, hdash]
    split
    · next hempty => simp [kept, List.isEmpty_iff.mp hempty]
    · rfl
  have hlast : kept.getLast? = (Nat.toDigits 10 n).getLast? := by
    show (kind.toList.dropWhile isBlank ++ '-' :: Nat.toDigits 10 n).getLast? = _
    rw [List.append_cons]
    exact List.getLast?_append_of_ne_nil _ Nat.toDigits_ne_nil
  have hback : kept.reverse.dropWhile isBlank = kept.reverse := by
    cases hrev : kept.reverse with
    | nil => rfl
    | cons c cs =>
      have hc : kept.getLast? = some c := by rw [← List.head?_reverse, hrev, List.head?_cons]
      have hdigit := isBlank_of_mem_digits (List.mem_of_getLast? (hlast ▸ hc))
      exact List.dropWhile_cons_of_neg (by simp [hdigit])
  apply String.toList_inj.mp
  rw [trim, String.toList_ofList, trimChars, hfront, hback, List.reverse_reverse, freshId_toList,
    trimStart, String.toList_ofList]

end DynamicUi
