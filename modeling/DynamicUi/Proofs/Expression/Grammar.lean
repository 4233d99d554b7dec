import Mathlib.Algebra.Ring.Parity
import Mathlib.Data.List.Basic
import Mathlib.Data.List.TakeDrop
import Mathlib.Data.List.TakeWhile
import DynamicUi.Expression.Evaluation

/-! # The grammar of expressions

    sum     := product (('+' | '-') product)*
    product := factor (('*' | '/') factor)*
    factor  := '-' factor | '+' factor | atom
    atom    := numeral | '(' sum ')'

A derivation is a tree of one type for each line. Numerals never stand side by side, so each is a
maximal run of digits and points in the text. The value of a tree takes sums and products from the
left, and there is none where a divisor is zero.
-/

namespace DynamicUi.Expression

/-! ## Numerals -/

/-- Digits and points, with a digit and at most one point among them. -/
structure IsNumeral (run : List Char) : Prop where
  chars : ∀ c ∈ run, isNumberChar c = true
  digit : ∃ c ∈ run, c.isDigit = true
  points : run.count '.' ≤ 1

theorem IsNumeral.ne_nil {run : List Char} (h : IsNumeral run) : run ≠ [] := by
  obtain ⟨c, hc, -⟩ := h.digit
  exact List.ne_nil_of_mem hc

theorem IsNumeral.of_digit {c : Char} (h : c.isDigit = true) : IsNumeral [c] where
  chars := List.forall_mem_singleton.mpr (by rw [isNumberChar, h, Bool.true_or])
  digit := ⟨c, List.mem_cons_self, h⟩
  points := List.count_le_length

def numeralValue (run : List Char) : Float :=
  Decimal.readParts (run.takeWhile Char.isDigit) ((run.dropWhile Char.isDigit).drop 1) 0

theorem point_of_isNumberChar {c : Char} (h : isNumberChar c = true) (hc : ¬c.isDigit = true) :
    c = '.' := by
  simp only [isNumberChar, Bool.or_eq_true, decide_eq_true_eq] at h
  exact h.resolve_left hc

theorem all_isDigit_iff {cs : List Char} (h : ∀ c ∈ cs, isNumberChar c = true) :
    cs.all Char.isDigit = true ↔ cs.count '.' = 0 := by
  rw [List.all_eq_true, List.count_eq_zero]
  constructor
  · intro hall hpoint
    exact absurd (hall '.' hpoint) (by decide)
  · intro hpoint c hc
    by_contra hdigit
    exact hpoint (point_of_isNumberChar (h c hc) hdigit ▸ hc)

theorem count_point_of_digits {cs : List Char} (h : ∀ c ∈ cs, c.isDigit = true) :
    cs.count '.' = 0 :=
  List.count_eq_zero.mpr fun hpoint => absurd (h '.' hpoint) (by decide)

theorem literal?_eq_some_iff {run : List Char} (h : ∀ c ∈ run, isNumberChar c = true) {x : Float} :
    literal? run = some x ↔ IsNumeral run ∧ numeralValue run = x := by
  have hdigits : ∀ c ∈ run.takeWhile Char.isDigit, c.isDigit = true :=
    fun c hc => List.mem_takeWhile_imp hc
  have hsplit : run.takeWhile Char.isDigit ++ run.dropWhile Char.isDigit = run :=
    List.takeWhile_append_dropWhile
  have hstop := List.head?_dropWhile_not Char.isDigit run
  simp only [literal?, List.span_eq_takeWhile_dropWhile, numeralValue]
  generalize run.takeWhile Char.isDigit = whole at hdigits hsplit ⊢
  cases hrest : run.dropWhile Char.isDigit with
  | nil =>
    obtain rfl : whole = run := by simpa [hrest] using hsplit
    have hnumeral : IsNumeral whole ↔ ¬whole.isEmpty = true := by
      rw [List.isEmpty_iff]
      constructor
      · exact IsNumeral.ne_nil
      · intro hne
        obtain ⟨c, hc⟩ := List.exists_mem_of_ne_nil whole hne
        exact ⟨h, ⟨c, hc, hdigits c hc⟩, by rw [count_point_of_digits hdigits]; omega⟩
    rw [hnumeral, List.drop_nil, Option.ite_none_left_eq_some, Option.some.injEq]
  | cons d fraction =>
    rw [hrest] at hsplit hstop
    subst hsplit
    obtain rfl : d = '.' := by
      refine point_of_isNumberChar (h d (by simp)) ?_
      simpa using hstop
    have hfraction : ∀ c ∈ fraction, isNumberChar c = true := fun c hc => h c (by simp [hc])
    have hnumeral : IsNumeral (whole ++ '.' :: fraction) ↔
        (fraction.all Char.isDigit && !(whole.isEmpty && fraction.isEmpty)) = true := by
      have hcount : (whole ++ '.' :: fraction).count '.' = fraction.count '.' + 1 := by
        rw [List.count_append, count_point_of_digits hdigits, List.count_cons_self, Nat.zero_add]
      rw [Bool.and_eq_true, all_isDigit_iff hfraction]
      constructor
      · intro hn
        have hpoints := hn.points
        refine ⟨by omega, ?_⟩
        obtain ⟨c, hc, hdigit⟩ := hn.digit
        rcases List.mem_append.mp hc with hc | hc
        · simp [List.ne_nil_of_mem hc]
        · rcases List.mem_cons.mp hc with rfl | hc
          · cases hdigit
          · simp [List.ne_nil_of_mem hc]
      · rintro ⟨hpoints, hne⟩
        have hall := List.all_eq_true.mp ((all_isDigit_iff hfraction).mpr hpoints)
        refine ⟨h, ?_, by omega⟩
        cases whole with
        | cons c whole => exact ⟨c, by simp, hdigits c List.mem_cons_self⟩
        | nil =>
          cases fraction with
          | cons c fraction => exact ⟨c, by simp, hall c List.mem_cons_self⟩
          | nil => cases hne
    rw [hnumeral, List.drop_succ_cons, List.drop_zero, Option.ite_none_right_eq_some,
      Option.some.injEq]

/-! ## Trees -/

inductive Sign where
  | plus
  | minus
deriving DecidableEq

namespace Sign

def char : Sign → Char
  | plus => '+'
  | minus => '-'

def apply (x y : Float) : Sign → Float
  | plus => x + y
  | minus => x - y

theorem char_injective : Function.Injective char := by
  rintro (_ | _) (_ | _) h <;> first | rfl | exact absurd h (by decide)

end Sign

mutual

/-- A product, and the terms that are added to it or taken away from it. -/
inductive Sum where
  | mk (first : Product) (rest : Terms)

inductive Terms where
  | done
  | next (sign : Sign) (p : Product) (rest : Terms)

/-- A factor, and the factors that it is multiplied with or divided by. -/
inductive Product where
  | mk (first : Factor) (rest : Factors)

inductive Factors where
  | done
  | times (f : Factor) (rest : Factors)
  | dividedBy (f : Factor) (rest : Factors)

/-- An atom under a run of signs. -/
inductive Factor where
  | mk (signs : List Sign) (a : Atom)

inductive Atom where
  | numeral (run : List Char) (h : IsNumeral run)
  | parens (s : Sum)

end

mutual

/-- The text that a tree derives. -/
def Sum.text : Sum → List Char
  | .mk p ts => p.text ++ ts.text

def Terms.text : Terms → List Char
  | .done => []
  | .next sign p ts => sign.char :: (p.text ++ ts.text)

def Product.text : Product → List Char
  | .mk f fs => f.text ++ fs.text

def Factors.text : Factors → List Char
  | .done => []
  | .times f fs => '*' :: (f.text ++ fs.text)
  | .dividedBy f fs => '/' :: (f.text ++ fs.text)

def Factor.text : Factor → List Char
  | .mk signs a => signs.map Sign.char ++ a.text

def Atom.text : Atom → List Char
  | .numeral run _ => run
  | .parens s => '(' :: (s.text ++ [')'])

end

mutual

def Sum.depth : Sum → Nat
  | .mk p ts => max p.depth ts.depth

def Terms.depth : Terms → Nat
  | .done => 0
  | .next _ p ts => max p.depth ts.depth

def Product.depth : Product → Nat
  | .mk f fs => max f.depth fs.depth

def Factors.depth : Factors → Nat
  | .done => 0
  | .times f fs => max f.depth fs.depth
  | .dividedBy f fs => max f.depth fs.depth

def Factor.depth : Factor → Nat
  | .mk _ a => a.depth

def Atom.depth : Atom → Nat
  | .numeral .. => 0
  | .parens s => s.depth + 1

end

mutual

/-- The value, unless a divisor is zero. -/
def Sum.value : Sum → Option Float
  | .mk p ts => do ts.valueFrom (← p.value)

def Terms.valueFrom (x : Float) : Terms → Option Float
  | .done => some x
  | .next sign p ts => do ts.valueFrom (sign.apply x (← p.value))

def Product.value : Product → Option Float
  | .mk f fs => do fs.valueFrom (← f.value)

def Factors.valueFrom (x : Float) : Factors → Option Float
  | .done => some x
  | .times f fs => do fs.valueFrom (x * (← f.value))
  | .dividedBy f fs => do
    let y ← f.value
    if y == 0 then none else fs.valueFrom (x / y)

def Factor.value : Factor → Option Float
  | .mk signs a => do
    let x ← a.value
    return if Odd (signs.count .minus) then -x else x

def Atom.value : Atom → Option Float
  | .numeral run _ => some (numeralValue run)
  | .parens s => s.value

end

/-! ## Where a reading stops -/

def Stops (p : Char → Bool) (cs : List Char) : Prop := ∀ c, cs.head? = some c → p c = false

def extendsProduct (c : Char) : Bool := isNumberChar c || c = '*' || c = '/'

def extendsSum (c : Char) : Bool := extendsProduct c || isSign c

theorem stops_cons {p : Char → Bool} {c : Char} {cs : List Char} :
    Stops p (c :: cs) ↔ p c = false := by
  simp [Stops]

theorem Stops.mono {p q : Char → Bool} {cs : List Char} (hp : ∀ c, p c = true → q c = true)
    (h : Stops q cs) : Stops p cs := by
  intro c hc
  rw [Bool.eq_false_iff]
  intro hpc
  exact absurd (hp c hpc) (Bool.eq_false_iff.mp (h c hc))

theorem Stops.product {cs : List Char} (h : Stops extendsSum cs) : Stops extendsProduct cs :=
  h.mono fun c hc => by simp [extendsSum, hc]

theorem Stops.numeral {cs : List Char} (h : Stops extendsProduct cs) : Stops isNumberChar cs :=
  h.mono fun c hc => by simp [extendsProduct, hc]

theorem Terms.stops (ts : Terms) {rest : List Char} (h : Stops extendsSum rest) :
    Stops extendsProduct (ts.text ++ rest) := by
  cases ts with
  | done => exact h.product
  | next sign p ts => cases sign <;> exact stops_cons.mpr rfl

theorem Factors.stops (fs : Factors) {rest : List Char} (h : Stops extendsProduct rest) :
    Stops isNumberChar (fs.text ++ rest) := by
  cases fs with
  | done => exact h.numeral
  | times f fs | dividedBy f fs => exact stops_cons.mpr rfl

theorem IsNumeral.not_stops {run : List Char} (h : IsNumeral run) (rest : List Char) :
    ¬Stops isNumberChar (run ++ rest) := by
  obtain ⟨c, run, rfl⟩ := List.exists_cons_of_ne_nil h.ne_nil
  intro hstop
  exact absurd (h.chars c List.mem_cons_self) (Bool.eq_false_iff.mp (stops_cons.mp hstop))

theorem Atom.stops (a : Atom) (rest : List Char) : Stops isSign (a.text ++ rest) := by
  cases a with
  | numeral run h =>
    obtain ⟨c, run, rfl⟩ := List.exists_cons_of_ne_nil h.ne_nil
    have hc := h.chars c List.mem_cons_self
    refine stops_cons.mpr ?_
    by_contra hsign
    rw [isSign, Bool.not_eq_false, Bool.or_eq_true, decide_eq_true_eq, decide_eq_true_eq] at hsign
    rcases hsign with rfl | rfl <;> exact absurd hc (by decide)
  | parens s => exact stops_cons.mpr rfl

theorem span_append {p : Char → Bool} {run rest : List Char} (h : ∀ c ∈ run, p c = true)
    (hrest : Stops p rest) : (run ++ rest).span p = (run, rest) := by
  have hstop : rest.takeWhile p = [] ∧ rest.dropWhile p = rest := by
    cases rest with
    | nil => exact ⟨rfl, rfl⟩
    | cons c rest => simp [stops_cons.mp hrest]
  rw [List.span_eq_takeWhile_dropWhile, List.takeWhile_append_of_pos h,
    List.dropWhile_append_of_pos h, hstop.1, hstop.2, List.append_nil]

theorem span_signs (signs : List Sign) {rest : List Char} (h : Stops isSign rest) :
    (signs.map Sign.char ++ rest).span isSign = (signs.map Sign.char, rest) := by
  refine span_append ?_ h
  rw [List.forall_mem_map]
  rintro (_ | _) - <;> rfl

/-! ## No text has two derivations -/

mutual

theorem Sum.text_inj : ∀ (s s' : Sum) {r r' : List Char}, Stops extendsSum r →
    Stops extendsSum r' → s.text ++ r = s'.text ++ r' → s = s' ∧ r = r'
  | .mk p ts, .mk p' ts', r, r', hr, hr', h => by
    simp only [Sum.text, List.append_assoc] at h
    obtain ⟨rfl, htail⟩ := p.text_inj p' (ts.stops hr) (ts'.stops hr') h
    obtain ⟨rfl, rfl⟩ := ts.text_inj ts' hr hr' htail
    exact ⟨rfl, rfl⟩

theorem Terms.text_inj : ∀ (ts ts' : Terms) {r r' : List Char}, Stops extendsSum r →
    Stops extendsSum r' → ts.text ++ r = ts'.text ++ r' → ts = ts' ∧ r = r'
  | .done, .done, r, r', _, _, h => ⟨rfl, h⟩
  | .done, .next sign p ts, r, r', hr, _, h => by
    obtain rfl : r = _ := h
    cases sign <;> exact absurd (stops_cons.mp hr) (by decide)
  | .next sign p ts, .done, r, r', _, hr', h => by
    obtain rfl : _ = r' := h
    cases sign <;> exact absurd (stops_cons.mp hr') (by decide)
  | .next sign p ts, .next sign' p' ts', r, r', hr, hr', h => by
    simp only [Terms.text, List.cons_append, List.append_assoc, List.cons.injEq] at h
    obtain ⟨hsign, h⟩ := h
    obtain rfl := Sign.char_injective hsign
    obtain ⟨rfl, htail⟩ := p.text_inj p' (ts.stops hr) (ts'.stops hr') h
    obtain ⟨rfl, rfl⟩ := ts.text_inj ts' hr hr' htail
    exact ⟨rfl, rfl⟩

theorem Product.text_inj : ∀ (p p' : Product) {r r' : List Char}, Stops extendsProduct r →
    Stops extendsProduct r' → p.text ++ r = p'.text ++ r' → p = p' ∧ r = r'
  | .mk f fs, .mk f' fs', r, r', hr, hr', h => by
    simp only [Product.text, List.append_assoc] at h
    obtain ⟨rfl, htail⟩ := f.text_inj f' (fs.stops hr) (fs'.stops hr') h
    obtain ⟨rfl, rfl⟩ := fs.text_inj fs' hr hr' htail
    exact ⟨rfl, rfl⟩

theorem Factors.text_inj : ∀ (fs fs' : Factors) {r r' : List Char}, Stops extendsProduct r →
    Stops extendsProduct r' → fs.text ++ r = fs'.text ++ r' → fs = fs' ∧ r = r'
  | .done, .done, r, r', _, _, h => ⟨rfl, h⟩
  | .done, .times f fs, r, r', hr, _, h | .done, .dividedBy f fs, r, r', hr, _, h => by
    obtain rfl : r = _ := h
    exact absurd (stops_cons.mp hr) (by decide)
  | .times f fs, .done, r, r', _, hr', h | .dividedBy f fs, .done, r, r', _, hr', h => by
    obtain rfl : _ = r' := h
    exact absurd (stops_cons.mp hr') (by decide)
  | .times f fs, .dividedBy f' fs', r, r', _, _, h
  | .dividedBy f fs, .times f' fs', r, r', _, _, h => by
    simp [Factors.text] at h
  | .times f fs, .times f' fs', r, r', hr, hr', h
  | .dividedBy f fs, .dividedBy f' fs', r, r', hr, hr', h => by
    simp only [Factors.text, List.cons_append, List.append_assoc, List.cons.injEq, true_and] at h
    obtain ⟨rfl, htail⟩ := f.text_inj f' (fs.stops hr) (fs'.stops hr') h
    obtain ⟨rfl, rfl⟩ := fs.text_inj fs' hr hr' htail
    exact ⟨rfl, rfl⟩

theorem Factor.text_inj : ∀ (f f' : Factor) {r r' : List Char}, Stops isNumberChar r →
    Stops isNumberChar r' → f.text ++ r = f'.text ++ r' → f = f' ∧ r = r'
  | .mk signs a, .mk signs' a', r, r', hr, hr', h => by
    simp only [Factor.text, List.append_assoc] at h
    have hspan := congrArg (List.span isSign) h
    rw [span_signs signs (a.stops r), span_signs signs' (a'.stops r'), Prod.mk.injEq] at hspan
    obtain rfl := List.map_injective_iff.mpr Sign.char_injective hspan.1
    obtain ⟨rfl, rfl⟩ := a.text_inj a' hr hr' hspan.2
    exact ⟨rfl, rfl⟩

theorem Atom.text_inj : ∀ (a a' : Atom) {r r' : List Char}, Stops isNumberChar r →
    Stops isNumberChar r' → a.text ++ r = a'.text ++ r' → a = a' ∧ r = r'
  | .numeral run h₁, .numeral run' h₁', r, r', hr, hr', h => by
    have hspan := congrArg (List.span isNumberChar) h
    simp only [Atom.text] at hspan
    rw [span_append h₁.chars hr, span_append h₁'.chars hr', Prod.mk.injEq] at hspan
    obtain ⟨rfl, rfl⟩ := hspan
    exact ⟨rfl, rfl⟩
  | .numeral run hrun, .parens s, r, r', _, _, h => by
    have hstop := hrun.not_stops r
    rw [show run ++ r = '(' :: _ from h] at hstop
    exact absurd (stops_cons.mpr rfl) hstop
  | .parens s, .numeral run hrun, r, r', _, _, h => by
    have hstop := hrun.not_stops r'
    rw [show run ++ r' = '(' :: _ from h.symm] at hstop
    exact absurd (stops_cons.mpr rfl) hstop
  | .parens s, .parens s', r, r', _, _, h => by
    simp only [Atom.text, List.cons_append, List.append_assoc, List.cons.injEq, true_and] at h
    obtain ⟨rfl, htail⟩ := s.text_inj s' (stops_cons.mpr rfl) (stops_cons.mpr rfl) h
    exact ⟨rfl, (List.cons.inj htail).2⟩

end

end DynamicUi.Expression
