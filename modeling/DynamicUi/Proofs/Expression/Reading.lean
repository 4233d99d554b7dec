import Mathlib.Data.List.Count
import DynamicUi.Proofs.Expression.Grammar

/-! # Expressions are evaluated as the grammar derives them

What a parser accepts is derived by a tree of its kind. In turn the text of a tree is read to its
end, with the value of the tree, wherever the text after it stops the reading. Each step takes a
character or goes down one kind of tree, so four units of fuel for each character suffice.
-/

namespace DynamicUi.Expression

/-! ## What is accepted is derived -/

theorem ok_of_bind {α β : Type} {x : Except EvalError α} {f : α → Except EvalError β} {b : β}
    (h : (x >>= f) = .ok b) : ∃ a, x = .ok a ∧ f a = .ok b := by
  cases x with
  | error e => cases h
  | ok a => exact ⟨a, rfl, h⟩

/-- What a parser takes from a text is the text of a tree, with the value of this tree. -/
def Sound {τ : Type} (text : τ → List Char) (depth : τ → Nat) (value : τ → Option Float)
    (room : Nat) (parse : List Char → Except EvalError (Float × List Char)) : Prop :=
  ∀ cs x rest, parse cs = .ok (x, rest) →
    ∃ t, cs = text t ++ rest ∧ depth t ≤ room ∧ value t = some x

theorem number_sound {cs rest : List Char} {x : Float} (h : number cs = .ok (x, rest)) :
    ∃ run, IsNumeral run ∧ cs = run ++ rest ∧ some (numeralValue run) = some x := by
  rw [number, List.span_eq_takeWhile_dropWhile] at h
  dsimp only at h
  split at h
  · next x' hliteral =>
    have hchars : ∀ c ∈ cs.takeWhile isNumberChar, isNumberChar c = true :=
      fun c hc => List.mem_takeWhile_imp hc
    obtain ⟨hrun, rfl⟩ := (literal?_eq_some_iff hchars).mp hliteral
    cases h
    exact ⟨_, hrun, List.takeWhile_append_dropWhile.symm, rfl⟩
  · cases h

section Sound

variable {fuel : Nat}

theorem sumFrom_cons (fuel room : Nat) (x : Float) (sign : Sign) (cs : List Char) :
    sumFrom (fuel + 1) room x (sign.char :: cs) =
      (product fuel room cs >>= fun a => sumFrom fuel room (sign.apply x a.1) a.2) := by
  cases sign <;> simp only [Sign.char, sumFrom] <;> rfl

theorem sumFrom_cases (fuel room : Nat) (x : Float) (cs : List Char) :
    (∃ sign cs', cs = Sign.char sign :: cs') ∨ sumFrom (fuel + 1) room x cs = .ok (x, cs) := by
  unfold sumFrom
  split
  · exact .inl ⟨.plus, _, rfl⟩
  · exact .inl ⟨.minus, _, rfl⟩
  · exact .inr rfl

theorem sum_sound
    (hproduct : ∀ room, Sound Product.text Product.depth Product.value room (product fuel room))
    (hterms : ∀ room x, Sound Terms.text Terms.depth (Terms.valueFrom x) room
      (sumFrom fuel room x)) (room : Nat) :
    Sound Sum.text Sum.depth Sum.value room (sum (fuel + 1) room) := by
  intro cs y rest h
  rw [sum] at h
  obtain ⟨⟨x, mid⟩, hx, hy⟩ := ok_of_bind h
  obtain ⟨p, rfl, hp, hpx⟩ := hproduct room _ _ _ hx
  obtain ⟨ts, rfl, hts, htsy⟩ := hterms room x _ _ _ hy
  refine ⟨.mk p ts, ?_, Nat.max_le.mpr ⟨hp, hts⟩, ?_⟩
  · rw [Sum.text, List.append_assoc]
  · simp only [Sum.value, hpx, Option.bind_eq_bind, Option.bind_some, htsy]

theorem sumFrom_sound
    (hproduct : ∀ room, Sound Product.text Product.depth Product.value room (product fuel room))
    (hterms : ∀ room x, Sound Terms.text Terms.depth (Terms.valueFrom x) room
      (sumFrom fuel room x)) (room : Nat) (x : Float) :
    Sound Terms.text Terms.depth (Terms.valueFrom x) room (sumFrom (fuel + 1) room x) := by
  intro cs z rest h
  rcases sumFrom_cases fuel room x cs with ⟨sign, cs, rfl⟩ | hdone
  · rw [sumFrom_cons] at h
    obtain ⟨⟨y, mid⟩, hy, hz⟩ := ok_of_bind h
    obtain ⟨p, rfl, hp, hpy⟩ := hproduct room _ _ _ hy
    obtain ⟨ts, rfl, hts, htsz⟩ := hterms room (sign.apply x y) _ _ _ hz
    refine ⟨.next sign p ts, ?_, Nat.max_le.mpr ⟨hp, hts⟩, ?_⟩
    · rw [Terms.text, List.cons_append, List.append_assoc]
    · simp only [Terms.valueFrom, hpy, Option.bind_eq_bind, Option.bind_some, htsz]
  · obtain ⟨rfl, rfl⟩ : x = z ∧ cs = rest := by simpa [hdone] using h
    exact ⟨.done, rfl, Nat.zero_le _, rfl⟩

theorem product_sound
    (hfactor : ∀ room, Sound Factor.text Factor.depth Factor.value room (factor fuel room))
    (hfactors : ∀ room x, Sound Factors.text Factors.depth (Factors.valueFrom x) room
      (productFrom fuel room x)) (room : Nat) :
    Sound Product.text Product.depth Product.value room (product (fuel + 1) room) := by
  intro cs y rest h
  rw [product] at h
  obtain ⟨⟨x, mid⟩, hx, hy⟩ := ok_of_bind h
  obtain ⟨f, rfl, hf, hfx⟩ := hfactor room _ _ _ hx
  obtain ⟨fs, rfl, hfs, hfsy⟩ := hfactors room x _ _ _ hy
  refine ⟨.mk f fs, ?_, Nat.max_le.mpr ⟨hf, hfs⟩, ?_⟩
  · rw [Product.text, List.append_assoc]
  · simp only [Product.value, hfx, Option.bind_eq_bind, Option.bind_some, hfsy]

theorem productFrom_sound
    (hfactor : ∀ room, Sound Factor.text Factor.depth Factor.value room (factor fuel room))
    (hfactors : ∀ room x, Sound Factors.text Factors.depth (Factors.valueFrom x) room
      (productFrom fuel room x)) (room : Nat) (x : Float) :
    Sound Factors.text Factors.depth (Factors.valueFrom x) room
      (productFrom (fuel + 1) room x) := by
  intro cs z rest h
  unfold productFrom at h
  split at h
  · obtain ⟨⟨y, mid⟩, hy, hz⟩ := ok_of_bind h
    obtain ⟨f, rfl, hf, hfy⟩ := hfactor room _ _ _ hy
    obtain ⟨fs, rfl, hfs, hfsz⟩ := hfactors room (x * y) _ _ _ hz
    refine ⟨.times f fs, ?_, Nat.max_le.mpr ⟨hf, hfs⟩, ?_⟩
    · rw [Factors.text, List.cons_append, List.append_assoc]
    · simp only [Factors.valueFrom, hfy, Option.bind_eq_bind, Option.bind_some, hfsz]
  · obtain ⟨⟨y, mid⟩, hy, hz⟩ := ok_of_bind h
    obtain ⟨f, rfl, hf, hfy⟩ := hfactor room _ _ _ hy
    dsimp only at hz
    split at hz
    · cases hz
    · next hzero =>
      obtain ⟨fs, rfl, hfs, hfsz⟩ := hfactors room (x / y) _ _ _ hz
      refine ⟨.dividedBy f fs, ?_, Nat.max_le.mpr ⟨hf, hfs⟩, ?_⟩
      · rw [Factors.text, List.cons_append, List.append_assoc]
      · simp only [Factors.valueFrom, hfy, Option.bind_eq_bind, Option.bind_some, hzero, hfsz]
        rfl
  · cases h
    exact ⟨.done, rfl, Nat.zero_le _, rfl⟩

theorem exists_signs {cs : List Char} (h : ∀ c ∈ cs, isSign c = true) :
    ∃ signs : List Sign, signs.map Sign.char = cs := by
  induction cs with
  | nil => exact ⟨[], rfl⟩
  | cons c cs ih =>
    obtain ⟨hc, hcs⟩ := List.forall_mem_cons.mp h
    obtain ⟨signs, rfl⟩ := ih hcs
    rw [isSign, Bool.or_eq_true, decide_eq_true_eq, decide_eq_true_eq] at hc
    rcases hc with rfl | rfl
    · exact ⟨.plus :: signs, rfl⟩
    · exact ⟨.minus :: signs, rfl⟩

theorem negates_iff (signs : List Sign) :
    negates (signs.map Sign.char) = true ↔ Odd (signs.count .minus) := by
  have hcount : (signs.map Sign.char).count '-' = signs.count .minus :=
    List.count_map_of_injective signs Sign.char Sign.char_injective .minus
  rw [negates, hcount, decide_eq_true_eq, Nat.odd_iff]

theorem factor_sound
    (hatom : ∀ room, Sound Atom.text Atom.depth Atom.value room (atom fuel room)) (room : Nat) :
    Sound Factor.text Factor.depth Factor.value room (factor (fuel + 1) room) := by
  intro cs y rest h
  rw [factor, List.span_eq_takeWhile_dropWhile] at h
  obtain ⟨⟨x, mid⟩, hx, hy⟩ := ok_of_bind h
  obtain ⟨a, hdrop, ha, hax⟩ := hatom room _ _ _ hx
  obtain ⟨signs, hsigns⟩ := exists_signs fun c (hc : c ∈ cs.takeWhile isSign) =>
    List.mem_takeWhile_imp hc
  obtain ⟨rfl, rfl⟩ : (if negates (cs.takeWhile isSign) then -x else x) = y ∧ mid = rest := by
    simpa [pure, Except.pure] using hy
  refine ⟨.mk signs a, ?_, ha, ?_⟩
  · rw [Factor.text, List.append_assoc, ← hdrop, hsigns, List.takeWhile_append_dropWhile]
  · simp only [Factor.value, hax, ← hsigns, negates_iff, Option.bind_eq_bind, Option.bind_some]
    rfl

theorem atom_sound (hsum : ∀ room, Sound Sum.text Sum.depth Sum.value room (sum fuel room))
    (room : Nat) : Sound Atom.text Atom.depth Atom.value room (atom (fuel + 1) room) := by
  intro cs y rest h
  unfold atom at h
  split at h
  · cases h
  · split at h
    · cases h
    · next hroom =>
      obtain ⟨⟨x, mid⟩, hx, hy⟩ := ok_of_bind h
      obtain ⟨s, rfl, hs, hsx⟩ := hsum (room - 1) _ _ _ hx
      dsimp only at hy
      split at hy
      · cases hy
        refine ⟨.parens s, ?_, ?_, hsx⟩
        · simp [Atom.text]
        · rw [Atom.depth]
          omega
      · cases hy
      · cases hy
  · split at h
    · obtain ⟨run, hrun, htext, hvalue⟩ := number_sound h
      exact ⟨.numeral run hrun, htext, Nat.zero_le _, hvalue⟩
    · cases h

theorem sound (fuel : Nat) :
    (∀ room, Sound Sum.text Sum.depth Sum.value room (sum fuel room)) ∧
    (∀ room x, Sound Terms.text Terms.depth (Terms.valueFrom x) room (sumFrom fuel room x)) ∧
    (∀ room, Sound Product.text Product.depth Product.value room (product fuel room)) ∧
    (∀ room x, Sound Factors.text Factors.depth (Factors.valueFrom x) room
      (productFrom fuel room x)) ∧
    (∀ room, Sound Factor.text Factor.depth Factor.value room (factor fuel room)) ∧
    ∀ room, Sound Atom.text Atom.depth Atom.value room (atom fuel room) := by
  induction fuel with
  | zero => simp [Sound, sum, sumFrom, product, productFrom, factor, atom]
  | succ fuel ih =>
    obtain ⟨hsum, hterms, hproduct, hfactors, hfactor, hatom⟩ := ih
    exact ⟨sum_sound hproduct hterms, sumFrom_sound hproduct hterms, product_sound hfactor hfactors,
      productFrom_sound hfactor hfactors, factor_sound hatom, atom_sound hsum⟩

end Sound

/-! ## What is derived is read -/

def outcome (value : Option Float) (rest : List Char) : Except EvalError (Float × List Char) :=
  match value with
  | some x => .ok (x, rest)
  | none => .error .divisionByZero

theorem outcome_bind {value : Option Float} {mid rest : List Char} {next : Float → Option Float}
    {f : Float × List Char → Except EvalError (Float × List Char)}
    (h : ∀ x, f (x, mid) = outcome (next x) rest) :
    (outcome value mid >>= f) = outcome (value.bind next) rest := by
  cases value with
  | none => rfl
  | some x => exact h x

theorem number_reads {run rest : List Char} (h : IsNumeral run) (hrest : Stops isNumberChar rest) :
    number (run ++ rest) = .ok (numeralValue run, rest) := by
  have hliteral := (literal?_eq_some_iff h.chars).mpr ⟨h, rfl⟩
  simp only [number, span_append h.chars hrest, hliteral]

theorem exists_fuel {n fuel : Nat} (h : n + 1 ≤ fuel) : ∃ k, fuel = k + 1 ∧ n ≤ k :=
  ⟨fuel - 1, by omega, by omega⟩

mutual

theorem Sum.reads : ∀ (s : Sum) {fuel room : Nat} {rest : List Char},
    4 * (s.text ++ rest).length + 4 ≤ fuel → s.depth ≤ room → Stops extendsSum rest →
    sum fuel room (s.text ++ rest) = outcome s.value rest
  | .mk p ts, fuel, room, rest, hfuel, hdepth, hrest => by
    obtain ⟨fuel, rfl, hleft⟩ := exists_fuel hfuel
    obtain ⟨hp, hts⟩ := Nat.max_le.mp hdepth
    rw [Sum.text, List.append_assoc] at hleft ⊢
    have hlength := (List.suffix_append p.text (ts.text ++ rest)).length_le
    rw [sum, p.reads hleft hp (ts.stops hrest)]
    exact outcome_bind fun x => ts.reads x (by omega) hts hrest

theorem Terms.reads : ∀ (ts : Terms) (x : Float) {fuel room : Nat} {rest : List Char},
    4 * (ts.text ++ rest).length + 1 ≤ fuel → ts.depth ≤ room → Stops extendsSum rest →
    sumFrom fuel room x (ts.text ++ rest) = outcome (ts.valueFrom x) rest
  | .done, x, fuel, room, rest, hfuel, _, hrest => by
    obtain ⟨fuel, rfl, hleft⟩ := exists_fuel hfuel
    rcases sumFrom_cases fuel room x rest with ⟨sign, cs, rfl⟩ | hdone
    · cases sign <;> exact absurd (stops_cons.mp hrest) (by decide)
    · exact hdone
  | .next sign p ts, x, fuel, room, rest, hfuel, hdepth, hrest => by
    obtain ⟨fuel, rfl, hleft⟩ := exists_fuel hfuel
    obtain ⟨hp, hts⟩ := Nat.max_le.mp hdepth
    rw [Terms.text, List.cons_append, List.append_assoc] at hleft ⊢
    have hlength := (List.suffix_append p.text (ts.text ++ rest)).length_le
    rw [List.length_cons] at hleft
    rw [sumFrom_cons, p.reads (by omega) hp (ts.stops hrest)]
    exact outcome_bind fun y => ts.reads (sign.apply x y) (by omega) hts hrest

theorem Product.reads : ∀ (p : Product) {fuel room : Nat} {rest : List Char},
    4 * (p.text ++ rest).length + 3 ≤ fuel → p.depth ≤ room → Stops extendsProduct rest →
    product fuel room (p.text ++ rest) = outcome p.value rest
  | .mk f fs, fuel, room, rest, hfuel, hdepth, hrest => by
    obtain ⟨fuel, rfl, hleft⟩ := exists_fuel hfuel
    obtain ⟨hf, hfs⟩ := Nat.max_le.mp hdepth
    rw [Product.text, List.append_assoc] at hleft ⊢
    have hlength := (List.suffix_append f.text (fs.text ++ rest)).length_le
    rw [product, f.reads hleft hf (fs.stops hrest)]
    exact outcome_bind fun x => fs.reads x (by omega) hfs hrest

theorem Factors.reads : ∀ (fs : Factors) (x : Float) {fuel room : Nat} {rest : List Char},
    4 * (fs.text ++ rest).length + 1 ≤ fuel → fs.depth ≤ room → Stops extendsProduct rest →
    productFrom fuel room x (fs.text ++ rest) = outcome (fs.valueFrom x) rest
  | .done, x, fuel, room, rest, hfuel, _, hrest => by
    obtain ⟨fuel, rfl, hleft⟩ := exists_fuel hfuel
    show productFrom (fuel + 1) room x rest = _
    unfold productFrom
    split
    · exact absurd (stops_cons.mp hrest) (by decide)
    · exact absurd (stops_cons.mp hrest) (by decide)
    · rfl
  | .times f fs, x, fuel, room, rest, hfuel, hdepth, hrest => by
    obtain ⟨fuel, rfl, hleft⟩ := exists_fuel hfuel
    obtain ⟨hf, hfs⟩ := Nat.max_le.mp hdepth
    rw [Factors.text, List.cons_append, List.append_assoc] at hleft ⊢
    have hlength := (List.suffix_append f.text (fs.text ++ rest)).length_le
    rw [List.length_cons] at hleft
    simp only [productFrom]
    rw [f.reads (by omega) hf (fs.stops hrest)]
    exact outcome_bind fun y => fs.reads (x * y) (by omega) hfs hrest
  | .dividedBy f fs, x, fuel, room, rest, hfuel, hdepth, hrest => by
    obtain ⟨fuel, rfl, hleft⟩ := exists_fuel hfuel
    obtain ⟨hf, hfs⟩ := Nat.max_le.mp hdepth
    rw [Factors.text, List.cons_append, List.append_assoc] at hleft ⊢
    have hlength := (List.suffix_append f.text (fs.text ++ rest)).length_le
    rw [List.length_cons] at hleft
    simp only [productFrom]
    rw [f.reads (by omega) hf (fs.stops hrest)]
    refine outcome_bind fun y => ?_
    dsimp only
    split
    · rfl
    · exact fs.reads (x / y) (by omega) hfs hrest

theorem Factor.reads : ∀ (f : Factor) {fuel room : Nat} {rest : List Char},
    4 * (f.text ++ rest).length + 2 ≤ fuel → f.depth ≤ room → Stops isNumberChar rest →
    factor fuel room (f.text ++ rest) = outcome f.value rest
  | .mk signs a, fuel, room, rest, hfuel, hdepth, hrest => by
    obtain ⟨fuel, rfl, hleft⟩ := exists_fuel hfuel
    rw [Factor.text, List.append_assoc] at hleft ⊢
    have hlength := (List.suffix_append (signs.map Sign.char) (a.text ++ rest)).length_le
    rw [factor, span_signs signs (a.stops rest)]
    dsimp only
    rw [a.reads (by omega) hdepth hrest]
    refine outcome_bind fun x => ?_
    simp only [negates_iff]
    rfl

theorem Atom.reads : ∀ (a : Atom) {fuel room : Nat} {rest : List Char},
    4 * (a.text ++ rest).length + 1 ≤ fuel → a.depth ≤ room → Stops isNumberChar rest →
    atom fuel room (a.text ++ rest) = outcome a.value rest
  | .numeral run h, fuel, room, rest, hfuel, _, hrest => by
    obtain ⟨fuel, rfl, hleft⟩ := exists_fuel hfuel
    show atom (fuel + 1) room (run ++ rest) = .ok (numeralValue run, rest)
    rw [← number_reads h hrest]
    obtain ⟨c, run, rfl⟩ := List.exists_cons_of_ne_nil h.ne_nil
    have hc := h.chars c List.mem_cons_self
    rw [List.cons_append, atom]
    · rw [if_pos hc]
    · rintro rfl
      exact absurd hc (by decide)
  | .parens s, fuel, room, rest, hfuel, hdepth, _ => by
    obtain ⟨fuel, rfl, hleft⟩ := exists_fuel hfuel
    have hroom : room ≠ 0 := Nat.ne_zero_of_lt hdepth
    rw [Atom.text, List.cons_append, List.append_assoc, List.singleton_append] at hleft ⊢
    rw [List.length_cons] at hleft
    have hstop : Stops extendsSum (')' :: rest) := stops_cons.mpr rfl
    rw [atom, if_neg hroom, s.reads (by omega) (Nat.le_sub_one_of_lt hdepth) hstop, Atom.value]
    cases s.value <;> rfl

end

/-! ## Evaluation -/

theorem evaluateChars_eq (cs : List Char) :
    evaluateChars cs = match sum (4 * cs.length + 8) maxOpen cs with
      | .error e => .error e
      | .ok (_, _ :: _) => .error .trailing
      | .ok (x, []) => if Decimal.isFinite x then .ok x else .error .divisionByZero := by
  unfold evaluateChars
  cases sum (4 * cs.length + 8) maxOpen cs with
  | error e => rfl
  | ok a =>
    obtain ⟨x, _ | ⟨c, rest⟩⟩ := a
    · cases hfinite : Decimal.isFinite x <;>
        simp [bind, Except.bind, pure, Except.pure, throw, throwThe, MonadExceptOf.throw, hfinite]
    · rfl

theorem evaluateChars_text (s : Sum) (hdepth : s.depth ≤ maxOpen) :
    evaluateChars s.text = match s.value with
      | some x => if Decimal.isFinite x then .ok x else .error .divisionByZero
      | none => .error .divisionByZero := by
  have hsum : sum (4 * s.text.length + 8) maxOpen s.text = outcome s.value [] := by
    have hreads := @s.reads (4 * s.text.length + 8) maxOpen []
    rw [List.append_nil] at hreads
    exact hreads (Nat.add_le_add_left (by decide) _) hdepth nofun
  rw [evaluateChars_eq, hsum]
  cases s.value <;> rfl

theorem exists_of_evaluateChars_eq_ok {cs : List Char} {x : Float} (h : evaluateChars cs = .ok x) :
    ∃ s : Sum, s.text = cs ∧ s.depth ≤ maxOpen := by
  rw [evaluateChars_eq] at h
  split at h
  · cases h
  · cases h
  · next y hsum =>
    obtain ⟨s, htext, hdepth, -⟩ := (sound _).1 maxOpen cs y [] hsum
    exact ⟨s, by rw [htext, List.append_nil], hdepth⟩

/-- A source has at most one derivation, after its blanks are taken out and its signs made plain.
With parentheses nested no deeper than the limit, it evaluates to the value of its derivation, or to
a division by zero if a divisor is zero or the value is not finite. In all other cases it is an
error, so a value is always that of the derivation. -/
theorem evaluate_decides_grammar (source : String) :
    let text := normalize source
    (∀ s s' : Sum, s.text = text → s'.text = text → s = s') ∧
    (∀ x, evaluate source = .ok x ↔ ∃ s : Sum, s.text = text ∧ s.depth ≤ maxOpen ∧
      s.value = some x ∧ Decimal.isFinite x = true) ∧
    (∀ s : Sum, s.text = text → s.depth ≤ maxOpen →
      (∀ x, s.value = some x → Decimal.isFinite x = false) →
      evaluate source = .error .divisionByZero) ∧
    ((∀ s : Sum, s.text = text → maxOpen < s.depth) → ∃ e, evaluate source = .error e) := by
  intro text
  have hvalue : ∀ s : Sum, s.text = text → s.depth ≤ maxOpen → evaluate source =
      match s.value with
      | some x => if Decimal.isFinite x then .ok x else .error .divisionByZero
      | none => .error .divisionByZero := by
    intro s htext hdepth
    rw [evaluate, ← evaluateChars_text s hdepth, htext]
  refine ⟨?_, ?_, ?_, ?_⟩
  · intro s s' hs hs'
    have hnil : Stops extendsSum [] := nofun
    exact (s.text_inj s' hnil hnil (by rw [hs, hs'])).1
  · intro x
    constructor
    · intro hx
      obtain ⟨s, htext, hdepth⟩ := exists_of_evaluateChars_eq_ok hx
      rw [hvalue s htext hdepth] at hx
      refine ⟨s, htext, hdepth, ?_⟩
      split at hx
      · next y hy =>
        split at hx
        · next hfinite =>
          cases hx
          exact ⟨hy, hfinite⟩
        · cases hx
      · cases hx
    · rintro ⟨s, htext, hdepth, hx, hfinite⟩
      simp only [hvalue s htext hdepth, hx, hfinite, if_true]
  · intro s htext hdepth hnone
    rw [hvalue s htext hdepth]
    split
    · next x hx => rw [hnone x hx, if_neg Bool.false_ne_true]
    · rfl
  · intro hdeep
    cases he : evaluate source with
    | error e => exact ⟨e, rfl⟩
    | ok x =>
      obtain ⟨s, htext, hdepth⟩ := exists_of_evaluateChars_eq_ok he
      exact absurd hdepth (Nat.not_le_of_lt (hdeep s htext))

/-- Differences are taken from the left, and `--` before the last number cancels out. Where a
divisor is zero there is no value. -/
theorem evaluate_two_expressions :
    evaluate "8 − 3 − --2" = .ok 3 ∧ evaluate "1 ÷ (2 − 2)" = .error .divisionByZero := by
  let digit (c : Char) (h : c.isDigit = true) : Factor := .mk [] (.numeral [c] (.of_digit h))
  let one : Factor := digit '1' (by decide)
  let two : Atom := .numeral ['2'] (.of_digit (by decide))
  let three : Factor := digit '3' (by decide)
  let eight : Factor := digit '8' (by decide)
  let difference : Sum := .mk (.mk eight .done) (.next .minus (.mk three .done)
    (.next .minus (.mk (.mk [.minus, .minus] two) .done) .done))
  let zero : Sum := .mk (.mk (.mk [] two) .done) (.next .minus (.mk (.mk [] two) .done) .done)
  let quotient : Sum := .mk (.mk one (.dividedBy (.mk [] (.parens zero)) .done)) .done
  constructor
  · have hvalue : difference.value = some 3 := by decide +kernel
    exact ((evaluate_decides_grammar _).2.1 3).mpr
      ⟨difference, by decide, by decide, hvalue, by decide +kernel⟩
  · have hnone : quotient.value = none := by decide +kernel
    refine (evaluate_decides_grammar _).2.2.1 quotient (by decide) (by decide) fun x hx => ?_
    rw [hnone] at hx
    cases hx

end DynamicUi.Expression
