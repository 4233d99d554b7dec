import DynamicUi.Decimal.Binary

/-! # Writing decimals

`shortest` selects, for a binary value, the decimal with the fewest digits among the reals
that round to it, and of those the closest. `floatText` lays it out: positionally for
magnitudes from `1e-5` up to `1e16`, otherwise with a signed exponent. `fixed` has a given number of
places, to which the exact value is rounded once, a tie going to the even neighbour.
-/

namespace DynamicUi.Decimal

/-- The number `digits · 10 ^ exponent`. -/
structure Scaled where
  digits : Nat
  exponent : Int
deriving DecidableEq, Inhabited

def compareScaled (a : Nat) (i : Int) (n : Nat) (j : Int) : Ordering :=
  compare (a * Nat.pow 10 i.toNat * Nat.pow 2 (-j).toNat)
    (n * Nat.pow 2 j.toNat * Nat.pow 10 (-i).toNat)

/-- The decimal lies among the reals that round to the binary value, ties going to even. -/
def Binary.readsBack (b : Binary) (d : Scaled) : Bool :=
  let lo := if b.narrowBelow then 4 * b.significand - 1 else 4 * b.significand - 2
  let hi := 4 * b.significand + 2
  let closed := b.significand % 2 = 0
  let atLo := compareScaled d.digits d.exponent lo (b.exponent - 2)
  let atHi := compareScaled d.digits d.exponent hi (b.exponent - 2)
  (atLo = .gt || (closed && atLo = .eq)) && (atHi = .lt || (closed && atHi = .eq))

/-- The neighbours of the value on the grid of multiples of `10 ^ step`: the one that reads
back, the closer if both do, the even one on a tie. -/
def Binary.onGrid (b : Binary) (step : Int) : Option Scaled :=
  let num := b.numerator * Nat.pow 10 (-step).toNat
  let den := b.denominator * Nat.pow 10 step.toNat
  let below : Scaled := ⟨num / den, step⟩
  let above : Scaled := ⟨num / den + 1, step⟩
  match b.readsBack below, b.readsBack above with
  | true, true =>
    match compare (2 * num) ((below.digits + above.digits) * den) with
    | .lt => some below
    | .gt => some above
    | .eq => if below.digits % 2 = 0 then some below else some above
  | true, false => some below
  | false, true => some above
  | false, false => none

/-- The least exponent at or above `k` whose power of ten exceeds the value, tried `n` times. -/
def Binary.scaleFrom (b : Binary) : Nat → Int → Int
  | 0, k => k
  | n + 1, k =>
    if compareScaled 1 k b.significand b.exponent = .gt then k else b.scaleFrom n (k + 1)

/-- The number of digits before the point, negative for leading zeros after it. -/
def Binary.scale (b : Binary) : Int :=
  let bits : Int := b.significand.log2 + b.exponent
  b.scaleFrom 4 (bits * 30103 / 100000)

def stripZeros : Nat → Scaled → Scaled
  | 0, d => d
  | fuel + 1, d =>
    if d.digits % 10 = 0 then stripZeros fuel ⟨d.digits / 10, d.exponent + 1⟩ else d

def Binary.exact (b : Binary) : Scaled :=
  if 0 ≤ b.exponent then ⟨b.numerator, 0⟩
  else ⟨b.significand * Nat.pow 5 (-b.exponent).toNat, b.exponent⟩

/-- Tries one digit, then two, up to seventeen. -/
def Binary.shortest (b : Binary) : Scaled :=
  let k := b.scale
  let found := (List.range 17).findSome? fun (n : Nat) => b.onGrid (k - n - 1)
  stripZeros 20 (found.getD b.exact)

def digitsText (n : Nat) : List Char := Nat.toDigits 10 n

/-- Positional or scientific text of a decimal whose last digit is not zero. -/
def layout (d : Scaled) : List Char :=
  let ds := digitsText d.digits
  let lead : Int := d.exponent + ds.length - 1
  if -5 ≤ lead && lead < 16 then
    if 0 ≤ d.exponent then
      ds ++ List.replicate d.exponent.toNat '0' ++ ['.', '0']
    else if 0 ≤ lead then
      ds.take (lead.toNat + 1) ++ '.' :: ds.drop (lead.toNat + 1)
    else
      '0' :: '.' :: List.replicate (-lead - 1).toNat '0' ++ ds
  else
    let point := if ds.length > 1 then '.' :: ds.drop 1 else []
    ds.take 1 ++ point ++ 'e' :: (if 0 ≤ lead then '+' else '-') :: digitsText lead.natAbs

def floatText (x : Float) : String :=
  let sign := if isNegative x then ['-'] else []
  let b := Binary.ofFloat x
  String.ofList (sign ++ if b.significand = 0 then ['0', '.', '0'] else layout b.shortest)

/-- `num / den` rounded to the nearest whole number, ties to even. -/
def roundDiv (num den : Nat) : Nat :=
  let q := num / den
  match compare (2 * (num % den)) den with
  | .lt => q
  | .gt => q + 1
  | .eq => if q % 2 = 0 then q else q + 1

/-- The digits of `n` with a point before the last `places` of them. -/
def placePoint (n places : Nat) : List Char :=
  let ds := digitsText n
  let padded := List.replicate (places + 1 - ds.length) '0' ++ ds
  padded.take (padded.length - places) ++ '.' :: padded.drop (padded.length - places)

def Binary.fixed (b : Binary) (places : Nat) : List Char :=
  placePoint (roundDiv (b.numerator * Nat.pow 10 places) b.denominator) places

end DynamicUi.Decimal
