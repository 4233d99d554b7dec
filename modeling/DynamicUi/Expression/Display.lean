import DynamicUi.Decimal.Writing

/-! # Results on a display

Whole results below `10^15` are written as integers. All others have at most ten places, the
exact value rounded once, and no trailing zeros.
-/

namespace DynamicUi.Expression

def dropTrailing (c : Char) (cs : List Char) : List Char :=
  (cs.reverse.dropWhile (· = c)).reverse

/-- Ten places without the zeros at their end, nor a point that ends the text. -/
def placesText (x : Float) : List Char :=
  let sign := if Decimal.isNegative x then ['-'] else []
  dropTrailing '.' (dropTrailing '0' (sign ++ (Decimal.Binary.ofFloat x).fixed 10))

def numberChars (x : Float) : List Char :=
  let b := Decimal.Binary.ofFloat x
  if Decimal.isNaN x then ['N', 'a', 'N']
  else if !Decimal.isFinite x then
    if Decimal.isNegative x then ['-', 'i', 'n', 'f'] else ['i', 'n', 'f']
  else if b.isIntegral && b.floor < 1000000000000000 then
    (if Decimal.isNegative x && b.floor ≠ 0 then ['-'] else []) ++ Nat.toDigits 10 b.floor
  else placesText x

def numberText (x : Float) : String := String.ofList (numberChars x)

end DynamicUi.Expression
