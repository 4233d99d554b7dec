import DynamicUi.Decimal.Reading

/-! # Texts that stand for floats

A numeral is a sign, digits with at most one point among or beside them, and an exponent, of
which only the digits are required. Infinity and NaN go by their names in any case.
-/

namespace DynamicUi.Decimal

def isExponentMark (c : Char) : Bool := c = 'e' || c = 'E'

/-- The exponent from its mark on; no text is the exponent zero. -/
def exponent? : List Char → Option Int
  | [] => some 0
  | _ :: cs =>
    let (negative, ds) := splitSign cs
    if ds.isEmpty || !ds.all Char.isDigit then none
    else
      let n : Int := digitsValue ds
      some (if negative then -n else n)

/-- Digits and a point, not the point alone: the digits before and after it. -/
def mantissa? (cs : List Char) : Option (List Char × List Char) :=
  let (whole, point) := cs.span Char.isDigit
  let fraction := point.drop 1
  if (point.isEmpty || point.head? = some '.') && fraction.all Char.isDigit
      && !(whole.isEmpty && fraction.isEmpty) then
    some (whole, fraction)
  else none

def digits? (cs : List Char) : Option Float := do
  let (mantissa, mark) := cs.span (!isExponentMark ·)
  let (whole, fraction) ← mantissa? mantissa
  return readParts whole fraction (← exponent? mark)

def named? (cs : List Char) : Option Float :=
  match String.ofList (cs.map Char.toLower) with
  | "inf" | "infinity" => some infinity
  | "nan" => some (infinity - infinity)
  | _ => none

def numeral? (text : String) : Option Float :=
  let (negative, cs) := splitSign text.toList
  ((named? cs).or (digits? cs)).map fun x => if negative then -x else x

end DynamicUi.Decimal
