/-! # Reading decimals

`read` rounds `digits · 10 ^ exponent` once to the nearest float. Exponents far outside the
range of floats are answered without computing the power.
-/

namespace DynamicUi.Decimal

def infinity : Float := Float.ofBits 0x7FF0000000000000

/-- The nearest float, ties to even; infinite where the value overflows. -/
def read (digits : Nat) (exponent : Int) : Float :=
  let lead := exponent + (Nat.toDigits 10 digits).length
  if digits = 0 || lead < -400 then 0
  else if lead > 400 then infinity
  else Float.ofScientific digits (exponent < 0) exponent.natAbs

def splitSign : List Char → Bool × List Char
  | '-' :: cs => (true, cs)
  | '+' :: cs => (false, cs)
  | cs => (false, cs)

def digitValue (c : Char) : Nat := c.toNat - '0'.toNat

def digitsValue (cs : List Char) : Nat := cs.foldl (fun n c => 10 * n + digitValue c) 0

def readParts (whole fraction : List Char) (exponent : Int) : Float :=
  read (digitsValue (whole ++ fraction)) (exponent - fraction.length)

end DynamicUi.Decimal
