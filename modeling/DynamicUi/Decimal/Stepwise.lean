import DynamicUi.Decimal.Binary
import DynamicUi.Decimal.Reading

/-! # Decimals scaled in steps

The leading digits that fit into 64 bits become a float, which is then multiplied or divided by
powers of ten. Every step rounds, so the result may lie beside the float that is nearest.
-/

namespace DynamicUi.Decimal

def maxKept : Nat := 18446744073709551615

/-- Appends digits to a number while it fits; gives the digits that are left. -/
def keepDigits (n : Nat) : List Char → Nat × List Char
  | [] => (n, [])
  | c :: cs =>
    let longer := 10 * n + digitValue c
    if longer ≤ maxKept then keepDigits longer cs else (n, c :: cs)

/-- The greatest power of ten that is a float has this exponent. -/
def maxPower : Nat := 308

def tenTo (k : Nat) : Float := read 1 k

/-- Divides by a power of ten, in steps that are floats. -/
def scaleDown (x : Float) (k : Nat) : Float :=
  if k ≤ maxPower then x / tenTo k
  else if x == 0 then x
  else scaleDown (x / tenTo maxPower) (k - maxPower)
termination_by k
decreasing_by simp only [maxPower] at *; omega

def scaled? (n : Nat) (exponent : Int) : Option Float :=
  let k := exponent.natAbs
  if exponent < 0 then some (scaleDown (read n 0) k)
  else if k ≤ maxPower then (some (read n 0 * tenTo k)).filter isFinite
  else if n = 0 then some 0
  else none

/-- The value of a whole part and a fractional part. A digit of the whole part that is not kept
counts as a factor of ten. -/
def readStepwise? (whole fraction : List Char) (exponent : Int) : Option Float :=
  let (n, dropped) := keepDigits 0 whole
  let (n, left) := keepDigits n fraction
  scaled? n (exponent + dropped.length + left.length - fraction.length)

end DynamicUi.Decimal
