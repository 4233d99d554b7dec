/-! # Binary floating-point values as exact numbers

A finite 64-bit float is `significand · 2 ^ exponent` with a sign. Floors, ceilings and
comparisons are taken on these integers, so that none of them rounds.
-/

namespace DynamicUi.Decimal

/-- The magnitude `significand · 2 ^ exponent`. -/
structure Binary where
  significand : Nat
  exponent : Int
  /-- The gap to the value below is half the gap to the value above. -/
  narrowBelow : Bool
deriving DecidableEq, Inhabited

namespace Binary

/-- The magnitude written in the bits of a finite value; infinities and NaN have none. -/
def ofBits (bits : UInt64) : Binary :=
  let e := ((bits >>> 52) &&& 0x7FF).toNat
  let f := (bits &&& 0xFFFFFFFFFFFFF).toNat
  if e = 0 then ⟨f, -1074, false⟩ else ⟨Nat.pow 2 52 + f, (e : Int) - 1075, f = 0 && e > 1⟩

def ofFloat (x : Float) : Binary := ofBits x.toBits

def numerator (b : Binary) : Nat := b.significand * Nat.pow 2 b.exponent.toNat

def denominator (b : Binary) : Nat := Nat.pow 2 (-b.exponent).toNat

def floor (b : Binary) : Nat := b.numerator / b.denominator

def ceil (b : Binary) : Nat := (b.numerator + b.denominator - 1) / b.denominator

def isIntegral (b : Binary) : Bool := b.numerator % b.denominator = 0

end Binary

/-- The sign bit, set for negative values and for negative zero. -/
def isNegative (x : Float) : Bool := x.toBits >>> 63 = 1

def isFinite (x : Float) : Bool := (x.toBits >>> 52) &&& 0x7FF != 0x7FF

def isNaN (x : Float) : Bool := !isFinite x && x.toBits &&& 0xFFFFFFFFFFFFF != 0

def toInt? (x : Float) : Option Int :=
  let b := Binary.ofFloat x
  if isFinite x && b.isIntegral then
    some (if isNegative x then -(b.floor : Int) else b.floor)
  else none

end DynamicUi.Decimal
