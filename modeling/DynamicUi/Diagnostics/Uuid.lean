import DynamicUi.Text.Basic

/-! # Universally unique identifiers

An identifier has 128 bits, here in two halves. It is written as 32 hexadecimal digits, plain or
in five groups joined by hyphens. The grouped form is also read in braces and as a URN, whose
mark may be in either case.
-/

namespace DynamicUi

structure Uuid where
  high : UInt64
  low : UInt64
deriving DecidableEq

namespace Uuid

open Text

def ofNat (n : Nat) : Uuid := ⟨0, .ofNat n⟩

def simpleChars (u : Uuid) : List Char :=
  Hex.padded 16 u.high.toNat ++ Hex.padded 16 u.low.toNat

def groups : List Nat := [8, 4, 4, 4, 12]

def hyphenate : List Nat → List Char → List Char
  | [], cs => cs
  | [_], cs => cs
  | n :: ns, cs => cs.take n ++ '-' :: hyphenate ns (cs.drop n)

def hyphenated (u : Uuid) : String := String.ofList (hyphenate groups u.simpleChars)

def ofSimple? (cs : List Char) : Option Uuid := do
  if cs.length ≠ 32 then none
  let high ← Hex.value? (cs.take 16)
  let low ← Hex.value? (cs.drop 16)
  return ⟨.ofNat high, .ofNat low⟩

/-- Groups of exactly the given lengths, without the hyphens that join them. -/
def joined? : List Nat → List Char → Option (List Char)
  | [], cs => if cs.isEmpty then some [] else none
  | [n], cs => if cs.length = n then some cs else none
  | n :: ns, cs =>
    match cs.drop n with
    | '-' :: rest => (joined? ns rest).map (cs.take n ++ ·)
    | _ => none

def ofHyphenated? (cs : List Char) : Option Uuid := (joined? groups cs).bind ofSimple?

def urnMark : List Char := "urn:uuid:".toList

def ofChars? (cs : List Char) : Option Uuid :=
  if cs.head? = some '{' && cs.getLast? = some '}' then ofHyphenated? (cs.drop 1).dropLast
  else if urnMark.isPrefixOf (cs.map Char.toLower) then ofHyphenated? (cs.drop urnMark.length)
  else (ofSimple? cs).or (ofHyphenated? cs)

def parse? (text : String) : Option Uuid := ofChars? text.toList

/-- A way to write identifiers without hyphens, and to read them in any form. -/
structure Spelling where
  plain : Uuid → String
  read? : String → Option Uuid

def spelling : Spelling := ⟨fun u => String.ofList u.simpleChars, parse?⟩

end Uuid

end DynamicUi
