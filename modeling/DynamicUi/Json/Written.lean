import DynamicUi.Decimal.Binary
import DynamicUi.Decimal.Stepwise
import DynamicUi.Json.Basic

/-! # Written values

What stands in a JSON text by the grammar alone. Not all of it stands for a value: a surrogate
may lack its other half, a number may be out of range, and brackets may be nested too deep. What
nobody asks for is passed over as it is written, so only the rest needs a meaning.
-/

namespace DynamicUi.Json

/-- One place of a quoted text: a character, or the unit that four digits give. -/
inductive Letter where
  | char (c : Char)
  | unit (n : Nat)

structure Numeral where
  negative : Bool
  whole : List Char
  fraction : Option (List Char)
  exponent : Option Int

inductive Written where
  | null
  | bool (b : Bool)
  | number (n : Numeral)
  | text (letters : List Letter)
  | array (items : List Written)
  | object (members : List (List Letter × Written))

namespace Letter

def isHighUnit (n : Nat) : Bool := 0xD800 ≤ n && n < 0xDC00

def isLowUnit (n : Nat) : Bool := 0xDC00 ≤ n && n < 0xE000

def pair (hi lo : Nat) : Char := Char.ofNat (0x10000 + (hi - 0xD800) * 0x400 + (lo - 0xDC00))

/-- The characters of a quoted text after those in `read`, last first. -/
def charsFrom? (read : List Char) : List Letter → Option (List Char)
  | [] => some read.reverse
  | char c :: rest => charsFrom? (c :: read) rest
  | [unit n] => if isHighUnit n || isLowUnit n then none else charsFrom? (Char.ofNat n :: read) []
  | unit n :: unit m :: rest =>
    if isHighUnit n then
      if isLowUnit m then charsFrom? (pair n m :: read) rest else none
    else if isLowUnit n then none
    else charsFrom? (Char.ofNat n :: read) (unit m :: rest)
  | unit n :: char c :: rest =>
    if isHighUnit n || isLowUnit n then none else charsFrom? (c :: Char.ofNat n :: read) rest

/-- A quoted text, if each of its surrogates is half of a pair. -/
def textOf? (letters : List Letter) : Option String := (charsFrom? [] letters).map String.ofList

end Letter

namespace Numeral

def floatOf? (n : Numeral) : Option Number :=
  (Decimal.readStepwise? n.whole (n.fraction.getD []) (n.exponent.getD 0)).map fun x =>
    .float (if n.negative then -x else x)

def signedWhole (n : Numeral) : Int :=
  let magnitude : Int := Decimal.digitsValue n.whole
  if n.negative then -magnitude else magnitude

/-- Whether a numeral stands for a whole number. A negative zero does not. -/
def isWhole (n : Numeral) : Bool :=
  n.fraction.isNone && n.exponent.isNone && minWhole ≤ n.signedWhole && n.signedWhole ≤ maxWhole
    && !(n.negative && n.signedWhole = 0)

def meaning? (n : Numeral) : Option Number :=
  if n.isWhole then some (.whole n.signedWhole) else n.floatOf?

end Numeral

namespace Written

mutual

/-- The value that stands here; `room` arrays and objects may be open at once. Members are
ordered, the last of a repeated name winning. -/
def meaning? (room : Nat) : Written → Option Value
  | null => some .null
  | bool b => some (.bool b)
  | number n => n.meaning?.map .number
  | text letters => (Letter.textOf? letters).map .string
  | array items => if room = 0 then none else (itemMeanings? (room - 1) items).map .array
  | object members =>
    if room = 0 then none
    else (memberMeanings? (room - 1) members).map fun es => .object (KeyMap.ofList es)

def itemMeanings? (room : Nat) : List Written → Option (List Value)
  | [] => some []
  | w :: ws =>
    match meaning? room w, itemMeanings? room ws with
    | some v, some vs => some (v :: vs)
    | _, _ => none

def memberMeanings? (room : Nat) : List (List Letter × Written) → Option (List (String × Value))
  | [] => some []
  | (name, w) :: ms =>
    match Letter.textOf? name, meaning? room w, memberMeanings? room ms with
    | some k, some v, some es => some ((k, v) :: es)
    | _, _, _ => none

end

def scalar? (w : Written) : Option Value := w.meaning? 0

end Written

end DynamicUi.Json
