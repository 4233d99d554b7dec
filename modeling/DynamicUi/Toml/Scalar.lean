import DynamicUi.Decimal.Reading
import DynamicUi.Json.Basic

/-! # Numbers, truth values and dates

A scalar is a run of letters, digits and signs that is recognised as a whole. Dates stand for
an object without members: nothing that is configured is a date.
-/

namespace DynamicUi.Toml

open Json

def isScalarChar (c : Char) : Bool :=
  c.isAlphanum || c = '+' || c = '-' || c = '_' || c = '.' || c = ':'

/-- Digits with single underscores between them; gives the digits alone. -/
def grouped (isDigit : Char → Bool) : List Char → Option (List Char)
  | [] => none
  | [c] => if isDigit c then some [c] else none
  | c :: '_' :: rest =>
    if isDigit c then (grouped isDigit rest).map (c :: ·) else none
  | c :: d :: rest => if isDigit c then (grouped isDigit (d :: rest)).map (c :: ·) else none

def wholeDigits (cs : List Char) : Option (List Char) :=
  match grouped Char.isDigit cs with
  | some ('0' :: _ :: _) => none
  | ds => ds

def baseDigit? (base : Nat) (c : Char) : Option Nat :=
  let n := c.toNat
  let d := if c.isDigit then n - 48 else if c.isLower then n - 87 else n - 55
  if (c.isDigit || c.isAlpha) && d < base then some d else none

def baseValue (base : Nat) (ds : List Char) : Nat :=
  ds.foldl (fun n c => n * base + (baseDigit? base c).getD 0) 0

def ranged (n : Int) : Option Value :=
  if minWhole ≤ n && n ≤ 9223372036854775807 then some (.number (.whole n)) else none

def based (base : Nat) (cs : List Char) : Option Value := do
  let ds ← grouped (fun c => (baseDigit? base c).isSome) cs
  ranged (baseValue base ds)

def integer? (cs : List Char) : Option Value :=
  match cs with
  | '0' :: 'x' :: rest => based 16 rest
  | '0' :: 'o' :: rest => based 8 rest
  | '0' :: 'b' :: rest => based 2 rest
  | _ => do
    let (negative, rest) := Decimal.splitSign cs
    let ds ← wholeDigits rest
    let n : Int := Decimal.digitsValue ds
    ranged (if negative then -n else n)

def exponent? (cs : List Char) : Option Int := do
  let (negative, rest) := Decimal.splitSign cs
  let ds ← grouped Char.isDigit rest
  let n : Int := Decimal.digitsValue ds
  return if negative then -n else n

def isExponentMark (c : Char) : Bool := c = 'e' || c = 'E'

def decimalFloat? (cs : List Char) : Option Float := do
  let (mantissa, mark) := cs.span (!isExponentMark ·)
  let (whole, point) := mantissa.span (· != '.')
  let whole ← wholeDigits whole
  let fraction ← match point with
    | [] => if mark.isEmpty then none else some []
    | _ :: ds => grouped Char.isDigit ds
  let e ← match mark with
    | [] => some 0
    | _ :: ds => exponent? ds
  return Decimal.readParts whole fraction e

/-- A float by name or in digits. Digits that stand for positive infinity are refused. -/
def float? (cs : List Char) : Option Value := do
  let (negative, rest) := Decimal.splitSign cs
  let x ←
    if rest = ['i', 'n', 'f'] then some Decimal.infinity
    else if rest = ['n', 'a', 'n'] then some (Decimal.infinity - Decimal.infinity)
    else match decimalFloat? rest with
      | some x => if Decimal.isFinite x || negative then some x else none
      | none => none
  return .number (.float (if negative then -x else x))

def fixedDigits (width : Nat) (cs : List Char) : Option (Nat × List Char) :=
  let ds := cs.take width
  if ds.length = width && ds.all Char.isDigit then some (Decimal.digitsValue ds, cs.drop width)
  else none

def after (c : Char) : List Char → Option (List Char)
  | d :: cs => if c = d then some cs else none
  | [] => none

def daysIn (year month : Nat) : Nat :=
  if month = 2 then if year % 4 = 0 && (year % 100 ≠ 0 || year % 400 = 0) then 29 else 28
  else if month = 4 || month = 6 || month = 9 || month = 11 then 30
  else 31

def date? (cs : List Char) : Option (List Char) := do
  let (year, cs) ← fixedDigits 4 cs
  let (month, cs) ← fixedDigits 2 (← after '-' cs)
  let (day, cs) ← fixedDigits 2 (← after '-' cs)
  if 1 ≤ month && month ≤ 12 && 1 ≤ day && day ≤ daysIn year month then some cs else none

def time? (cs : List Char) : Option (List Char) := do
  let (hour, cs) ← fixedDigits 2 cs
  let (minute, cs) ← fixedDigits 2 (← after ':' cs)
  let (second, cs) ← fixedDigits 2 (← after ':' cs)
  if hour > 23 || minute > 59 || second > 60 then none
  match cs with
  | '.' :: rest =>
    let (ds, rest) := rest.span Char.isDigit
    if ds.isEmpty then none else some rest
  | _ => some cs

def isOffset (cs : List Char) : Bool :=
  match cs with
  | [] => true
  | ['Z'] | ['z'] => true
  | c :: rest =>
    (c = '+' || c = '-') && (do
      let (hour, rest) ← fixedDigits 2 rest
      let (minute, rest) ← fixedDigits 2 (← after ':' rest)
      return hour ≤ 23 && minute ≤ 59 && rest.isEmpty : Option Bool) = some true

def isDateTime (cs : List Char) : Bool :=
  match date? cs with
  | some [] => true
  | some (c :: rest) =>
    (c = 'T' || c = 't' || c = ' ') && (match time? rest with
      | some offset => isOffset offset
      | none => false)
  | none => time? cs = some []

def classify (cs : List Char) : Option Value :=
  if cs = ['t', 'r', 'u', 'e'] then some (.bool true)
  else if cs = ['f', 'a', 'l', 's', 'e'] then some (.bool false)
  else if isDateTime cs then some (.object [])
  else (integer? cs).or (float? cs)

/-- The run of a scalar at the start of the text. A blank joins a date to its time. -/
def scalarRun (cs : List Char) : List Char × List Char :=
  let (run, rest) := cs.span isScalarChar
  match rest with
  | ' ' :: c :: _ =>
    if date? run = some [] && c.isDigit then
      let (time, rest) := (rest.drop 1).span isScalarChar
      (run ++ ' ' :: time, rest)
    else (run, rest)
  | _ => (run, rest)

def scalar (cs : List Char) : Option (Value × List Char) :=
  let (run, rest) := scalarRun cs
  (classify run).map fun v => (v, rest)

end DynamicUi.Toml
