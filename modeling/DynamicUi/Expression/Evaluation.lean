import DynamicUi.Decimal.Binary
import DynamicUi.Decimal.Reading
import DynamicUi.Text.Basic

/-! # Arithmetic on a calculator display

Sums of products of signed factors, where a factor is a number or a sum in parentheses. The
value is computed as the text is read, so a division by zero is met before faults that stand
behind it. Blanks do not count, and the display's own signs stand for the plain ones.
-/

namespace DynamicUi.Expression

inductive EvalError where
  | unexpectedChar (c : Char)
  | unexpectedEnd
  | invalidNumber (text : String)
  | divisionByZero
  | trailing
  | tooDeep
deriving DecidableEq

def maxOpen : Nat := 256

namespace EvalError

def message : EvalError → String
  | unexpectedChar c => s!"unexpected character '{c}'"
  | unexpectedEnd => "unexpected end of expression"
  | invalidNumber text => s!"invalid number '{text}'"
  | divisionByZero => "division by zero"
  | trailing => "trailing input after expression"
  | tooDeep => s!"parentheses nested deeper than {maxOpen}"

end EvalError

def plainSign (c : Char) : Char :=
  if c = '×' || c = 'x' then '*' else if c = '÷' then '/' else if c = '−' then '-' else c

/-- The characters of an expression, without blanks and in plain signs. -/
def normalize (source : String) : List Char :=
  (source.toList.filter (!Text.isBlank ·)).map plainSign

def isSign (c : Char) : Bool := c = '+' || c = '-'

def isNumberChar (c : Char) : Bool := c.isDigit || c = '.'

/-- A run of digits and points is a number if it holds a digit and at most one point. -/
def literal? (run : List Char) : Option Float :=
  let (whole, rest) := run.span Char.isDigit
  match rest with
  | [] => if whole.isEmpty then none else some (Decimal.readParts whole [] 0)
  | _ :: fraction =>
    if fraction.all Char.isDigit && !(whole.isEmpty && fraction.isEmpty) then
      some (Decimal.readParts whole fraction 0)
    else none

def number (cs : List Char) : Except EvalError (Float × List Char) :=
  let (run, rest) := cs.span isNumberChar
  match literal? run with
  | some x => .ok (x, rest)
  | none => .error (.invalidNumber (String.ofList run))

def negates (signs : List Char) : Bool := signs.count '-' % 2 = 1

mutual

/-- A sum; `room` more parentheses may be opened. -/
def sum : Nat → Nat → List Char → Except EvalError (Float × List Char)
  | 0, _, _ => .error .unexpectedEnd
  | fuel + 1, room, cs => do
    let (x, rest) ← product fuel room cs
    sumFrom fuel room x rest

def sumFrom : Nat → Nat → Float → List Char → Except EvalError (Float × List Char)
  | 0, _, _, _ => .error .unexpectedEnd
  | fuel + 1, room, x, cs =>
    match cs with
    | '+' :: rest => do
      let (y, rest) ← product fuel room rest
      sumFrom fuel room (x + y) rest
    | '-' :: rest => do
      let (y, rest) ← product fuel room rest
      sumFrom fuel room (x - y) rest
    | _ => .ok (x, cs)

def product : Nat → Nat → List Char → Except EvalError (Float × List Char)
  | 0, _, _ => .error .unexpectedEnd
  | fuel + 1, room, cs => do
    let (x, rest) ← factor fuel room cs
    productFrom fuel room x rest

def productFrom : Nat → Nat → Float → List Char → Except EvalError (Float × List Char)
  | 0, _, _, _ => .error .unexpectedEnd
  | fuel + 1, room, x, cs =>
    match cs with
    | '*' :: rest => do
      let (y, rest) ← factor fuel room rest
      productFrom fuel room (x * y) rest
    | '/' :: rest => do
      let (y, rest) ← factor fuel room rest
      if y == 0 then .error .divisionByZero
      else productFrom fuel room (x / y) rest
    | _ => .ok (x, cs)

def factor : Nat → Nat → List Char → Except EvalError (Float × List Char)
  | 0, _, _ => .error .unexpectedEnd
  | fuel + 1, room, cs => do
    let (signs, rest) := cs.span isSign
    let (x, rest) ← atom fuel room rest
    return (if negates signs then -x else x, rest)

def atom : Nat → Nat → List Char → Except EvalError (Float × List Char)
  | 0, _, _ => .error .unexpectedEnd
  | fuel + 1, room, cs =>
    match cs with
    | [] => .error .unexpectedEnd
    | '(' :: rest =>
      if room = 0 then .error .tooDeep
      else do
        let (x, rest) ← sum fuel (room - 1) rest
        match rest with
        | ')' :: rest => .ok (x, rest)
        | c :: _ => .error (.unexpectedChar c)
        | [] => .error .unexpectedEnd
    | c :: _ => if isNumberChar c then number cs else .error (.unexpectedChar c)

end

def evaluateChars (cs : List Char) : Except EvalError Float := do
  let (x, rest) ← sum (4 * cs.length + 8) maxOpen cs
  if !rest.isEmpty then throw .trailing
  if !Decimal.isFinite x then throw .divisionByZero
  return x

def evaluate (source : String) : Except EvalError Float := evaluateChars (normalize source)

end DynamicUi.Expression
