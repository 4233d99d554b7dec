import DynamicUi.Call.Backend
import DynamicUi.Decimal.Numeral
import DynamicUi.Text.Basic

/-! # The calculator

Four tools that work on the operands `a` and `b`, which may be numbers or numerals in text.
-/

namespace DynamicUi.Calculator

open Json

def operandValue? : Value → Option Float
  | .number n => some n.toFloat
  | .string s => Decimal.numeral? (Text.trim s)
  | _ => none

/-- Integral results below `2^63` in magnitude are whole numbers, so a negative zero is plain. -/
def plainNumber (x : Float) : Value :=
  match Decimal.toInt? x with
  | some n => if n.natAbs < 9223372036854775808 then .number (.whole n) else .ofFloat x
  | none => .ofFloat x

def operand (r : Request) (name : String) : Except CallError Float :=
  match (KeyMap.get? r.params name).bind operandValue? with
  | some x => .ok x
  | none => .error (.invalidParams r.tool s!"'{name}' must be a number")

def operation (f : String → Float → Float → Except CallError Float) : Handler := fun r =>
  ⟨0, do
    let a ← operand r "a"
    let b ← operand r "b"
    return plainNumber (← f r.tool a b)⟩

def divide (tool : String) (a b : Float) : Except CallError Float :=
  if b == 0 then .error (.execution tool "DIVISION_BY_ZERO" "cannot divide by zero")
  else .ok (a / b)

def backend : Backend :=
  Backend.empty
    |>.register "calc.add" (operation fun _ a b => .ok (a + b))
    |>.register "calc.sub" (operation fun _ a b => .ok (a - b))
    |>.register "calc.mul" (operation fun _ a b => .ok (a * b))
    |>.register "calc.div" (operation divide)

end DynamicUi.Calculator
