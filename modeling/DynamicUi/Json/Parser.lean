import DynamicUi.Json.Written
import DynamicUi.Text.Basic

/-! # Reading JSON

The reader accepts the strict grammar: no comments, no trailing commas, no raw control
characters in strings. `written?` reads what stands in a text, and `parse` the value it stands
for: no lone surrogates, no number beyond the range of floats, and at most 127 open arrays and
objects at once.
-/

namespace DynamicUi.Json

/-- Stands for the account of what is wrong with a text that is not JSON. -/
def faultText : String := "<json>"

def maxOpen : Nat := 127

namespace Parser

def isSpace (c : Char) : Bool := c = ' ' || c = '\t' || c = '\n' || c = '\r'

def skip (cs : List Char) : List Char := cs.dropWhile isSpace

def simpleEscape? (c : Char) : Option Char :=
  if c = '"' || c = '\\' || c = '/' then some c
  else if c = 'b' then some (Char.ofNat 8)
  else if c = 'f' then some (Char.ofNat 12)
  else if c = 'n' then some '\n'
  else if c = 'r' then some '\r'
  else if c = 't' then some '\t'
  else none

/-- What a backslash stands in front of: one place of the text, and the rest. -/
def escape (cs : List Char) : Option (Letter × List Char) :=
  match cs with
  | 'u' :: a :: b :: c :: d :: rest =>
    (Text.Hex.value? [a, b, c, d]).map fun n => (.unit n, rest)
  | e :: rest => (simpleEscape? e).map fun c => (.char c, rest)
  | [] => none

/-- The rest of a string after its opening quote; `read` holds what was read, last first. -/
def stringBody : Nat → List Letter → List Char → Option (List Letter × List Char)
  | 0, _, _ => none
  | _ + 1, _, [] => none
  | fuel + 1, read, c :: cs =>
    if c = '"' then some (read.reverse, cs)
    else if c = '\\' then
      match escape cs with
      | some (l, rest) => stringBody fuel (l :: read) rest
      | none => none
    else if c.toNat < 32 then none
    else stringBody fuel (.char c :: read) cs

def stringAfterQuote (cs : List Char) : Option (List Letter × List Char) :=
  stringBody (cs.length + 1) [] cs

def exponent (cs : List Char) : Option (Int × List Char) :=
  let (negative, cs) := Decimal.splitSign cs
  let (ds, rest) := cs.span Char.isDigit
  if ds.isEmpty then none
  else
    let n : Int := Decimal.digitsValue ds
    some (if negative then -n else n, rest)

def wholePart (cs : List Char) : Option (List Char × List Char) :=
  let (ds, rest) := cs.span Char.isDigit
  match ds with
  | [] => none
  | '0' :: _ :: _ => none
  | _ => some (ds, rest)

def unsigned (negative : Bool) (cs : List Char) : Option (Numeral × List Char) := do
  let (whole, rest) ← wholePart cs
  let (fraction, rest) ← match rest with
    | '.' :: rest =>
      let (ds, rest) := rest.span Char.isDigit
      if ds.isEmpty then none else some (some ds, rest)
    | _ => some (none, rest)
  let (exponent, rest) ← match rest with
    | 'e' :: rest | 'E' :: rest => (exponent rest).map fun (e, rest) => (some e, rest)
    | _ => some (none, rest)
  return ({ negative, whole, fraction, exponent }, rest)

def numeral (cs : List Char) : Option (Numeral × List Char) :=
  match cs with
  | '-' :: rest => unsigned true rest
  | _ => unsigned false cs

def word (w : List Char) (cs : List Char) : Option (List Char) :=
  if w.isPrefixOf cs then some (cs.drop w.length) else none

mutual

/-- What is written here; `room` more arrays and objects may be opened. -/
def value : Nat → Nat → List Char → Option (Written × List Char)
  | 0, _, _ => none
  | fuel + 1, room, cs =>
    match skip cs with
    | [] => none
    | '"' :: rest => (stringAfterQuote rest).map fun (s, rest) => (.text s, rest)
    | '[' :: rest =>
      if room = 0 then none
      else match skip rest with
        | ']' :: rest => some (.array [], rest)
        | rest => items fuel (room - 1) [] rest
    | '{' :: rest =>
      if room = 0 then none
      else match skip rest with
        | '}' :: rest => some (.object [], rest)
        | rest => members fuel (room - 1) [] rest
    | 't' :: rest => (word ['r', 'u', 'e'] rest).map fun rest => (.bool true, rest)
    | 'f' :: rest => (word ['a', 'l', 's', 'e'] rest).map fun rest => (.bool false, rest)
    | 'n' :: rest => (word ['u', 'l', 'l'] rest).map fun rest => (.null, rest)
    | rest => (numeral rest).map fun (n, rest) => (.number n, rest)

def items : Nat → Nat → List Written → List Char → Option (Written × List Char)
  | 0, _, _, _ => none
  | fuel + 1, room, read, cs =>
    match value fuel room cs with
    | none => none
    | some (w, rest) =>
      match skip rest with
      | ',' :: rest => items fuel room (w :: read) rest
      | ']' :: rest => some (.array (w :: read).reverse, rest)
      | _ => none

def members : Nat → Nat → List (List Letter × Written) → List Char → Option (Written × List Char)
  | 0, _, _, _ => none
  | fuel + 1, room, read, cs =>
    match skip cs with
    | '"' :: rest =>
      match stringAfterQuote rest with
      | none => none
      | some (name, rest) =>
        match skip rest with
        | ':' :: rest =>
          match value fuel room rest with
          | none => none
          | some (w, rest) =>
            match skip rest with
            | ',' :: rest => members fuel room ((name, w) :: read) rest
            | '}' :: rest => some (.object ((name, w) :: read).reverse, rest)
            | _ => none
        | _ => none
    | _ => none

end

end Parser

def written? (room : Nat) (text : String) : Option Written :=
  let cs := text.toList
  match Parser.value (2 * cs.length + 2) room cs with
  | some (w, rest) => if (Parser.skip rest).isEmpty then some w else none
  | none => none

def parse (text : String) : Option Value :=
  (written? maxOpen text).bind fun w => w.meaning? maxOpen

end DynamicUi.Json
