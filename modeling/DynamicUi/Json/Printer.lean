import DynamicUi.Decimal.Writing
import DynamicUi.Json.Basic
import DynamicUi.Text.Basic

/-! # Writing JSON

`compact` writes without blanks, `pretty` one entry a line. Quotes, backslashes and control
characters are escaped and all else is literal.
-/

namespace DynamicUi.Json

def escapeChar (c : Char) : List Char :=
  if c = '"' then ['\\', '"']
  else if c = '\\' then ['\\', '\\']
  else if c = '\n' then ['\\', 'n']
  else if c = '\r' then ['\\', 'r']
  else if c = '\t' then ['\\', 't']
  else if c.toNat = 8 then ['\\', 'b']
  else if c.toNat = 12 then ['\\', 'f']
  else if c.toNat < 32 then ['\\', 'u'] ++ Text.Hex.padded 4 c.toNat
  else [c]

def quote (s : String) : String :=
  String.ofList ('"' :: s.toList.flatMap escapeChar ++ ['"'])

def Number.text : Number → String
  | .whole n => toString n
  | .float x => if Decimal.isFinite x then Decimal.floatText x else "null"

namespace Value

mutual

def compact : Value → String
  | null => "null"
  | bool b => if b then "true" else "false"
  | number n => n.text
  | string s => quote s
  | array items => "[" ++ compactItems items ++ "]"
  | object fields => "\x7b" ++ compactFields fields ++ "\x7d"

def compactItems : List Value → String
  | [] => ""
  | [v] => compact v
  | v :: w :: vs => compact v ++ "," ++ compactItems (w :: vs)

def compactFields : List (String × Value) → String
  | [] => ""
  | [(k, v)] => quote k ++ ":" ++ compact v
  | (k, v) :: e :: es => quote k ++ ":" ++ compact v ++ "," ++ compactFields (e :: es)

end

def newline (depth : Nat) : String := "\n" ++ String.ofList (List.replicate (2 * depth) ' ')

mutual

def prettyAt (depth : Nat) : Value → String
  | null => "null"
  | bool b => if b then "true" else "false"
  | number n => n.text
  | string s => quote s
  | array [] => "[]"
  | array (v :: vs) => "[" ++ prettyItems (depth + 1) (v :: vs) ++ newline depth ++ "]"
  | object [] => "\x7b\x7d"
  | object (e :: es) =>
    "\x7b" ++ prettyFields (depth + 1) (e :: es) ++ newline depth ++ "\x7d"

def prettyItems (depth : Nat) : List Value → String
  | [] => ""
  | [v] => newline depth ++ prettyAt depth v
  | v :: w :: vs => newline depth ++ prettyAt depth v ++ "," ++ prettyItems depth (w :: vs)

def prettyFields (depth : Nat) : List (String × Value) → String
  | [] => ""
  | [(k, v)] => newline depth ++ quote k ++ ": " ++ prettyAt depth v
  | (k, v) :: e :: es =>
    newline depth ++ quote k ++ ": " ++ prettyAt depth v ++ "," ++ prettyFields depth (e :: es)

end

def pretty (v : Value) : String := prettyAt 0 v

end Value

end DynamicUi.Json
