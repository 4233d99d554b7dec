import DynamicUi.Text.Basic
import DynamicUi.Toml.Scalar
import DynamicUi.Toml.Table

/-! # Reading configuration documents

The document format has tables under headers, dotted keys, four kinds of strings, arrays that
may span lines and inline tables that may not. A document becomes an object.
-/

namespace DynamicUi.Toml

open Json

/-- Stands for the account of what is wrong with a text that is no such document. -/
def faultText : String := "<toml>"

namespace Parser

def isSpace (c : Char) : Bool := c = ' ' || c = '\t'

def skip (cs : List Char) : List Char := cs.dropWhile isSpace

def isPlain (c : Char) : Bool := c = '\t' || (32 ≤ c.toNat && c.toNat ≠ 127)

def newline : List Char → Option (List Char)
  | '\n' :: cs => some cs
  | '\r' :: '\n' :: cs => some cs
  | _ => none

def comment : List Char → List Char
  | '#' :: cs => cs.dropWhile isPlain
  | cs => cs

def skipLines : Nat → List Char → List Char
  | 0, cs => cs
  | fuel + 1, cs =>
    match newline (comment (skip cs)) with
    | some rest => skipLines fuel rest
    | none => comment (skip cs)

def hexNumber (width : Nat) (cs : List Char) : Option (Nat × List Char) :=
  let ds := cs.take width
  if ds.length = width then (Text.Hex.value? ds).map fun n => (n, cs.drop width) else none

def escape (cs : List Char) : Option (Char × List Char) :=
  match cs with
  | 'b' :: rest => some (Char.ofNat 8, rest)
  | 't' :: rest => some ('\t', rest)
  | 'n' :: rest => some ('\n', rest)
  | 'f' :: rest => some (Char.ofNat 12, rest)
  | 'r' :: rest => some ('\r', rest)
  | '"' :: rest => some ('"', rest)
  | '\\' :: rest => some ('\\', rest)
  | 'u' :: rest => scalarValue (hexNumber 4 rest)
  | 'U' :: rest => scalarValue (hexNumber 8 rest)
  | _ => none
where
  scalarValue : Option (Nat × List Char) → Option (Char × List Char)
    | some (n, rest) => if n.isValidChar then some (Char.ofNat n, rest) else none
    | none => none

def basicLine : Nat → List Char → List Char → Option (String × List Char)
  | 0, _, _ => none
  | _ + 1, _, [] => none
  | fuel + 1, read, c :: cs =>
    if c = '"' then some (String.ofList read.reverse, cs)
    else if c = '\\' then
      match escape cs with
      | some (d, rest) => basicLine fuel (d :: read) rest
      | none => none
    else if isPlain c then basicLine fuel (c :: read) cs
    else none

def literalLine (cs : List Char) : Option (String × List Char) :=
  let (body, rest) := cs.span fun c => isPlain c && c != '\''
  match rest with
  | '\'' :: rest => some (String.ofList body, rest)
  | _ => none

def skipBreaks : List Char → List Char
  | [] => []
  | '\r' :: '\n' :: cs => skipBreaks cs
  | c :: cs => if isSpace c || c = '\n' then skipBreaks cs else c :: cs

/-- The rest after a backslash that ends a line, up to the next text. -/
def lineEnd (cs : List Char) : Option (List Char) := (newline (skip cs)).map skipBreaks

/-- The rest of a string of several lines, quoted three times by `quote`. -/
def block (quote : Char) (escapes : Bool) :
    Nat → List Char → List Char → Option (String × List Char)
  | 0, _, _ => none
  | fuel + 1, read, cs =>
    let quotes := (cs.takeWhile (· = quote)).length
    if 3 ≤ quotes then
      if 5 < quotes then none
      else
        let text := List.replicate (quotes - 3) quote ++ read
        some (String.ofList text.reverse, cs.drop quotes)
    else match newline cs, cs with
    | some rest, _ => block quote escapes fuel ('\n' :: read) rest
    | none, [] => none
    | none, c :: rest =>
      if escapes && c = '\\' then
        match lineEnd rest, escape rest with
        | some rest, _ => block quote escapes fuel read rest
        | none, some (d, rest) => block quote escapes fuel (d :: read) rest
        | none, none => none
      else if isPlain c then block quote escapes fuel (c :: read) rest
      else none

def openBlock (quote : Char) (escapes : Bool) (cs : List Char) : Option (String × List Char) :=
  block quote escapes (cs.length + 1) [] ((newline cs).getD cs)

def stringValue (cs : List Char) : Option (String × List Char) :=
  match cs with
  | '"' :: '"' :: '"' :: rest => openBlock '"' true rest
  | '\'' :: '\'' :: '\'' :: rest => openBlock '\'' false rest
  | '"' :: rest => basicLine (rest.length + 1) [] rest
  | '\'' :: rest => literalLine rest
  | _ => none

def isBareKeyChar (c : Char) : Bool := c.isAlphanum || c = '_' || c = '-'

def keyPart (cs : List Char) : Option (String × List Char) :=
  match cs with
  | '"' :: rest => basicLine (rest.length + 1) [] rest
  | '\'' :: rest => literalLine rest
  | _ =>
    let (bare, rest) := cs.span isBareKeyChar
    if bare.isEmpty then none else some (String.ofList bare, rest)

/-- A dotted key: its passage, its last part, and the rest after blanks. -/
def key : Nat → List String → List Char → Option (List String × String × List Char)
  | 0, _, _ => none
  | fuel + 1, passage, cs =>
    match keyPart (skip cs) with
    | none => none
    | some (part, rest) =>
      match skip rest with
      | '.' :: rest => key fuel (passage ++ [part]) rest
      | rest => some (passage, part, rest)

/-- The number of arrays and inline tables that may be open at once, and of parts in a key. -/
def maxOpen : Nat := 79

def dottedKey (cs : List Char) : Option (List String × String × List Char) :=
  match key (cs.length + 1) [] cs with
  | some (passage, last, rest) =>
    if passage.length < maxOpen then some (passage, last, rest) else none
  | none => none

mutual

def value : Nat → Nat → List Char → Option (Value × List Char)
  | 0, _, _ => none
  | fuel + 1, room, cs =>
    match cs with
    | '[' :: rest =>
      if room = 0 then none else items fuel (room - 1) [] (skipLines rest.length.succ rest)
    | '{' :: rest =>
      if room = 0 then none
      else match skip rest with
        | '}' :: rest => some (.object [], rest)
        | rest => members fuel (room - 1) [] rest
    | '"' :: _ | '\'' :: _ => (stringValue cs).map fun (s, rest) => (.string s, rest)
    | _ => scalar cs

def items : Nat → Nat → List Value → List Char → Option (Value × List Char)
  | 0, _, _, _ => none
  | fuel + 1, room, read, cs =>
    match cs with
    | ']' :: rest => some (.array read.reverse, rest)
    | _ =>
      match value fuel room cs with
      | none => none
      | some (v, rest) =>
        match skipLines rest.length.succ rest with
        | ',' :: rest => items fuel room (v :: read) (skipLines rest.length.succ rest)
        | ']' :: rest => some (.array (v :: read).reverse, rest)
        | _ => none

def members : Nat → Nat → Entries → List Char → Option (Value × List Char)
  | 0, _, _, _ => none
  | fuel + 1, room, es, cs =>
    match dottedKey cs with
    | some (passage, last, '=' :: rest) =>
      match value fuel room (skip rest) with
      | none => none
      | some (v, rest) =>
        match Entries.addValue passage last v es with
        | none => none
        | some es =>
          match skip rest with
          | ',' :: rest => members fuel room es rest
          | '}' :: rest => some (.object (fieldsOf es), rest)
          | _ => none
    | _ => none

end

def endOfLine (cs : List Char) : Option (List Char) :=
  match comment (skip cs) with
  | [] => some []
  | cs => newline cs

/-- One line: an entry of the open table, or the header of the next. -/
def line (table : List String) (root : Entries) (cs : List Char) :
    Option (List String × Entries × List Char) :=
  match cs with
  | '[' :: '[' :: rest =>
    match dottedKey rest with
    | some (passage, last, ']' :: ']' :: rest) => do
      return (passage ++ [last], ← Entries.openElement passage last root, ← endOfLine rest)
    | _ => none
  | '[' :: rest =>
    match dottedKey rest with
    | some (passage, last, ']' :: rest) => do
      return (passage ++ [last], ← Entries.openTable passage last root, ← endOfLine rest)
    | _ => none
  | _ =>
    match dottedKey cs with
    | some (passage, last, '=' :: rest) => do
      let (v, rest) ← value (rest.length + 1) maxOpen (skip rest)
      let root ← Entries.atPath (Entries.addValue passage last v) table root
      return (table, root, ← endOfLine rest)
    | _ => none

def lines : Nat → List String → Entries → List Char → Option Entries
  | 0, _, _, _ => none
  | fuel + 1, table, root, cs =>
    match skipLines cs.length.succ cs with
    | [] => some root
    | rest =>
      match line table root rest with
      | some (table, root, rest) => lines fuel table root rest
      | none => none

end Parser

def parse (text : String) : Option Value :=
  let cs := text.toList
  let cs := if cs.head? = some (Char.ofNat 0xFEFF) then cs.drop 1 else cs
  (Parser.lines (cs.length + 1) [] [] cs).map fun es => .object (fieldsOf es)

end DynamicUi.Toml
