import DynamicUi.Decimal.Binary
import DynamicUi.KeyMap

/-! # JSON values

Numbers keep apart whole numbers and floats: `1` and `1.0` are different values. Whole numbers
lie between `-2^63` and `2^64 - 1`; everything else is a float. Objects are maps ordered by key.

A record with known fields is an object, or an array that gives its fields in order. What is missing
takes its default, unknown fields are passed over, and a field of the wrong type makes the whole
record unreadable.
-/

namespace DynamicUi.Json

inductive Number where
  | whole (n : Int)
  | float (x : Float)
deriving DecidableEq

inductive Value where
  | null
  | bool (b : Bool)
  | number (n : Number)
  | string (s : String)
  | array (items : List Value)
  | object (fields : List (String × Value))

abbrev Fields := KeyMap Value

instance : Inhabited Value := ⟨.null⟩

def maxWhole : Int := 18446744073709551615

def minWhole : Int := -9223372036854775808

namespace Number

def toFloat : Number → Float
  | whole n => Float.ofInt n
  | float x => x

/-- The number as a size, if it is a whole number that is not negative. -/
def toNat? : Number → Option Nat
  | whole n => if 0 ≤ n then some n.toNat else none
  | float _ => none

end Number

namespace Value

mutual

def same : Value → Value → Bool
  | null, null => true
  | bool b, bool b' => b = b'
  | number n, number n' => n = n'
  | string s, string s' => s = s'
  | array vs, array vs' => sameItems vs vs'
  | object fields, object fields' => sameFields fields fields'
  | _, _ => false

def sameItems : List Value → List Value → Bool
  | [], [] => true
  | v :: vs, v' :: vs' => same v v' && sameItems vs vs'
  | _, _ => false

def sameFields : List (String × Value) → List (String × Value) → Bool
  | [], [] => true
  | (k, v) :: fields, (k', v') :: fields' => k = k' && same v v' && sameFields fields fields'
  | _, _ => false

end

mutual

theorem same_iff (v v' : Value) : same v v' = true ↔ v = v' := by
  cases v <;> cases v' <;> simp [same, sameItems_iff, sameFields_iff]

theorem sameItems_iff (vs vs' : List Value) : sameItems vs vs' = true ↔ vs = vs' := by
  cases vs <;> cases vs' <;> simp [sameItems, same_iff, sameItems_iff]

theorem sameFields_iff (fields fields' : List (String × Value)) :
    sameFields fields fields' = true ↔ fields = fields' := by
  match fields, fields' with
  | [], [] | [], _ :: _ | _ :: _, [] => simp [sameFields]
  | (k, v) :: fields, (k', v') :: fields' =>
    simp [sameFields, same_iff v v', sameFields_iff fields fields']

end

/-- Values hold lists of values, which `deriving` does not see through. -/
instance : DecidableEq Value := fun v v' => decidable_of_iff _ (same_iff v v')

def nat (n : Nat) : Value := number (.whole n)

def record (members : List (String × Value)) : Value := object (KeyMap.ofList members)

/-- A member that is left out where there is nothing to say. -/
def memberIf (present : Bool) (name : String) (v : Value) : List (String × Value) :=
  if present then [(name, v)] else []

/-- Infinities and NaN have no number and become null. -/
def ofFloat (x : Float) : Value :=
  if Decimal.isFinite x then number (.float x) else null

def strings (ss : List String) : Value := array (ss.map string)

def optional {α : Type} (f : α → Value) : Option α → Value
  | none => null
  | some a => f a

def asString? : Value → Option String
  | string s => some s
  | _ => none

def asBool? : Value → Option Bool
  | bool b => some b
  | _ => none

def asFloat? : Value → Option Float
  | number n => some n.toFloat
  | _ => none

def asNat? : Value → Option Nat
  | number n => n.toNat?
  | _ => none

def asArray? : Value → Option (List Value)
  | array items => some items
  | _ => none

def asObject? : Value → Option Fields
  | object fields => some fields
  | _ => none

def isNull : Value → Bool
  | null => true
  | _ => false

def member? : Value → String → Option Value
  | object fields, name => KeyMap.get? fields name
  | _, _ => none

def kindName : Value → String
  | null => "null"
  | bool _ => "boolean"
  | number _ => "number"
  | string _ => "string"
  | array _ => "array"
  | object _ => "object"

end Value

namespace Fields

/-- The first of the names that is present, whatever its value. -/
def firstOf? (fields : Fields) : List String → Option Value
  | [] => none
  | name :: names =>
    match KeyMap.get? fields name with
    | some v => some v
    | none => firstOf? fields names

def string? (fields : Fields) (name : String) : Option String :=
  (KeyMap.get? fields name).bind Value.asString?

/-- The strings of a list member; other entries of the list are passed over. -/
def textsAt? (fields : Fields) (name : String) : Option (List String) :=
  (KeyMap.get? fields name).bind Value.asArray? |>.map (·.filterMap Value.asString?)

def object? (fields : Fields) (name : String) : Option Fields :=
  (KeyMap.get? fields name).bind Value.asObject?

end Fields

/-- The fields of a record. An array may be longer than the record where `surplus` is set. -/
def recordFields (surplus : Bool) (names : List String) : Value → Option Fields
  | .object fields => some fields
  | .array vs =>
    if names.length < vs.length && !surplus then none else some (KeyMap.ofList (names.zip vs))
  | _ => none

/-- A field's value, its default if it is missing, and nothing if it has the wrong type. -/
def field {α β : Type} (fields : KeyMap β) (name : String) (dflt : α) (read : β → Option α) :
    Option α :=
  match KeyMap.get? fields name with
  | some v => read v
  | none => some dflt

def nullable {α : Type} (read : Value → Option α) (v : Value) : Option (Option α) :=
  if v.isNull then some none else (read v).map some

end DynamicUi.Json
