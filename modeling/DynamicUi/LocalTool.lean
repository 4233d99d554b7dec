import DynamicUi.Expression.Display
import DynamicUi.Expression.Evaluation
import DynamicUi.Failure
import DynamicUi.Json.Printer
import DynamicUi.Spec.Invocation
import DynamicUi.Store.Basic

/-! # Local tools

Tools of the `ui.` family work on the window's own state and finish at once. What one does is
an effect computed beforehand, the writes and the result, so a tool that fails writes nothing.
-/

namespace DynamicUi

open Json

structure LocalUse where
  invocation : Invocation
  component : String
  props : Fields
  payload : Option Value

namespace LocalTool

def isLocal (tool : String) : Bool := ['u', 'i', '.'].isPrefixOf tool.toList

/-- The writes of a call, in order, and what it returns. -/
structure Effect where
  writes : List (String × Value)
  result : Value

def Effect.store (key : String) (v : Value) : Effect := ⟨[(key, v)], v⟩

def displayText : Value → String
  | .string s => s
  | .null => ""
  | v => v.compact

def displayKey : String := "display"

def keyParam (params : Fields) (fallback : String) : String :=
  match params.string? "key" with
  | some k => if k = "" then fallback else k
  | none => fallback

def listParam (params : Fields) : String :=
  ((params.firstOf? ["list_id", "listId"]).bind Value.asString?).getD "items"

def counterKey (list : String) : String := s!"{list}:next_id"

theorem counterKey_ne (list : String) : counterKey list ≠ list := by
  intro h
  have hlength : (list ++ ":next_id").length = list.length := congrArg String.length h
  rw [String.length_append] at hlength
  have hmark : ":next_id".length = 8 := by decide
  omega

variable (read : String → Option Value)

def shown (key : String) : String := displayText ((read key).getD .null)

def itemsAt (key : String) : List Value := ((read key).bind Value.asArray?).getD []

def setValue (c : LocalUse) : Effect :=
  let v := ((KeyMap.get? c.invocation.params "value").or c.payload).getD .null
  .store (keyParam c.invocation.params c.component) v

/-- The text to append: a parameter, the label of the component, or the payload. -/
def suffix? (c : LocalUse) : Option String :=
  ((KeyMap.get? c.invocation.params "value").or
    ((c.props.firstOf? ["text", "label"]).or c.payload)).map displayText

/-- A lone zero and an error give way; a point keeps the zero. -/
def appended (current suffix : String) : String :=
  if (current = "0" && suffix ≠ ".") || current = "Error" then suffix else current ++ suffix

def append (c : LocalUse) : Except CallError Effect :=
  let key := keyParam c.invocation.params displayKey
  match suffix? c with
  | none => .error (.invalidParams c.invocation.tool "nothing to append")
  | some suffix => .ok (.store key (.string (appended (shown read key) suffix)))

def clear (c : LocalUse) : Effect :=
  .store (keyParam c.invocation.params displayKey)
    ((KeyMap.get? c.invocation.params "default").getD (.string "0"))

/-- A display never runs empty, nor down to a lone minus. -/
def shortened (current : String) : String :=
  let cs := current.toList.dropLast
  if cs = [] || cs = ['-'] then "0" else String.ofList cs

def backspace (c : LocalUse) : Effect :=
  let key := keyParam c.invocation.params displayKey
  .store key (.string (shortened (shown read key)))

def toggle (c : LocalUse) : Effect :=
  let key := keyParam c.invocation.params c.component
  .store key (.bool !(((read key).bind Value.asBool?).getD false))

def computed (source : String) : String :=
  match Expression.evaluate source with
  | .ok x => Expression.numberText x
  | .error _ => "Error"

def compute (c : LocalUse) : Effect :=
  let key := keyParam c.invocation.params displayKey
  let source := match KeyMap.get? c.invocation.params "expression" with
    | some v => displayText v
    | none => shown read key
  .store key (.string (computed source))

def isEmptyItem : Value → Bool
  | .null => true
  | .string s => Text.allBlank s
  | _ => false

def addItem (c : LocalUse) : Except CallError Effect :=
  let params := c.invocation.params
  let key := listParam params
  let item := ((params.firstOf? ["item", "value"]).or c.payload).getD .null
  let next := ((read (counterKey key)).bind Value.asNat?).getD 1
  if isEmptyItem item then .error (.invalidParams c.invocation.tool "item must not be empty")
  else if maxWhole ≤ next then
    .error (.invalidParams c.invocation.tool "item id counter exhausted")
  else
    let entry := Value.record
      [("id", .string s!"item-{next}"), ("value", item), ("done", .bool false)]
    .ok ⟨[(counterKey key, .nat (next + 1)), (key, .array (itemsAt read key ++ [entry]))], entry⟩

def wantedItem? (params : Fields) : Option Value := params.firstOf? ["item_id", "itemId"]

def itemIndex? (items : List Value) (params : Fields) : Option Nat :=
  match wantedItem? params with
  | some (.string id) =>
    items.findIdx? fun item => (item.member? "id").bind Value.asString? = some id
  | some (.number n) => n.toNat?.filter (· < items.length)
  | _ => none

def missingItem (c : LocalUse) : CallError :=
  let wanted := ((wantedItem? c.invocation.params).map displayText).getD ""
  .execution c.invocation.tool "NOT_FOUND" s!"no list item '{wanted}'"

/-- Works on the item a call addresses: gives the new items and the result. -/
def onItem (c : LocalUse) (f : List Value → Nat → Value → List Value × Value) :
    Except CallError Effect :=
  let key := listParam c.invocation.params
  let items := itemsAt read key
  match itemIndex? items c.invocation.params with
  | none => .error (missingItem c)
  | some i =>
    let (items, result) := f items i (items[i]?.getD .null)
    .ok ⟨[(key, .array items)], result⟩

def removeItem (c : LocalUse) : Except CallError Effect :=
  onItem read c fun items i item => (items.eraseIdx i, item)

/-- An entry with its mark flipped; what is no object has none. -/
def flipDone : Value → Value
  | .object fields =>
    let done := ((KeyMap.get? fields "done").bind Value.asBool?).getD false
    .object (KeyMap.insert fields "done" (.bool !done))
  | v => v

def toggleItem (c : LocalUse) : Except CallError Effect :=
  onItem read c fun items i item => (items.set i (flipDone item), flipDone item)

def clearItems (c : LocalUse) : Effect := ⟨[(listParam c.invocation.params, .array [])], .null⟩

def effect (c : LocalUse) : Except CallError Effect :=
  match c.invocation.tool with
  | "ui.set" => .ok (setValue c)
  | "ui.get" => .ok ⟨[], (read (keyParam c.invocation.params c.component)).getD .null⟩
  | "ui.append" => append read c
  | "ui.clear" => .ok (clear c)
  | "ui.backspace" => .ok (backspace read c)
  | "ui.toggle" => .ok (toggle read c)
  | "ui.compute" => .ok (compute read c)
  | "ui.list.add" => addItem read c
  | "ui.list.remove" => removeItem read c
  | "ui.list.toggle" => toggleItem read c
  | "ui.list.clear" => .ok (clearItems c)
  | tool => .error (.unknownTool tool)

end LocalTool

/-- Runs a local call on a store: the store after it, the listeners called, and the outcome. -/
def Store.runLocal {κ : Type} (s : Store κ) (c : LocalUse) :
    Store κ × List κ × Except CallError Value :=
  match LocalTool.effect s.get? c with
  | .error e => (s, [], .error e)
  | .ok effect =>
    let (s, called) := s.setAll effect.writes
    (s, called, .ok effect.result)

end DynamicUi
