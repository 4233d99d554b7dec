import DynamicUi.Spec.Decoder

/-! # Expanding terse components

Blueprints write components tersely: a bare text, a compact entry such as
`{"button#save": {"text": "Save", "@click": "storage.set"}}`, rows, columns and semantic
roles. Expansion brings each into the explicit form that the decoder of nodes reads, and
gives every component an id. What is neither text nor object is dropped.
-/

namespace DynamicUi.Expansion

open Json

/-- Containers that are named for what they hold. -/
def roles : List String :=
  ["sidebar", "main", "editor", "header", "footer", "content", "section"]

def impliedLayout? (kind : String) : Option String :=
  if kind = "row" then some "horizontal"
  else if kind = "col" || roles.contains kind then some "vertical"
  else none

/-- Adds a member unless one of that name is there. -/
def addDefault (fields : Fields) (name : String) (v : Value) : Fields :=
  if KeyMap.contains fields name then fields else KeyMap.insert fields name v

def resolve (kind : String) (props : Fields) : String × Fields :=
  let props := if roles.contains kind then KeyMap.insert props "role" (.string kind) else props
  match impliedLayout? kind with
  | some layout => ("container", addDefault props "layout" (.string layout))
  | none => (kind, props)

def kindOf (fields : Fields) : String := (fields.string? "type").getD "container"

/-- An entry with an id: its own if that is a text that is not empty. -/
def withId (fields : Fields) (n : Nat) : Fields × Nat :=
  match fields.string? "id" with
  | some id => if id = "" then assign else (fields, n)
  | none => assign
where
  assign := (KeyMap.insert fields "id" (.string (freshId (kindOf fields) n)), n + 1)

def explicitForm (fields : Fields) (children : List Value) : Value :=
  let (kind, props) := resolve (kindOf fields) ((fields.object? "props").getD [])
  let fields := KeyMap.erase fields "children"
  let fields := if children.isEmpty then fields
    else KeyMap.insert fields "children" (.array children)
  .object (KeyMap.insert (KeyMap.insert fields "type" (.string kind)) "props" (.object props))

/-- The kind and id that the key of a compact entry names, split at the first `#`. -/
def splitKey (key : String) : String × Option String :=
  let (kind, rest) := key.toList.span (· != '#')
  (String.ofList kind, if rest.length > 1 then some (String.ofList (rest.drop 1)) else none)

def eventName? (name : String) : Option String :=
  match name.toList with
  | '@' :: event => some (String.ofList event)
  | _ => none

def compactFields (key : String) (body : Fields) (n : Nat) : Fields × Nat :=
  let (kind, id?) := splitKey key
  let (id, n) := match id? with
    | some id => (id, n)
    | none => (freshId kind n, n + 1)
  let events : Fields := body.filterMap fun (name, v) => (eventName? name).map fun e => (e, v)
  let props : Fields :=
    body.filter fun (name, _) => (eventName? name).isNone && name != "children"
  (KeyMap.ofList <|
    ("type", .string kind) :: ("id", .string id) :: ("props", .object props)
      :: Value.memberIf (!events.isEmpty) "on_event" (.object events), n)

def ofText (text : String) (n : Nat) : Value :=
  .record [("type", .string "text"), ("id", .string (freshId "text" n)),
    ("props", .record [("content", .string text)])]

mutual

/-- The explicit form of a component, if it has one, and the counter after it. -/
def expand : Value → Nat → Option Value × Nat
  | .string text, n => (some (ofText text n), n + 1)
  | .object fields, n =>
    if KeyMap.contains fields "type" then
      let (head, n) := withId fields n
      let (children, n) := expandChildren fields n
      (some (explicitForm head children), n)
    else expandFirst fields n
  | _, n => (none, n)

def expandFirst : List (String × Value) → Nat → Option Value × Nat
  | [], n => (none, n)
  | (key, .object body) :: _, n =>
    let (head, n) := compactFields key body n
    let (children, n) := expandChildren body n
    (some (explicitForm head children), n)
  | (key, _) :: _, n =>
    let (head, n) := compactFields key [] n
    (some (explicitForm head []), n)

def expandChildren : List (String × Value) → Nat → List Value × Nat
  | [], n => ([], n)
  | (name, v) :: fields, n =>
    if name = "children" then expandArray v n else expandChildren fields n

def expandArray : Value → Nat → List Value × Nat
  | .array vs, n => expandAll vs n
  | _, n => ([], n)

def expandAll : List Value → Nat → List Value × Nat
  | [], n => ([], n)
  | v :: vs, n =>
    let (w, n) := expand v n
    let (ws, n) := expandAll vs n
    (w.toList ++ ws, n)

end

end DynamicUi.Expansion
