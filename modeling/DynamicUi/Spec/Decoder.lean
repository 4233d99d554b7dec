import DynamicUi.Json.Printer
import DynamicUi.Spec.Node

/-! # Decoding nodes

Every entry of a list of nodes decodes to one node; an entry that makes no sense becomes a
node with a defect. Nodes without an id of their own are numbered in pre-order by one counter.
-/

namespace DynamicUi

open Json

def freshId (kind : String) (n : Nat) : String := s!"{kind}-{n}"

namespace Component

/-- The id an entry gives itself: a text that is not blank, or a number. -/
def givenId? (fields : Fields) : Option String :=
  match KeyMap.get? fields "id" with
  | some (.string s) => if Text.allBlank s then none else some (Text.trim s)
  | some (.number n) => some n.text
  | _ => none

def assignId (fields : Fields) (kind : String) (n : Nat) : String × Nat :=
  match givenId? fields with
  | some id => (id, n)
  | none => (freshId kind n, n + 1)

def acceptedEvents (bindings : Fields) : KeyMap Invocation :=
  bindings.filterMap fun (event, v) => (Invocation.decode v).toOption.map fun i => (event, i)

def rejectedEvents (bindings : Fields) : KeyMap String :=
  bindings.filterMap fun (event, v) =>
    match Invocation.decode v with
    | .ok _ => none
    | .error e => some (event, e.message)

def withEvents (c : Component) : Option Value → Component
  | none | some .null => c
  | some (.object bindings) =>
    { c with events := acceptedEvents bindings, rejected := rejectedEvents bindings }
  | some v => { c with rejected := [("*", s!"on_event must be an object, got {v.kindName}")] }

theorem withEvents_id (c : Component) (v : Option Value) : (c.withEvents v).id = c.id := by
  unfold withEvents
  split <;> rfl

theorem withEvents_defect (c : Component) (v : Option Value) :
    (c.withEvents v).defect = c.defect := by
  unfold withEvents
  split <;> rfl

def decodeBody (fields : Fields) (id kind : String) : Component :=
  let events := fields.firstOf? ["on_event", "onEvent"]
  match KeyMap.get? fields "props" with
  | none | some .null => (plain id kind).withEvents events
  | some (.object props) => { plain id kind with props }.withEvents events
  | some v => malformed id s!"props must be an object, got {v.kindName}"

theorem decodeBody_id (fields : Fields) (id kind : String) :
    (decodeBody fields id kind).id = id := by
  simp only [decodeBody]
  split
  · exact withEvents_id ..
  · exact withEvents_id ..
  · exact withEvents_id ..
  · rfl

def decode (fields : Fields) (n : Nat) : Component × Nat :=
  match KeyMap.get? fields "type" with
  | none | some .null =>
    let (id, n) := assignId fields "container" n
    (decodeBody fields id "container", n)
  | some (.string s) =>
    let kind := Text.trim s
    let (id, n) := assignId fields (if kind = "" then "node" else kind) n
    (decodeBody fields id kind, n)
  | some v =>
    let (id, n) := assignId fields "invalid" n
    (malformed id s!"type must be a string, got {v.kindName}", n)

end Component

namespace Node

def ofText (id text : String) : Node :=
  leaf { Component.plain id "text" with props := [("content", .string text)] }

mutual

def decode : Value → Nat → Node × Nat
  | .string text, n => (ofText (freshId "text" n) text, n + 1)
  | .object fields, n =>
    let (c, n) := Component.decode fields n
    if c.defect.isSome then (leaf c, n)
    else
      let (ns, n) := decodeChildren fields n
      (mk c ns, n)
  | v, n =>
    (leaf (.malformed (freshId "invalid" n) s!"expected an object, got {v.kindName}"), n + 1)

def decodeChildren : List (String × Value) → Nat → List Node × Nat
  | [], n => ([], n)
  | (name, v) :: fields, n =>
    if name = "children" then decodeEntries v n else decodeChildren fields n

/-- The nodes of a list; anything else but null is one node with a defect. -/
def decodeEntries : Value → Nat → List Node × Nat
  | .null, n => ([], n)
  | .array vs, n => decodeAll vs n
  | v, n =>
    ([leaf (.malformed (freshId "invalid" n) s!"children must be an array, got {v.kindName}")],
      n + 1)

def decodeAll : List Value → Nat → List Node × Nat
  | [], n => ([], n)
  | v :: vs, n =>
    let (node, n) := decode v n
    let (nodes, n) := decodeAll vs n
    (node :: nodes, n)

end

end Node

end DynamicUi
