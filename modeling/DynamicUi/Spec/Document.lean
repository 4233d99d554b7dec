import DynamicUi.Json.Parser
import DynamicUi.Spec.Decoder

/-! # Specifications

A specification is what one window shows: a title, a layout, the root nodes and the hooks of
its lifecycle. Only its root has to be an object; each node below decodes on its own.
-/

namespace DynamicUi

open Json

structure Spec where
  title : String
  layout : String
  roots : List Node
  style : Fields
  services : List String
  hooks : KeyMap (List Invocation)

namespace Spec

def untitled : Spec := ⟨"Untitled", "vertical", [], [], [], []⟩

/-- One binding or a list of them; those that do not decode are passed over. -/
def hookOf (v : Value) : List Invocation :=
  let bindings := match v with
    | .array vs => vs
    | v => [v]
  bindings.filterMap fun b => (Invocation.decode b).toOption

def hooksOf : Value → KeyMap (List Invocation)
  | .object fields => KeyMap.mapValues hookOf fields
  | _ => []

/-- The root nodes and the number of ids that were given out. -/
def decodeRoots (fields : Fields) : List Node × Nat :=
  Node.decodeEntries ((KeyMap.get? fields "components").getD .null) 0

def ofFields (fields : Fields) : Spec where
  title := (fields.string? "title").getD "Untitled"
  layout := (fields.string? "layout").getD "vertical"
  roots := (decodeRoots fields).1
  style := (fields.object? "style").getD []
  services := (fields.textsAt? "services").getD []
  hooks := match fields.firstOf? ["lifecycle_hooks", "lifecycleHooks"] with
    | some v => hooksOf v
    | none => []

def decode : Value → Except SpecError Spec
  | .object fields => .ok (ofFields fields)
  | v => .error (.malformed s!"spec root must be an object, got {v.kindName}")

def parse (text : String) : Except SpecError Spec :=
  match Json.parse text with
  | some v => decode v
  | none => .error (.invalidJson Json.faultText)

def find? (s : Spec) (id : String) : Option Component := Node.findIn? id s.roots

def size (s : Spec) : Nat := Node.sizes s.roots

def hook (s : Spec) (name : String) : List Invocation := (KeyMap.get? s.hooks name).getD []

def addHook (s : Spec) (name : String) (i : Invocation) : Spec :=
  { s with hooks := KeyMap.modify s.hooks name [] (· ++ [i]) }

def encode (s : Spec) : Value :=
  .record <|
    ("title", .string s.title) :: ("layout", .string s.layout)
      :: ("components", .array (Node.encodeAll s.roots))
      :: Value.memberIf (!s.style.isEmpty) "style" (.object s.style)
      ++ Value.memberIf (!s.services.isEmpty) "services" (.strings s.services)
      ++ Value.memberIf (!s.hooks.isEmpty) "lifecycle_hooks"
          (.object (KeyMap.mapValues (fun is => .array (is.map Invocation.encode)) s.hooks))

end Spec

end DynamicUi
