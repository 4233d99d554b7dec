import DynamicUi.Failure
import DynamicUi.Json.Basic
import DynamicUi.Text.Basic

/-! # Tool invocations

A binding names a tool, with parameters and an app of its own where they are given. It is
written as the bare tool id or as an object.
-/

namespace DynamicUi

open Json

structure Invocation where
  tool : String
  params : Fields
  /-- Takes the place of the app the window is bound to. -/
  app? : Option String

namespace Invocation

def ofTool (tool : String) : Invocation := ⟨tool, [], none⟩

/-- The tool id of an object binding: the first of three spellings that is present. -/
def toolId? (fields : Fields) : Option String :=
  match fields.firstOf? ["toolId", "tool_id", "tool"] with
  | some (.string s) => if Text.allBlank s then none else some (Text.trim s)
  | _ => none

def ofFields (fields : Fields) : Except SpecError Invocation := do
  let some tool := toolId? fields | throw (.malformed "binding without toolId")
  let params ← match KeyMap.get? fields "params" with
    | none | some .null => pure []
    | some (.object params) => pure params
    | some _ => throw (.malformed s!"params of '{tool}' must be an object")
  return ⟨tool, params, (fields.firstOf? ["appId", "app_id"]).bind Value.asString?⟩

def decode : Value → Except SpecError Invocation
  | .string s =>
    if Text.allBlank s then .error (.malformed "empty tool id") else .ok (ofTool (Text.trim s))
  | .object fields => ofFields fields
  | v => .error (.malformed s!"binding must be a string or object, got {v.kindName}")

def encode (i : Invocation) : Value :=
  .record <|
    ("toolId", .string i.tool)
      :: Value.memberIf (!i.params.isEmpty) "params" (.object i.params)
      ++ (i.app?.toList.map fun app => ("appId", .string app))

end Invocation

end DynamicUi
