import DynamicUi.Blueprint.Expansion
import DynamicUi.Spec.Document

/-! # App packages

A blueprint bundles what an app is, the services it imports and a window written tersely.
Reading one gives a package whose window is a specification like any other.
-/

namespace DynamicUi

open Json

/-- A service whose tools an app may call. -/
inductive ServiceGrant where
  | all (service : String)
  | only (service : String) (tools : List String) (config : Fields)

namespace ServiceGrant

def service : ServiceGrant → String
  | all name => name
  | only name _ _ => name

def permits (i : ServiceGrant) (tool : String) : Bool :=
  match i with
  | all _ => true
  | only _ tools _ => tools.contains tool

/-- An import is narrowed by a list of tools, alone or beside further settings. -/
def decodeEntry (name : String) : Value → ServiceGrant
  | .array tools => only name (tools.filterMap Value.asString?) []
  | .object fields =>
    match KeyMap.get? fields "tools" with
    | some (.array tools) =>
      only name (tools.filterMap Value.asString?) (KeyMap.erase fields "tools")
    | _ => all name
  | _ => all name

def decode : Value → List ServiceGrant
  | .string name => [all name]
  | .object fields => fields.map fun (name, v) => decodeEntry name v
  | _ => []

def decodeAll : Option Value → List ServiceGrant
  | some (.array vs) => vs.flatMap decode
  | _ => []

def encode : ServiceGrant → Value
  | all name => .string name
  | only name tools config =>
    .record <| ("service", .string name) :: ("tools", .strings tools)
      :: Value.memberIf (!config.isEmpty) "config" (.object config)

end ServiceGrant

structure AppPackage where
  id : String
  name : String
  description : String
  icon : Option String
  category : Option String
  version : String
  author : String
  services : List ServiceGrant
  permissions : List String
  tags : List String
  window : Spec
  config : Fields

namespace AppPackage

def expandComponents (ui : Fields) : List Value :=
  match KeyMap.get? ui "components" with
  | some (.array vs) => (Expansion.expandAll vs 0).1
  | _ => []

def decodeWindow (ui : Fields) : Spec :=
  { Spec.untitled with
    title := (ui.string? "title").getD "Untitled"
    layout := (ui.string? "layout").getD "vertical"
    roots := (Node.decodeAll (expandComponents ui) 0).1
    style := (ui.object? "style").getD []
    hooks := match KeyMap.get? ui "lifecycle" with
      | some v => Spec.hooksOf v
      | none => [] }

def windowOf (doc : Fields) : Spec :=
  match doc.object? "ui" with
  | some ui => if ui.isEmpty then Spec.untitled else decodeWindow ui
  | none => Spec.untitled

def required (app : Fields) (name : String) : Except BlueprintError String :=
  match app.string? name with
  | some s => if s = "" then .error (.missingField s!"app.{name}") else .ok s
  | none => .error (.missingField s!"app.{name}")

def assemble (doc app : Fields) (id name : String) : AppPackage where
  id := id
  name := name
  description := (app.string? "description").getD ""
  icon := app.string? "icon"
  category := app.string? "category"
  version := (app.string? "version").getD "1.0.0"
  author := (app.string? "author").getD "user"
  services := ServiceGrant.decodeAll (KeyMap.get? doc "services")
  permissions := (app.textsAt? "permissions").getD ["STANDARD"]
  tags := (app.textsAt? "tags").getD []
  window := windowOf doc
  config := (doc.object? "config").getD []

def ofFields (doc : Fields) : Except BlueprintError AppPackage :=
  match doc.object? "app" with
  | none => .error (.missingSection "app")
  | some app => do
    let id ← required app "id"
    let name ← required app "name"
    return assemble doc app id name

def decode : Value → Except BlueprintError AppPackage
  | .object doc => ofFields doc
  | _ => .error .notAnObject

def parse (text : String) : Except BlueprintError AppPackage :=
  match Json.parse text with
  | some v => decode v
  | none => .error (.invalidJson Json.faultText)

def encode (p : AppPackage) : Value :=
  .record <|
    [("id", .string p.id), ("name", .string p.name), ("description", .string p.description)]
      ++ (p.icon.toList.map fun s => ("icon", .string s))
      ++ (p.category.toList.map fun s => ("category", .string s))
      ++ [("version", .string p.version), ("author", .string p.author),
        ("services", .array (p.services.map ServiceGrant.encode)),
        ("permissions", .strings p.permissions), ("tags", .strings p.tags),
        ("ui_spec", p.window.encode), ("config", .object p.config)]

end AppPackage

end DynamicUi
