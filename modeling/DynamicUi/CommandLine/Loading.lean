import DynamicUi.Blueprint.AppPackage
import DynamicUi.Config.Decoder
import DynamicUi.Script.Step

/-! # Loading files

Everything a command works on is read from files. A failure tells of the file first and of the
reason after it.
-/

namespace DynamicUi

abbrev Files := String → Option String

inductive FileKind where
  | spec | blueprint | config | script
deriving DecidableEq

namespace FileKind

def noun : FileKind → String
  | spec | blueprint => ""
  | config => "config "
  | script => "script "

end FileKind

inductive LoadError where
  | unreadable (kind : FileKind) (path : String)
  | spec (path : String) (e : SpecError)
  | blueprint (path : String) (e : BlueprintError)
  | config (path : String) (e : ConfigError)
  | script (path : String)
deriving DecidableEq

/-- Stands for the account of why a file cannot be read. -/
def unreadableText : String := "<io>"

/-- What is said of a script that does not decode, the outermost account first. -/
def Step.faultTexts : List String := ["Script must be a JSON array of steps", Json.faultText]

def LoadError.causes : LoadError → List String
  | unreadable kind path => [s!"Failed to read {kind.noun}{path}", unreadableText]
  | spec path e => [s!"Invalid spec in {path}", e.message]
  | blueprint path e => [s!"Invalid blueprint in {path}", e.message]
  | config path e => [s!"Invalid config in {path}", e.message]
  | script path => s!"Invalid script in {path}" :: Step.faultTexts

structure SpecFile where
  spec : Spec
  app? : Option String

namespace Files

def read (files : Files) (kind : FileKind) (path : String) : Except LoadError String :=
  match files path with
  | some text => .ok text
  | none => .error (.unreadable kind path)

def readSpec (files : Files) (path : String) : Except LoadError SpecFile := do
  let text ← files.read .spec path
  match Spec.parse text with
  | .ok spec => return ⟨spec, none⟩
  | .error e => throw (.spec path e)

def readBlueprint (files : Files) (path : String) : Except LoadError SpecFile := do
  let text ← files.read .blueprint path
  match AppPackage.parse text with
  | .ok package => return ⟨package.window, some package.id⟩
  | .error e => throw (.blueprint path e)

def readConfig (files : Files) : Option String → Except LoadError Config
  | none => .ok .standard
  | some path => do
    let text ← files.read .config path
    match Config.parse text with
    | .ok config => return config
    | .error e => throw (.config path e)

def readScript (files : Files) (path : String) : Except LoadError (List Step) := do
  let text ← files.read .script path
  match Step.parseAll text with
  | some steps => return steps
  | none => throw (.script path)

end Files

end DynamicUi
