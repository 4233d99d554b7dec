import DynamicUi.Call.Calculator
import DynamicUi.CommandLine.Loading
import DynamicUi.CommandLine.Options
import DynamicUi.Diagnostics.LogSettings
import DynamicUi.Script.Replay
import DynamicUi.Spec.Validation
import DynamicUi.Window.Desktop

/-! # The program

A run is a function of the arguments and the files. It writes one document, and ends with code 0,
with 1 after a failure, or with 2 if it was not called properly.
-/

namespace DynamicUi.CommandLine

open Json

inductive ProgramError where
  | unknownPreset (name : String)
  | load (e : LoadError)
  | window (id : String) (e : WindowError)
  | issues (count : Nat)
deriving DecidableEq

/-- The outermost account first. -/
def ProgramError.causes : ProgramError → List String
  | unknownPreset name => [s!"Unknown log preset '{name}'"]
  | load e => e.causes
  | window id e => [s!"Failed to open window {id}", e.message]
  | issues count => [s!"{count} issue(s) found"]

def ProgramError.message (e : ProgramError) : String := e.causes.headD ""

structure Exit where
  code : Nat
  output : String
  failure : Option ProgramError
deriving DecidableEq

namespace Exit

def done (v : Value) : Exit := ⟨0, v.pretty ++ "\n", none⟩

def failed (e : ProgramError) : Exit := ⟨1, "", some e⟩

end Exit

def readTarget (files : Files) (t : Target) : Except LoadError (Spec × String) := do
  let loaded ← if t.blueprint then files.readBlueprint t.spec else files.readSpec t.spec
  return (loaded.spec, (t.app?.or loaded.app?).getD "app")

def readSteps (files : Files) : Option String → Except LoadError (List Step)
  | none => .ok []
  | some path => files.readScript path

def performed (config : Config) (t : Target) (spec : Spec) (app : String) (scripted : Bool)
    (steps : List Step) : Except WindowError Value := do
  let renderer := Renderer.standard config
  let desktop := Desktop.start renderer (.ofBackend Calculator.backend true)
  let w ← desktop.openedWindow t.window app spec
  let (w, report, output) := w.perform renderer steps
  return .record [("window", .string t.window), ("app", .string app),
    ("script", if scripted then report.encode else .null), ("tree", output.encode),
    ("state", .object w.store.values)]

def showTarget (files : Files) (config : Config) (t : Target) (script : Option String) : Exit :=
  match readTarget files t, readSteps files script with
  | .error e, _ => .failed (.load e)
  | .ok _, .error e => .failed (.load e)
  | .ok (spec, app), .ok steps =>
    match performed config t spec app script.isSome steps with
    | .ok v => .done v
    | .error e => .failed (.window t.window e)

/-- Reports the issues of a specification; the run fails if there are any. -/
def validateTarget (files : Files) (config : Config) (t : Target) : Exit :=
  match readTarget files t with
  | .error e => .failed (.load e)
  | .ok (spec, app) =>
    let issues := spec.issues config.maxDepth
    let exit := Exit.done (.record [("app", .string app), ("title", .string spec.title),
      ("nodes", .nat spec.size), ("issues", .array (issues.map Issue.encode))])
    if issues.isEmpty then exit
    else { exit with code := 1, failure := some (.issues issues.length) }

def runCommand (files : Files) (config : Config) : Command → Exit
  | .render t => showTarget files config t none
  | .run t script => showTarget files config t script
  | .validate t => validateTarget files config t

def runOptions (files : Files) (o : Options) : Exit :=
  match LogSettings.preset? o.log with
  | none => .failed (.unknownPreset o.log)
  | some _ =>
    match files.readConfig o.config with
    | .error e => .failed (.load e)
    | .ok config => runCommand files config o.command

def versionText : String := "spectral 0.1.0\n"

def helpText : String :=
  "Usage: spectral [OPTIONS] <COMMAND>\n\n"
    ++ "Commands:\n"
    ++ "  render    Render a spec once and print the tree\n"
    ++ "  run       Replay a script of interactions and print the final tree and state\n"
    ++ "  validate  Report advisory problems in a spec\n"
    ++ "  help      Print this message\n\n"
    ++ "Options:\n"
    ++ "  -c, --config <CONFIG>  Runtime config file (TOML)\n"
    ++ "      --log <LOG>        Log preset: default, development, testing, calls\n"
    ++ "  -h, --help             Print help\n"
    ++ "  -V, --version          Print version\n"

def interrupted : Interruption → Exit
  | .misuse => ⟨2, "", none⟩
  | .help => ⟨0, helpText, none⟩
  | .version => ⟨0, versionText, none⟩

def run (files : Files) (arguments : List String) : Exit :=
  match Options.read arguments with
  | .ok o => runOptions files o
  | .error i => interrupted i

end DynamicUi.CommandLine
