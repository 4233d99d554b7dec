import DynamicUi.CommandLine.Arguments

/-! # The command line

A command names what to do with one specification. The configuration and the log preset may be
given before the command or after it; what is given after it counts.
-/

namespace DynamicUi.CommandLine

structure Target where
  spec : String
  blueprint : Bool
  window : String
  app? : Option String
deriving DecidableEq

inductive Command where
  | render (target : Target)
  | run (target : Target) (script : Option String)
  | validate (target : Target)
deriving DecidableEq

structure Options where
  command : Command
  config : Option String
  log : String
deriving DecidableEq

def commonRules : List OptionRule :=
  [⟨"config", some 'c', .path⟩, ⟨"log", none, .text⟩, ⟨"help", some 'h', .help⟩]

def mainRules : List OptionRule := ⟨"version", some 'V', .version⟩ :: commonRules

def targetRules : List OptionRule :=
  [⟨"spec", some 's', .path⟩, ⟨"blueprint", some 'b', .flag⟩, ⟨"window", some 'w', .text⟩,
    ⟨"app", some 'a', .text⟩] ++ commonRules

def scriptRule : OptionRule := ⟨"script", none, .path⟩

def rulesOf? : String → Option (List OptionRule)
  | "render" | "validate" => some targetRules
  | "run" => some (scriptRule :: targetRules)
  | _ => none

def targetOf? (s : Settings) : Option Target :=
  (KeyMap.get? s "spec").map fun spec => {
    spec
    blueprint := KeyMap.contains s "blueprint"
    window := (KeyMap.get? s "window").getD "W1"
    app? := KeyMap.get? s "app" }

def commandOf (name : String) (s : Settings) (t : Target) : Command :=
  match name with
  | "render" => .render t
  | "run" => .run t (KeyMap.get? s "script")
  | _ => .validate t

/-- The options of a command line; `outer` was given before the command. -/
def optionsOf? (name : String) (outer s : Settings) : Option Options :=
  (targetOf? s).map fun t => {
    command := commandOf name s t
    config := (KeyMap.get? s "config").or (KeyMap.get? outer "config")
    log := ((KeyMap.get? s "log").or (KeyMap.get? outer "log")).getD "testing" }

def helpAbout : List String → Interruption
  | [] => .help
  | [topic] => if topic = "help" || (rulesOf? topic).isSome then .help else .misuse
  | _ => .misuse

def readCommand (outer : Settings) (name : String) (arguments : List String) :
    Except Interruption Options := do
  if name = "help" then throw (helpAbout arguments)
  let some rules := rulesOf? name | throw .misuse
  let (s, rest) ← readOptions rules arguments ([], none)
  if !rest.isEmpty then throw .misuse
  match optionsOf? name outer s with
  | some options => return options
  | none => throw .misuse

def Options.read (arguments : List String) : Except Interruption Options := do
  let (outer, rest) ← readOptions mainRules arguments ([], none)
  match rest with
  | [] => throw .misuse
  | name :: arguments => readCommand outer name arguments

end DynamicUi.CommandLine
