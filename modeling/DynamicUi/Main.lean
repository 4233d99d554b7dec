import DynamicUi.CommandLine.Program

/-! # The command -/

open DynamicUi CommandLine

def readFile (path : String) : IO (Option String) := do
  match ← (IO.FS.readFile path).toBaseIO with
  | .ok text => return some text
  | .error _ => return none

/-- The files a command line may ask for: those whose paths stand among its arguments. -/
def readFiles (paths : List String) : IO (KeyMap String) := do
  let mut files := []
  for path in paths do
    if let some text ← readFile path then
      files := KeyMap.insert files path text
  return files

def Options.paths (o : Options) : List String :=
  match o.command with
  | .render t | .validate t => t.spec :: o.config.toList
  | .run t script => t.spec :: o.config.toList ++ script.toList

def finish (e : Exit) : IO UInt32 := do
  IO.print e.output
  if let some failure := e.failure then
    IO.eprintln s!"Error: {failure.message}"
  return .ofNat e.code

def main (arguments : List String) : IO UInt32 := do
  let paths := match Options.read arguments with
    | .ok o => Options.paths o
    | .error _ => []
  let files ← readFiles paths
  finish (run (KeyMap.get? files) arguments)
