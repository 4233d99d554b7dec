import DynamicUi.KeyMap

/-! # Reading arguments

Options have a long name and may have a short one. A value stands in the next argument or is
attached: after an equals sign, or right after the short name. Short names may be run together.
The reader stops at the first argument that is no option.
-/

namespace DynamicUi.CommandLine

/-- What an option takes or does. A path is a text that is not empty. -/
inductive OptionKind where
  | flag | text | path | help | version
deriving DecidableEq

structure OptionRule where
  name : String
  short? : Option Char
  kind : OptionKind
deriving DecidableEq

inductive Interruption where
  | misuse | help | version
deriving DecidableEq

abbrev Settings := KeyMap String

inductive Shape where
  | long (name : String) (attached : Option String)
  | short (names : List Char)
  | stop
  | plain
deriving DecidableEq

def Shape.of (argument : String) : Shape :=
  match argument.toList with
  | ['-', '-'] => stop
  | '-' :: '-' :: cs =>
    let (name, rest) := cs.span (· != '=')
    long (String.ofList name) (if rest.isEmpty then none else some (String.ofList (rest.drop 1)))
  | '-' :: c :: cs => short (c :: cs)
  | _ => plain

/-- Puts an option on record. No option may be given twice. -/
def Settings.put (s : Settings) (rule : OptionRule) (value : String) :
    Except Interruption Settings :=
  match rule.kind with
  | .help => .error .help
  | .version => .error .version
  | kind =>
    if KeyMap.contains s rule.name || (kind = .path && value = "") then .error .misuse
    else .ok (KeyMap.insert s rule.name value)

def OptionRule.takesValue (rule : OptionRule) : Bool := rule.kind = .text || rule.kind = .path

/-- The settings after an option, and the option itself if its value is still to come. -/
abbrev Progress := Except Interruption (Settings × Option OptionRule)

def readLong (rules : List OptionRule) (s : Settings) (name : String) (attached : Option String) :
    Progress :=
  match rules.find? fun rule => rule.name = name with
  | none => .error .misuse
  | some rule =>
    match rule.takesValue, attached with
    | true, none => .ok (s, some rule)
    | true, some value => (s.put rule value).map fun s => (s, none)
    | false, none => (s.put rule "").map fun s => (s, none)
    | false, some _ => .error .misuse

def attachedValue : List Char → String
  | '=' :: cs => String.ofList cs
  | cs => String.ofList cs

def readShort (rules : List OptionRule) : Settings → List Char → Progress
  | s, [] => .ok (s, none)
  | s, c :: cs =>
    match rules.find? fun rule => rule.short? = some c with
    | none => .error .misuse
    | some rule =>
      if !rule.takesValue then (s.put rule "").bind fun s => readShort rules s cs
      else if cs.isEmpty then .ok (s, some rule)
      else (s.put rule (attachedValue cs)).map fun s => (s, none)

/-- Reads options; gives the settings and the arguments from the first that is no option. -/
def readOptions (rules : List OptionRule) :
    List String → Settings × Option OptionRule → Except Interruption (Settings × List String)
  | [], (s, none) => .ok (s, [])
  | [], (_, some _) => .error .misuse
  | argument :: rest, (s, wanting) =>
    match Shape.of argument, wanting with
    | .plain, some rule => (s.put rule argument).bind fun s => readOptions rules rest (s, none)
    | .plain, none => .ok (s, argument :: rest)
    | _, some _ => .error .misuse
    | .stop, none => if rest.isEmpty then .ok (s, []) else .error .misuse
    | .long name attached, none => (readLong rules s name attached).bind (readOptions rules rest)
    | .short names, none => (readShort rules s names).bind (readOptions rules rest)

end DynamicUi.CommandLine
