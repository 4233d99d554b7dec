import DynamicUi.Json.Basic

/-! # Log settings

What is logged and where to. The filter is a base level followed by directives for single
targets; named presets cover the usual cases.
-/

namespace DynamicUi

open Json

inductive ConsoleStyle where
  | off | pretty | jsonl
deriving DecidableEq

inductive Rotation where
  | daily | hourly | never
deriving DecidableEq

structure LogFile where
  directory : String
  namePrefix : String
  rotation : Rotation
deriving DecidableEq

structure LogRecords where
  flattenEvents : Bool
  includeSpans : Bool
  includeLocation : Bool
deriving DecidableEq

structure LogSettings where
  level : String
  directives : List String
  console : ConsoleStyle
  ansi : Bool
  file : Option LogFile
  records : LogRecords
deriving DecidableEq

namespace ConsoleStyle

def names : KeyMap ConsoleStyle := [("jsonl", jsonl), ("off", off), ("pretty", pretty)]

def name : ConsoleStyle → String
  | off => "off"
  | pretty => "pretty"
  | jsonl => "jsonl"

end ConsoleStyle

namespace Rotation

def names : KeyMap Rotation := [("daily", daily), ("hourly", hourly), ("never", never)]

def name : Rotation → String
  | daily => "daily"
  | hourly => "hourly"
  | never => "never"

end Rotation

def LogFile.standard : LogFile := ⟨"./logs", "spectral", .daily⟩

def LogRecords.standard : LogRecords := ⟨true, true, false⟩

namespace LogSettings

def standard : LogSettings := ⟨"info", [], .jsonl, false, none, .standard⟩

def development : LogSettings :=
  { standard with level := "debug", console := .pretty, ansi := true }

/-- Records go to a file of each day, nothing to the console. -/
def production (directory : String) : LogSettings :=
  { standard with console := .off, file := some { LogFile.standard with directory } }

def testing : LogSettings := { standard with level := "warn", console := .pretty }

def calls : LogSettings :=
  { testing with
    directives := ["spectral_runtime::dispatcher=debug", "spectral_runtime::host=debug"] }

def presetNames : List String := ["default", "development", "testing", "calls"]

def preset? : String → Option LogSettings
  | "default" => some standard
  | "development" | "dev" => some development
  | "testing" | "test" => some testing
  | "calls" => some calls
  | _ => none

def addDirective (s : LogSettings) (directive : String) : LogSettings :=
  { s with directives := s.directives ++ [directive] }

def filter (s : LogSettings) : String := ",".intercalate (s.level :: s.directives)

/-- A name from a list, alone or as the only member of an object, whose value is null. -/
def named {α : Type} (names : KeyMap α) : Value → Option α
  | .string s => KeyMap.get? names s
  | .object [(s, .null)] => KeyMap.get? names s
  | _ => none

def decodeFile (v : Value) : Option LogFile := do
  let fields ← recordFields false ["directory", "prefix", "rotation"] v
  let d := LogFile.standard
  return {
    directory := ← field fields "directory" d.directory Value.asString?
    namePrefix := ← field fields "prefix" d.namePrefix Value.asString?
    rotation := ← field fields "rotation" d.rotation (named Rotation.names) }

def decodeRecords (v : Value) : Option LogRecords := do
  let fields ← recordFields false ["flatten_events", "include_spans", "include_location"] v
  let d := LogRecords.standard
  return {
    flattenEvents := ← field fields "flatten_events" d.flattenEvents Value.asBool?
    includeSpans := ← field fields "include_spans" d.includeSpans Value.asBool?
    includeLocation := ← field fields "include_location" d.includeLocation Value.asBool? }

def textList (v : Value) : Option (List String) := v.asArray?.bind fun vs => vs.mapM Value.asString?

def decode (v : Value) : Option LogSettings := do
  let fields ← recordFields false ["level", "directives", "console", "ansi", "file", "jsonl"] v
  let d := standard
  return {
    level := ← field fields "level" d.level Value.asString?
    directives := ← field fields "directives" d.directives textList
    console := ← field fields "console" d.console (named ConsoleStyle.names)
    ansi := ← field fields "ansi" d.ansi Value.asBool?
    file := ← field fields "file" d.file (nullable decodeFile)
    records := ← field fields "jsonl" d.records decodeRecords }

def encodeFile (f : LogFile) : Value :=
  .record [("directory", .string f.directory), ("prefix", .string f.namePrefix),
    ("rotation", .string f.rotation.name)]

def encode (s : LogSettings) : Value :=
  .record [("level", .string s.level), ("directives", .strings s.directives),
    ("console", .string s.console.name), ("ansi", .bool s.ansi),
    ("file", .optional encodeFile s.file),
    ("jsonl", .record [("flatten_events", .bool s.records.flattenEvents),
      ("include_spans", .bool s.records.includeSpans),
      ("include_location", .bool s.records.includeLocation)])]

end LogSettings

end DynamicUi
