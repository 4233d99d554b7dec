/-! # What can go wrong

Each concern has its own errors, with their wording. A call fails with a stable code and a message,
or was abandoned because its caller had been cleaned up.
-/

namespace DynamicUi

inductive SpecError where
  | unknownType (kind : String)
  | malformed (reason : String)
  | depthExceeded (limit : Nat)
  | invalidProp (prop reason : String)
  | invalidJson (detail : String)
deriving DecidableEq

namespace SpecError

def message : SpecError → String
  | unknownType kind => s!"Unknown component type: {kind}"
  | malformed reason => s!"Malformed node: {reason}"
  | depthExceeded limit => s!"Nesting depth exceeds limit of {limit}"
  | invalidProp prop reason => s!"Invalid prop '{prop}': {reason}"
  | invalidJson detail => s!"Invalid spec JSON: {detail}"

end SpecError

inductive CallError where
  | execution (tool code message : String)
  | disposed (tool : String)
deriving DecidableEq

namespace CallError

def timeout (tool : String) (ms : Nat) : CallError :=
  execution tool "TIMEOUT" s!"no result after {ms}ms"

def unknownTool (tool : String) : CallError :=
  execution tool "UNKNOWN_TOOL" s!"no handler registered for '{tool}'"

def invalidParams (tool message : String) : CallError := execution tool "INVALID_PARAMS" message

def unboundApp (tool : String) : CallError :=
  execution tool "UNBOUND_APP" "no app id bound and none supplied"

def notStarted (tool : String) : CallError :=
  execution tool "INTERNAL" "no async runtime to run the call on"

def tool : CallError → String
  | execution tool _ _ => tool
  | disposed tool => tool

def code : CallError → String
  | execution _ code _ => code
  | disposed _ => "DISPOSED"

def detail : CallError → String
  | execution _ _ message => message
  | disposed _ => "dispatcher has been cleaned up"

def isDisposed : CallError → Bool
  | execution .. => false
  | disposed _ => true

def message : CallError → String
  | execution tool code message => s!"Tool '{tool}' failed [{code}]: {message}"
  | disposed tool => s!"Dispatcher disposed, '{tool}' was not executed"

end CallError

inductive WindowError where
  | appIdMismatch (window bound requested : String)
  | appIdAlreadyBound (bound requested : String)
  | unknownWindow (window : String)
deriving DecidableEq

namespace WindowError

def message : WindowError → String
  | appIdMismatch window bound requested =>
    s!"Window {window} is bound to app '{bound}', refusing '{requested}'"
  | appIdAlreadyBound bound requested =>
    s!"App id already bound to '{bound}', refusing '{requested}'"
  | unknownWindow window => s!"Window not found: {window}"

end WindowError

inductive BlueprintError where
  | invalidJson (detail : String)
  | notAnObject
  | missingSection (name : String)
  | missingField (name : String)
deriving DecidableEq

namespace BlueprintError

def message : BlueprintError → String
  | invalidJson detail => s!"Invalid JSON: {detail}"
  | notAnObject => "Expected a JSON object"
  | missingSection name => s!"Missing '{name}' section"
  | missingField name => s!"{name} is required"

end BlueprintError

inductive ConfigError where
  | parse (detail : String)
  | invalid (field reason : String)
deriving DecidableEq

def ConfigError.message : ConfigError → String
  | parse detail => s!"Failed to parse config: {detail}"
  | invalid field reason => s!"Invalid value for {field}: {reason}"

inductive Failure where
  | spec (e : SpecError)
  | tool (e : CallError)
  | lifecycle (e : WindowError)
  | blueprint (e : BlueprintError)
  | config (e : ConfigError)

def Failure.message : Failure → String
  | spec e => s!"Spec error: {e.message}"
  | tool e => s!"Tool error: {e.message}"
  | lifecycle e => s!"Lifecycle error: {e.message}"
  | blueprint e => s!"Blueprint error: {e.message}"
  | config e => s!"Config error: {e.message}"

end DynamicUi
