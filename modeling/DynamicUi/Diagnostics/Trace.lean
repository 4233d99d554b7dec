import DynamicUi.Diagnostics.Uuid
import DynamicUi.Json.Basic

/-! # Tracing calls

An interaction and the calls it causes share a trace; each operation in it is a span. The pair
travels as a trace-parent text: version, trace, the first half of the span, and flags, with the
identifiers in a given spelling.
-/

namespace DynamicUi

open Json

structure Trace where
  traceId : Uuid
  spanId : Uuid
  parentSpanId : Option Uuid
  callId : Option Nat
  toolId : Option String
deriving DecidableEq

namespace Trace

def root (traceId spanId : Uuid) : Trace := ⟨traceId, spanId, none, none, none⟩

def child (c : Trace) (spanId : Uuid) : Trace :=
  { c with spanId, parentSpanId := some c.spanId }

def forCall (c : Trace) (callId : Nat) (toolId : String) : Trace :=
  { c with callId := some callId, toolId := some toolId }

def traceParentIn (s : Uuid.Spelling) (c : Trace) : String :=
  let half := String.ofList ((s.plain c.spanId).toList.take 16)
  "00-" ++ s.plain c.traceId ++ "-" ++ half ++ "-01"

/-- Half a span, filled up with zeros. -/
def spanOfHalf? (s : Uuid.Spelling) (half : List Char) : Option Uuid :=
  s.read? (String.ofList half ++ "0000000000000000")

/-- Four parts between hyphens, of which the inner two count. -/
def ofTraceParentIn? (s : Uuid.Spelling) (text : String) : Option Trace :=
  match Text.pieces '-' text.toList with
  | [_, trace, half, _] => do
    let traceId ← s.read? (String.ofList trace)
    let spanId ← spanOfHalf? s half
    return root traceId spanId
  | _ => none

def traceParent (c : Trace) : String := c.traceParentIn Uuid.spelling

def ofTraceParent? (text : String) : Option Trace := ofTraceParentIn? Uuid.spelling text

def uuid? (v : Value) : Option Uuid := v.asString?.bind Uuid.parse?

def fieldNames : List String := ["trace_id", "span_id", "parent_span_id", "call_id", "tool_id"]

/-- The fields by name, or all five in order. -/
def fieldsOf (v : Value) : Option Fields :=
  match v with
  | .array vs => if vs.length = fieldNames.length then recordFields false fieldNames v else none
  | v => recordFields false fieldNames v

def decode (v : Value) : Option Trace := do
  let fields ← fieldsOf v
  return {
    traceId := ← (KeyMap.get? fields "trace_id").bind uuid?
    spanId := ← (KeyMap.get? fields "span_id").bind uuid?
    parentSpanId := ← field fields "parent_span_id" none (nullable uuid?)
    callId := ← field fields "call_id" none (nullable Value.asNat?)
    toolId := ← field fields "tool_id" none (nullable Value.asString?) }

def encode (c : Trace) : Value :=
  .record [("trace_id", .string c.traceId.hyphenated), ("span_id", .string c.spanId.hyphenated),
    ("parent_span_id", .optional (fun u => .string (Uuid.hyphenated u)) c.parentSpanId),
    ("call_id", .optional .nat c.callId), ("tool_id", .optional .string c.toolId)]

def recorded (c : Trace) : KeyMap String :=
  KeyMap.ofList <|
    [("trace_id", c.traceId.hyphenated), ("span_id", c.spanId.hyphenated)]
      ++ (c.parentSpanId.toList.map fun u => ("parent_span_id", u.hyphenated))
      ++ (c.callId.toList.map fun n => ("call_id", toString n))
      ++ (c.toolId.toList.map fun t => ("tool_id", t))

end Trace

end DynamicUi
