import DynamicUi.Config.Basic
import DynamicUi.Json.Basic
import DynamicUi.Toml.Parser

/-! # Reading configuration

Each section is an object, or an array that gives its fields in order. What is missing takes
its default, unknown fields are passed over, and a field of the wrong type is refused.
-/

namespace DynamicUi.Config

open Json

def decodeVirtualization (surplus : Bool) (v : Value) : Option Virtualization := do
  let fields ← recordFields surplus ["threshold", "item_height", "viewport_height", "overscan"] v
  let d := Virtualization.standard
  return {
    threshold := ← field fields "threshold" d.threshold Value.asNat?
    itemHeight := ← field fields "item_height" d.itemHeight Value.asFloat?
    viewportHeight := ← field fields "viewport_height" d.viewportHeight Value.asFloat?
    overscan := ← field fields "overscan" d.overscan Value.asNat? }

def decodeMaxDepth (surplus : Bool) (v : Value) : Option Nat := do
  field (← recordFields surplus ["max_depth"] v) "max_depth" standard.maxDepth Value.asNat?

def decodeCallTimeout (surplus : Bool) (v : Value) : Option (Option Nat) := do
  field (← recordFields surplus ["call_timeout_ms"] v) "call_timeout_ms" none
    (nullable Value.asNat?)

def decode (surplus : Bool) (v : Value) : Option Config := do
  let fields ← recordFields surplus ["virtualization", "render", "dispatch"] v
  return {
    virtualization :=
      ← field fields "virtualization" .standard (decodeVirtualization surplus)
    maxDepth := ← field fields "render" standard.maxDepth (decodeMaxDepth surplus)
    callTimeout := ← field fields "dispatch" none (decodeCallTimeout surplus) }

def parse (text : String) : Except ConfigError Config :=
  match (Toml.parse text).bind (decode true) with
  | some c => c.check
  | none => .error (.parse Toml.faultText)

end DynamicUi.Config
