import DynamicUi.Failure
import DynamicUi.Json.Basic

/-! # Backends

A backend answers requests by the handlers of its tools. An answer is an outcome and the time
it takes; a tool without a handler fails at once. Every request is put on record.
-/

namespace DynamicUi

open Json

abbrev Outcome := Except CallError Value

structure Request where
  callId : Nat
  app : String
  tool : String
  params : Fields

structure Reply where
  /-- Milliseconds until the outcome is there. -/
  delay : Nat
  outcome : Outcome

abbrev Handler := Request → Reply

structure Backend where
  handlers : KeyMap Handler
  /-- The requests so far, the first one first. -/
  received : List Request

namespace Backend

def empty : Backend := ⟨[], []⟩

def serves (b : Backend) (tool : String) : Bool := KeyMap.contains b.handlers tool

def register (b : Backend) (tool : String) (h : Handler) : Backend :=
  { b with handlers := KeyMap.insert b.handlers tool h }

def respond (b : Backend) (r : Request) : Reply :=
  match KeyMap.get? b.handlers r.tool with
  | some h => h r
  | none => ⟨0, .error (.unknownTool r.tool)⟩

def receive (b : Backend) (r : Request) : Backend × Reply :=
  ({ b with received := b.received ++ [r] }, b.respond r)

end Backend

end DynamicUi
