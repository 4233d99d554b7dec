import DynamicUi.Failure
import DynamicUi.Json.Basic

/-! # Configuration

What all windows of a desktop share: when lists are windowed, how deep trees may be, and how
long calls may take. `check` names the first value that cannot be worked with.
-/

namespace DynamicUi

structure Virtualization where
  /-- Lists with at least this many children are windowed. -/
  threshold : Nat
  itemHeight : Float
  viewportHeight : Float
  /-- Items mounted beyond the visible ones at either end. -/
  overscan : Nat

structure Config where
  virtualization : Virtualization
  /-- Nodes at this depth or deeper are not rendered. -/
  maxDepth : Nat
  /-- Milliseconds until a call times out. -/
  callTimeout : Option Nat

def Virtualization.standard : Virtualization := ⟨30, 40, 480, 3⟩

namespace Config

open Json

def standard : Config := ⟨.standard, 64, none⟩

def isUsable (x : Float) : Bool := Decimal.isFinite x && 0 < x

def check (c : Config) : Except ConfigError Config := do
  let v := c.virtualization
  if v.threshold = 0 then
    throw (.invalid "virtualization.threshold" "must be at least 1")
  if !isUsable v.itemHeight then
    throw (.invalid "virtualization.item_height" "must be a positive number")
  if !isUsable v.viewportHeight then
    throw (.invalid "virtualization.viewport_height" "must be a positive number")
  if c.maxDepth = 0 then
    throw (.invalid "render.max_depth" "must be at least 1")
  if c.callTimeout = some 0 then
    throw (.invalid "dispatch.call_timeout_ms" "must be greater than zero")
  return c

def encode (c : Config) : Value :=
  .record [
    ("virtualization", .record [
      ("threshold", .nat c.virtualization.threshold),
      ("item_height", .ofFloat c.virtualization.itemHeight),
      ("viewport_height", .ofFloat c.virtualization.viewportHeight),
      ("overscan", .nat c.virtualization.overscan)]),
    ("render", .record [("max_depth", .nat c.maxDepth)]),
    ("dispatch", .record [("call_timeout_ms", .optional .nat c.callTimeout)])]

end Config

end DynamicUi
