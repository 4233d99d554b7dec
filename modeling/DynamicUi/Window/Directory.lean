import DynamicUi.Call.Schedule
import DynamicUi.Store.Basic

/-! # Open windows

Each open window owns an instance, a store and a caller of one number, bound to the app the
window was opened for. An instance that is detached is disposed, and never handed out again.
-/

namespace DynamicUi

structure Record where
  app : String
  instanceId : Nat
deriving DecidableEq

/-- The windows in front of one exchange; `ρ` is what calls carry, `κ` what listens to stores. -/
structure Directory (ρ κ : Type) where
  exchange : Exchange ρ
  /-- The stores of all instances so far, beside the callers of the exchange. -/
  stores : List (Store κ)
  records : KeyMap Record
  timeout : Option Nat

namespace Directory

variable {ρ κ : Type}

def ofExchange (x : Exchange ρ) (timeout : Option Nat) : Directory ρ κ := ⟨x, [], [], timeout⟩

def record? (r : Directory ρ κ) (window : String) : Option Record := KeyMap.get? r.records window

def create (r : Directory ρ κ) (window app : String) : Directory ρ κ × Nat :=
  let (exchange, n) := r.exchange.addCaller { Caller.unbound r.timeout with app? := some app }
  ({ r with
      exchange
      stores := r.stores ++ [.empty]
      records := KeyMap.insert r.records window ⟨app, n⟩ },
    n)

/-- The instance of a window, made on first use; another app is refused. -/
def acquire (r : Directory ρ κ) (window app : String) :
    Except WindowError (Directory ρ κ × Nat) :=
  match r.record? window with
  | none => .ok (r.create window app)
  | some record =>
    if record.app = app then .ok (r, record.instanceId)
    else .error (.appIdMismatch window record.app app)

def onStore (r : Directory ρ κ) (n : Nat) (f : Store κ → Store κ) : Directory ρ κ :=
  { r with stores := r.stores.modify n f }

def onExchange (r : Directory ρ κ) (f : Exchange ρ → Exchange ρ) : Directory ρ κ :=
  { r with exchange := f r.exchange }

def release (r : Directory ρ κ) (n : Nat) : Directory ρ κ :=
  (r.onExchange (·.retire n)).onStore n Store.clearListeners

def remove (r : Directory ρ κ) (window : String) : Directory ρ κ × Bool :=
  match r.record? window with
  | none => (r, false)
  | some record =>
    ({ r with records := KeyMap.erase r.records window }.release record.instanceId, true)

def clear (r : Directory ρ κ) : Directory ρ κ × Nat :=
  ((KeyMap.values r.records).foldl (fun r record => r.release record.instanceId)
      { r with records := [] },
    r.records.length)

end Directory

end DynamicUi
