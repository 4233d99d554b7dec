import DynamicUi.Call.Backend
import DynamicUi.Spec.Invocation
import DynamicUi.Text.Hidden

/-! # Callers

A caller issues the calls of one window under the app it is bound to. The first app stays.
Cleaning up is final: nothing is pending any more, and no call is accepted again.
-/

namespace DynamicUi

structure Caller where
  app? : Option String
  /-- Milliseconds until a call times out. -/
  timeout : Option Nat
  disposed : Bool
  /-- The ids of the calls that have reached the backend and are not settled. -/
  pending : List Nat
  nextCall : Nat

namespace Caller

def unbound (timeout : Option Nat) : Caller := ⟨none, timeout, false, [], 1⟩

def bindApp (d : Caller) (app : String) : Except WindowError Caller :=
  match d.app? with
  | none => .ok { d with app? := some app }
  | some bound => if bound = app then .ok d else .error (.appIdAlreadyBound bound app)

def countCall (d : Caller) : Caller := { d with nextCall := d.nextCall + 1 }

def retire (d : Caller) : Caller := { d with disposed := true, pending := [] }

/-- The app a call is for, the invocation's own before the bound one. -/
def accept (d : Caller) (i : Invocation) : Except CallError String :=
  if d.disposed then .error (.disposed i.tool)
  else
    match i.app?.or d.app? with
    | some app => .ok app
    | none => .error (.unboundApp i.tool)

def addPending (d : Caller) (id : Nat) : Caller := { d with pending := d.pending ++ [id] }

def removePending (d : Caller) (id : Nat) : Caller :=
  { d with pending := d.pending.filter (· != id) }

/-- A reply that takes longer than the timeout becomes a failure when the timeout is over. -/
def bounded (d : Caller) (tool : String) (r : Reply) : Reply :=
  match d.timeout with
  | none => r
  | some limit => if r.delay ≤ limit then r else ⟨limit, .error (.timeout tool limit)⟩

def describe (d : Caller) : String :=
  let app := match d.app? with
    | some app => s!"Some({Text.quoted app})"
    | none => "None"
  s!"ToolDispatcher \x7b app_id: {app}, disposed: {d.disposed}, pending: {d.pending.length} \x7d"

end Caller

end DynamicUi
