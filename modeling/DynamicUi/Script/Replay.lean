import DynamicUi.Script.Step
import DynamicUi.Window.Session

/-! # Replaying a script

The report counts what became of each step. After the last step the window is settled, so that
no call is left in flight.
-/

namespace DynamicUi

open Json

structure ScriptTally where
  steps : Nat
  localCalls : Nat
  remoteCalls : Nat
  failedLocalCalls : Nat
  unbound : List String
  applied : Nat
  renders : Nat
deriving DecidableEq

namespace ScriptTally

def empty : ScriptTally := ⟨0, 0, 0, 0, [], 0, 0⟩

def count (r : ScriptTally) (component name : String) : Option Triggered → ScriptTally
  | none => { r with unbound := r.unbound ++ [s!"{component}/{name}"] }
  | some (.called _) => { r with remoteCalls := r.remoteCalls + 1 }
  | some (.done (.ok _)) => { r with localCalls := r.localCalls + 1 }
  | some (.done (.error _)) =>
    { r with localCalls := r.localCalls + 1, failedLocalCalls := r.failedLocalCalls + 1 }

def addApplied (r : ScriptTally) (n : Nat) : ScriptTally := { r with applied := r.applied + n }

def encode (r : ScriptTally) : Value :=
  .record [("steps", .nat r.steps), ("local_calls", .nat r.localCalls),
    ("remote_calls", .nat r.remoteCalls), ("failed_local_calls", .nat r.failedLocalCalls),
    ("unbound", .strings r.unbound), ("applied", .nat r.applied), ("renders", .nat r.renders)]

end ScriptTally

namespace Window

def settleCounted (w : Window) (r : ScriptTally) : Window × ScriptTally :=
  let (w, n) := w.settleAll
  (w, r.addApplied n)

def playStep (renderer : Renderer) (w : Window) (r : ScriptTally) :
    Step → Window × ScriptTally
  | .event component name payload =>
    let (w, triggered) := w.interact component name payload
    (w, r.count component name triggered)
  | .scroll list offset => (w.scroll list offset, r)
  | .settle => w.settleCounted r
  | .pump =>
    let (w, n) := w.absorb
    (w, r.addApplied n)
  | .render => ((w.render renderer).1, { r with renders := r.renders + 1 })

def playAll (renderer : Renderer) : List Step → Window → ScriptTally → Window × ScriptTally
  | [], w, r => (w, r)
  | step :: steps, w, r =>
    let (w, r) := w.playStep renderer { r with steps := r.steps + 1 } step
    playAll renderer steps w r

def replay (renderer : Renderer) (steps : List Step) (w : Window) : Window × ScriptTally :=
  let (w, r) := playAll renderer steps w .empty
  w.settleCounted r

/-- Renders a window, replays a script on it, and renders it again. -/
def perform (renderer : Renderer) (steps : List Step) (w : Window) :
    Window × ScriptTally × Output :=
  let (w, _) := w.render renderer
  let (w, r) := w.replay renderer steps
  let (w, output) := w.render renderer
  (w, r, output)

end Window

end DynamicUi
