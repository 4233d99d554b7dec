import DynamicUi.Proofs.Order
import DynamicUi.Proofs.Window.Uses
import DynamicUi.Window.Desktop

/-! # The life of a desktop

Windows are opened and closed, their sessions are used, and calls go on, in any order. All of it
comes down to a few changes: a window gets an instance of its own, or loses it, its session is
replaced together with its store, or something happens on the exchange alone.
-/

namespace DynamicUi

open Relation

/-- What may happen on the exchange beside the sessions: no caller joins, and no message is posted
for a session by a call it has not made. -/
def Exchange.Move.isAmbient : Exchange.Move Note → Bool
  | .join _ | .submit .. => false
  | _ => true

namespace Desktop

inductive Act where
  | openWindow (window app : String) (spec : Spec)
  | closeWindow (window : String)
  | closeAll
  | use (window : String) (op : Window.Op)
  | ambient (m : Exchange.Move Note)
  | enter (background : Bool)

/-- What fails changes nothing. -/
def step (h : Desktop) : Act → Desktop
  | .openWindow window app spec =>
    match h.openWindow window app spec with
    | .ok (h, _) => h
    | .error _ => h
  | .closeWindow window =>
    match h.closeWindow window with
    | .ok h => h
    | .error _ => h
  | .closeAll => h.closeAll.1
  | .use window op =>
    match h.window? window with
    | some w => if op.isOwn then h.putWindow window (w.step op) else h
    | none => h
  | .ambient m => if m.isAmbient then h.onExchange (·.move m) else h
  | .enter background => h.onExchange fun x => { x with background }

def run (h : Desktop) (acts : List Act) : Desktop := acts.foldl step h

def Act.closes (window : String) : Act → Bool
  | .closeWindow window' => window' = window
  | .closeAll => true
  | _ => false

def withNew (h : Desktop) (window app : String) (spec : Spec) : Desktop :=
  let (directory, n) := h.directory.create window app
  { h with directory, sessions := KeyMap.insert h.sessions window (.start app n spec) }

def without (h : Desktop) (window : String) (n : Nat) : Desktop :=
  { h with
    directory :=
      { h.directory with records := KeyMap.erase h.directory.records window }.release n
    sessions := KeyMap.erase h.sessions window }

inductive Change (a : Act) (h : Desktop) : Desktop → Prop
  | opened (window app : String) (spec : Spec) (hr : h.directory.record? window = none)
      (hs : h.session? window = none) : Change a h (h.withNew window app spec)
  | used {window : String} {w w' : Window} (hw : h.window? window = some w)
      (h' : w.Continues w') : Change a h (h.putWindow window w')
  | closed {window : String} {record : Record} (hr : h.directory.record? window = some record)
      (ha : a.closes window = true) : Change a h (h.without window record.instanceId)
  | ambient {m : Exchange.Move Note} (ha : a = .ambient m) (hm : m.isAmbient = true) :
      Change a h (h.onExchange (·.move m))
  | entered {background : Bool} (ha : a = .enter background) :
      Change a h (h.onExchange fun x => { x with background })

end Desktop

end DynamicUi
