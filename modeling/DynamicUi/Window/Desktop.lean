import DynamicUi.Window.Directory
import DynamicUi.Window.Session

/-! # Desktops

A desktop opens and closes windows. All its windows share a renderer and an exchange.
-/

namespace DynamicUi

structure Desktop where
  renderer : Renderer
  directory : Directory Note NameSet
  sessions : KeyMap Session

namespace Desktop

def start (r : Renderer) (x : Exchange Note) : Desktop :=
  ⟨r, .ofExchange x r.config.callTimeout, []⟩

def session? (h : Desktop) (window : String) : Option Session := KeyMap.get? h.sessions window

/-- Opens a window, or shows another specification in one that is open for the same app. -/
def openWindow (h : Desktop) (window app : String) (spec : Spec) :
    Except WindowError (Desktop × Nat) := do
  let (directory, n) ← h.directory.acquire window app
  let session := match h.session? window with
    | some s => { s with spec }
    | none => .start app n spec
  return ({ h with directory, sessions := KeyMap.insert h.sessions window session }, n)

def closeWindow (h : Desktop) (window : String) : Except WindowError Desktop :=
  let (directory, removed) := h.directory.remove window
  if KeyMap.contains h.sessions window || removed then
    .ok { h with directory, sessions := KeyMap.erase h.sessions window }
  else .error (.unknownWindow window)

def closeAll (h : Desktop) : Desktop × Nat :=
  let (directory, n) := h.directory.clear
  ({ h with directory, sessions := [] }, n)

def window? (h : Desktop) (window : String) : Option Window := do
  let session ← h.session? window
  let store ← h.directory.stores[session.instanceId]?
  return ⟨session, store, h.directory.exchange⟩

def openedWindow (h : Desktop) (window app : String) (spec : Spec) : Except WindowError Window := do
  let (h, _) ← h.openWindow window app spec
  match h.window? window with
  | some w => return w
  | none => throw (.unknownWindow window)

def putWindow (h : Desktop) (window : String) (w : Window) : Desktop where
  renderer := h.renderer
  directory :=
    (h.directory.onStore w.session.instanceId fun _ => w.store).onExchange fun _ => w.exchange
  sessions := KeyMap.insert h.sessions window w.session

def onExchange (h : Desktop) (f : Exchange Note → Exchange Note) : Desktop :=
  { h with directory := h.directory.onExchange f }

end Desktop

end DynamicUi
