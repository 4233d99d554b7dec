import DynamicUi.Diagnostics.Uuid

/-! # The window at work

What is logged carries the window that is being worked on. Entering a window displaces the one
before it, and leaving puts back what was displaced. A span keeps the window it was opened in.
-/

namespace DynamicUi

structure ActiveWindow where
  window : String
  app : String
  /-- Tells apart the lives of a window that is opened again. -/
  scope : Uuid
deriving DecidableEq

/-- Stands for a window that was entered; holds what was current before. -/
structure Displaced where
  displaced : Option ActiveWindow
deriving DecidableEq

/-- A span with the window that was current when it was opened. -/
structure LogSpan where
  attached : Option ActiveWindow
deriving DecidableEq

structure LogThread where
  current : Option ActiveWindow
deriving DecidableEq

namespace LogThread

def idle : LogThread := ⟨none⟩

def enter (t : LogThread) (c : ActiveWindow) : LogThread × Displaced :=
  (⟨some c⟩, ⟨t.current⟩)

def leave (_ : LogThread) (g : Displaced) : LogThread := ⟨g.displaced⟩

def openSpan (t : LogThread) : LogSpan := ⟨t.current⟩

def window? (t : LogThread) : Option String := t.current.map ActiveWindow.window

def within {α : Type} (t : LogThread) (c : ActiveWindow) (work : LogThread → α) :
    LogThread × α :=
  let (inside, g) := t.enter c
  (inside.leave g, work inside)

end LogThread

end DynamicUi
