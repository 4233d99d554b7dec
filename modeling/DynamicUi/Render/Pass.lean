import DynamicUi.Config.Basic
import DynamicUi.Render.Tree
import DynamicUi.Text.Hidden

/-! # What a pass collects

Beside the tree, a pass records which components read which keys, the slices of the virtual
lists, and the bindings of events. All three only grow while the pass runs.
-/

namespace DynamicUi

open Json

structure Binding where
  component : String
  event : String
  invocation : Invocation
  props : Fields

namespace Binding

/-- The key a result is written to, named by a parameter or after the component. -/
def outputKey (b : Binding) : String :=
  (b.invocation.params.string? "resultKey").getD s!"{b.component}:result"

def describe (b : Binding) : String :=
  let component := Text.quoted b.component
  let event := Text.quoted b.event
  let tool := Text.quoted b.invocation.tool
  s!"BoundEvent \x7b component_id: {component}, event: {event}, tool_id: {tool} \x7d"

end Binding

abbrev Bindings := KeyMap (KeyMap Binding)

namespace Bindings

def get? (b : Bindings) (component event : String) : Option Binding :=
  (KeyMap.get? b component).bind fun events => KeyMap.get? events event

def insert (b : Bindings) (e : Binding) : Bindings :=
  KeyMap.modify b e.component [] fun events => KeyMap.insert events e.event e

def eventsOf (b : Bindings) (component : String) : KeyMap Binding :=
  (KeyMap.get? b component).getD []

def size (b : Bindings) : Nat := b.foldr (fun e n => e.2.length + n) 0

end Bindings

structure MountedSlice where
  window : Slice Float
  itemIds : List String

structure Pass where
  reads : KeyMap NameSet
  lists : KeyMap MountedSlice
  bindings : Bindings

namespace Pass

def empty : Pass := ⟨[], [], []⟩

def recordRead (p : Pass) (component key : String) : Pass :=
  { p with reads := KeyMap.modify p.reads key [] (·.add component) }

def mountSlice (p : Pass) (id : String) (l : MountedSlice) : Pass :=
  { p with lists := KeyMap.insert p.lists id l }

def bind (p : Pass) (e : Binding) : Pass := { p with bindings := p.bindings.insert e }

def bindComponent (p : Pass) (c : Component) : Pass :=
  c.events.foldl (fun p (event, i) => p.bind ⟨c.id, event, i, c.props⟩) p

end Pass

structure Output where
  title : String
  layout : String
  roots : List Rendered
  pass : Pass

namespace Output

def failureCount (o : Output) : Nat :=
  (Rendered.flattenAll 0 o.roots).countP fun e => e.2.kind.isPlaceholder

def encodeReads (reads : KeyMap NameSet) : Value :=
  .object (KeyMap.mapValues (fun s => .strings (NameSet.names s)) reads)

def encodeLists (lists : KeyMap MountedSlice) : Value :=
  .object (KeyMap.mapValues
    (fun l => .record [("window", l.window.encode), ("item_ids", .strings l.itemIds)]) lists)

def encode (o : Output) : Value :=
  .record [("title", .string o.title), ("layout", .string o.layout),
    ("roots", .array (Rendered.encodeAll o.roots)), ("reads", encodeReads o.pass.reads),
    ("lists", encodeLists o.pass.lists)]

end Output

end DynamicUi
