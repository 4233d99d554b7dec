import DynamicUi.Call.Schedule
import DynamicUi.LocalTool
import DynamicUi.Render.Walk

/-! # Window sessions

A session shows a specification on a store and triggers the events of its latest pass. It follows
every key that pass read, so that it knows which components are out of date. Local tools finish
at once. Other tools are called in the background, and their results reach the store only when
the session applies the messages they post.
-/

namespace DynamicUi

open Json

structure MountChange where
  mounted : List String
  unmounted : List String
  retained : List String
deriving DecidableEq

def MountChange.ofItems (before after : List String) : MountChange where
  mounted := after.filter (!before.contains ·)
  unmounted := before.filter (!after.contains ·)
  retained := after.filter (before.contains ·)

structure Note where
  component : String
  event : String
  outputKey : String

structure Session where
  app : String
  instanceId : Nat
  spec : Spec
  bindings : Bindings
  subscriptions : List Subscription
  /-- The components that read what has been written since. -/
  dirty : NameSet
  lists : KeyMap MountedSlice
  mountChanges : KeyMap MountChange
  /-- The calls made and not yet applied. -/
  inFlight : Nat
  mounted : Bool

namespace Session

def start (app : String) (instanceId : Nat) (spec : Spec) : Session :=
  ⟨app, instanceId, spec, [], [], [], [], [], 0, false⟩

def mark (s : Session) (called : List NameSet) : Session :=
  { s with dirty := called.foldl (fun dirty components => dirty.addAll components.names) s.dirty }

def changesOf (before after : KeyMap MountedSlice) : KeyMap MountChange :=
  List.map (fun (id, l) =>
    (id, .ofItems (((KeyMap.get? before id).map MountedSlice.itemIds).getD []) l.itemIds)) after

end Session

structure Window where
  session : Session
  store : Store NameSet
  exchange : Exchange Note

inductive Triggered where
  | done (o : Outcome)
  | called (position : Nat)

namespace Window

def write (w : Window) (key : String) (v : Value) : Window :=
  let (store, called) := w.store.set key v
  { w with store, session := w.session.mark called }

def remove (w : Window) (key : String) : Window × Option Value :=
  let (store, v) := w.store.remove key
  ({ w with store }, v)

def scroll (w : Window) (list : String) (offset : Float) : Window :=
  w.write (offsetKey list) (.ofFloat offset)

/-- The invocation that leaves the window: without the result key, with the payload. -/
def outgoing (i : Invocation) (payload : Option Value) : Invocation :=
  let params := KeyMap.erase i.params "resultKey"
  { i with params := match payload with
      | some v => KeyMap.insert params "payload" v
      | none => params }

def triggerLocal (w : Window) (b : Binding) (payload : Option Value) : Window × Triggered :=
  let (store, called, o) := w.store.runLocal ⟨b.invocation, b.component, b.props, payload⟩
  ({ w with store, session := w.session.mark called }, .done o)

def triggerRemote (w : Window) (b : Binding) (payload : Option Value) : Window × Triggered :=
  let (exchange, k) := w.exchange.enqueue w.session.instanceId (outgoing b.invocation payload)
    ⟨b.component, b.event, b.outputKey⟩
  ({ w with exchange, session := { w.session with inFlight := w.session.inFlight + 1 } }, .called k)

def trigger (w : Window) (b : Binding) (payload : Option Value) : Window × Triggered :=
  if LocalTool.isLocal b.invocation.tool then w.triggerLocal b payload
  else w.triggerRemote b payload

def interact (w : Window) (component event : String) (payload : Option Value) :
    Window × Option Triggered :=
  match w.session.bindings.get? component event with
  | none => (w, none)
  | some b =>
    let (w, triggered) := w.trigger b payload
    (w, some triggered)

def hookComponent : String := "app"

def mountHook : String := "on_mount"

def triggerHooks (w : Window) (hook : String) : Window :=
  (w.session.spec.hook hook).foldl (fun w i => (w.trigger ⟨hookComponent, hook, i, []⟩ none).1) w

def unsubscribeEach (store : Store NameSet) (subscriptions : List Subscription) : Store NameSet :=
  subscriptions.foldl (fun store sub => (store.unsubscribe sub).1) store

def subscribeEach (store : Store NameSet) : KeyMap NameSet → Store NameSet × List Subscription
  | [] => (store, [])
  | (key, readers) :: reads =>
    let (store, sub) := store.subscribe key readers
    let (store, subs) := subscribeEach store reads
    (store, sub :: subs)

def follow (w : Window) (p : Pass) : Window :=
  let (store, subscriptions) :=
    subscribeEach (unsubscribeEach w.store w.session.subscriptions) p.reads
  { w with
    store
    session := { w.session with
      subscriptions
      dirty := []
      mountChanges := Session.changesOf w.session.lists p.lists
      lists := p.lists
      bindings := p.bindings } }

/-- The first pass of a session is followed by its hooks. -/
def mount (w : Window) : Window :=
  if w.session.mounted then w
  else { w with session := { w.session with mounted := true } }.triggerHooks mountHook

def render (r : Renderer) (w : Window) : Window × Output :=
  let output := r.render w.store.get? w.session.spec
  ((w.follow output.pass).mount, output)

def errorKey (component : String) : String := s!"{component}:error"

/-- Applies one message: a result, an error, or nothing if the call was abandoned. -/
def absorbOne (w : Window) (m : Settlement Note) : Window :=
  let w := { w with session := { w.session with inFlight := w.session.inFlight - 1 } }
  match m.outcome with
  | .ok v => w.write m.note.outputKey v
  | .error (.disposed _) => w
  | .error (.execution _ code detail) =>
    w.write (errorKey m.note.component)
      (.record [("code", .string code), ("message", .string detail)])

def inbox (w : Window) : List (Settlement Note) := w.exchange.inbox w.session.instanceId

def absorb (w : Window) : Window × Nat :=
  let collected := { w with exchange := w.exchange.collect w.session.instanceId }
  (w.inbox.foldl absorbOne collected, w.inbox.length)

def settleAll (w : Window) : Window × Nat :=
  { w with exchange := w.exchange.waitUntil fun x =>
      w.session.inFlight ≤ (x.inbox w.session.instanceId).length }.absorb

end Window

end DynamicUi
