import DynamicUi.Json.Basic

/-! # The state of one window

A flat map from keys to values. Listeners subscribe to one key and are called after every
write to it, in the order of subscription; then the write is announced on the change stream.
Removing a key calls nobody and is not announced.
-/

namespace DynamicUi

open Json

structure Change where
  key : String
  value : Value
  previous : Option Value

structure Subscription where
  key : String
  id : Nat
deriving DecidableEq

structure Store (κ : Type) where
  values : KeyMap Value
  /-- The listeners of each key by the numbers of their subscriptions; no list is empty. -/
  listeners : KeyMap (List (Nat × κ))
  nextId : Nat
  announced : List Change

namespace Store

variable {κ : Type}

def empty : Store κ := ⟨[], [], 1, []⟩

def get? (s : Store κ) (key : String) : Option Value := KeyMap.get? s.values key

def contains (s : Store κ) (key : String) : Bool := KeyMap.contains s.values key

/-- Changes the map only. -/
def write (s : Store κ) (key : String) (v : Value) : Store κ :=
  { s with values := KeyMap.insert s.values key v }

def announce (s : Store κ) (c : Change) : Store κ := { s with announced := s.announced ++ [c] }

def listenersOf (s : Store κ) (key : String) : List κ :=
  ((KeyMap.get? s.listeners key).getD []).map Prod.snd

/-- A write whose listeners do not touch the store; gives those that are called. -/
def set (s : Store κ) (key : String) (v : Value) : Store κ × List κ :=
  ((s.write key v).announce ⟨key, v, s.get? key⟩, s.listenersOf key)

theorem get?_set (s : Store κ) (key : String) (v : Value) (k : String) :
    (s.set key v).1.get? k = if key = k then some v else s.get? k :=
  KeyMap.get?_insert s.values key k v

def setAll (s : Store κ) : List (String × Value) → Store κ × List κ
  | [] => (s, [])
  | (key, v) :: rest =>
    let (s, called) := s.set key v
    let (s, more) := s.setAll rest
    (s, called ++ more)

def remove (s : Store κ) (key : String) : Store κ × Option Value :=
  ({ s with values := KeyMap.erase s.values key }, s.get? key)

def subscribe (s : Store κ) (key : String) (listener : κ) : Store κ × Subscription :=
  ({ s with
      listeners := KeyMap.modify s.listeners key [] (· ++ [(s.nextId, listener)])
      nextId := s.nextId + 1 },
    ⟨key, s.nextId⟩)

def unsubscribe (s : Store κ) (sub : Subscription) : Store κ × Bool :=
  match KeyMap.get? s.listeners sub.key with
  | none => (s, false)
  | some all =>
    let left := all.filter fun l => l.1 != sub.id
    let listeners := if left.isEmpty then KeyMap.erase s.listeners sub.key
      else KeyMap.insert s.listeners sub.key left
    ({ s with listeners }, left.length != all.length)

def clearListeners (s : Store κ) : Store κ := { s with listeners := [] }

def listenerCount (s : Store κ) : Nat := s.listeners.foldr (fun e n => e.2.length + n) 0

def size (s : Store κ) : Nat := s.values.length

def describe (s : Store κ) : String :=
  s!"StateStore \x7b keys: {s.size}, subscribers: {s.listenerCount} \x7d"

/-- The number of changes that are kept for a reader who falls behind. -/
def streamCapacity : Nat := 256

/-- What is waiting for a reader who has seen the first `seen` changes: the number that were
lost, and those still kept. -/
def waiting (s : Store κ) (seen : Nat) : Nat × List Change :=
  let unseen := s.announced.drop seen
  let lost := unseen.length - streamCapacity
  (lost, unseen.drop lost)

end Store

end DynamicUi
