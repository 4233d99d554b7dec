import DynamicUi.Store.Basic

/-! # Listeners that write back

A listener may itself write, remove or end subscriptions while it is called. Its writes call
their own listeners before it goes on, and the write that called it is announced after all of
that. What is still to be done stands on an agenda whose head is done next.
-/

namespace DynamicUi.Reaction

open Json

/-- What a listener does to the store that called it. Subscriptions go by their listener's name. -/
inductive Action where
  | copy (key : String)
  | set (key : String) (v : Value)
  | remove (key : String)
  | unsubscribe (name : String)
  | clearListeners

structure Listener where
  name : String
  actions : List Action

structure Called where
  name : String
  key : String
  value : Value
  seen : Option Value

structure State where
  store : Store Listener
  named : KeyMap Subscription
  called : List Called

def State.empty : State := ⟨.empty, [], []⟩

inductive Step where
  | call (l : Listener) (key : String) (v : Value)
  | act (a : Action) (seen : Value)
  | announce (c : Change)

def write (s : State) (key : String) (v : Value) : State × List Step :=
  ({ s with store := s.store.write key v },
    (s.store.listenersOf key).map (fun l => .call l key v)
      ++ [.announce ⟨key, v, s.store.get? key⟩])

def unsubscribe (s : State) (name : String) : State × Option Bool :=
  match KeyMap.get? s.named name with
  | none => (s, none)
  | some sub =>
    let (store, live) := s.store.unsubscribe sub
    ({ s with store }, some live)

def act (s : State) (seen : Value) : Action → State × List Step
  | .copy key => write s key seen
  | .set key v => write s key v
  | .remove key => ({ s with store := (s.store.remove key).1 }, [])
  | .unsubscribe name => ((unsubscribe s name).1, [])
  | .clearListeners => ({ s with store := s.store.clearListeners }, [])

def step (s : State) : Step → State × List Step
  | .call l key v =>
    let seen := s.store.get? key
    ({ s with called := s.called ++ [⟨l.name, key, v, seen⟩] },
      l.actions.map fun a => .act a (seen.getD .null))
  | .act a seen => act s seen a
  | .announce c => ({ s with store := s.store.announce c }, [])

/-- Works the agenda off, for at most so many steps. -/
def run : Nat → State → List Step → State
  | 0, s, _ => s
  | _ + 1, s, [] => s
  | fuel + 1, s, next :: agenda =>
    let (s, more) := step s next
    run fuel s (more ++ agenda)

/-- The number of steps after which listeners that call one another are cut off. -/
def patience : Nat := 100000

def set (s : State) (key : String) (v : Value) : State :=
  let (s, agenda) := write s key v
  run patience s agenda

def subscribe (s : State) (key name : String) (actions : List Action) : State :=
  let (store, sub) := s.store.subscribe key ⟨name, actions⟩
  { s with store, named := KeyMap.insert s.named name sub }

end DynamicUi.Reaction
