import DynamicUi.Spec.Invocation

/-! # Component trees

A node is a component and the nodes below it. A component that could not be decoded keeps its
place in the tree and carries its defect.
-/

namespace DynamicUi

open Json

/-- What a node says of itself. -/
structure Component where
  id : String
  kind : String
  props : Fields
  events : KeyMap Invocation
  defect : Option SpecError
  rejected : KeyMap String

namespace Component

def plain (id kind : String) : Component := ⟨id, kind, [], [], none, []⟩

/-- Stands in for an entry that could not be decoded. -/
def malformed (id reason : String) : Component :=
  { plain id "" with defect := some (.malformed reason) }

def prop? (c : Component) (name : String) : Option Value := KeyMap.get? c.props name

def stringProp? (c : Component) (name : String) : Option String :=
  (c.prop? name).bind Value.asString?

def floatProp? (c : Component) (name : String) : Option Float :=
  (c.prop? name).bind Value.asFloat?

end Component

inductive Node where
  | mk (self : Component) (children : List Node)

instance : Inhabited Node := ⟨⟨.plain "" "", []⟩⟩

namespace Node

def self : Node → Component
  | mk c _ => c

def children : Node → List Node
  | mk _ ns => ns

def id (n : Node) : String := n.self.id

def leaf (c : Component) : Node := mk c []

mutual

def size : Node → Nat
  | mk _ ns => 1 + sizes ns

def sizes : List Node → Nat
  | [] => 0
  | n :: ns => size n + sizes ns

end

mutual

def find? (id : String) : Node → Option Component
  | mk c ns => if c.id = id then some c else findIn? id ns

def findIn? (id : String) : List Node → Option Component
  | [] => none
  | n :: ns => (find? id n).or (findIn? id ns)

end

mutual

def flatten (depth : Nat) : Node → List (Nat × Component × Nat)
  | mk c ns => (depth, c, 1 + sizes ns) :: flattenAll (depth + 1) ns

def flattenAll (depth : Nat) : List Node → List (Nat × Component × Nat)
  | [] => []
  | n :: ns => flatten depth n ++ flattenAll depth ns

end

mutual

/-- The written form, which leaves out what is empty and what could not be decoded. -/
def encode : Node → Value
  | mk c ns =>
    .record <|
      ("id", .string c.id) :: ("type", .string c.kind)
        :: Value.memberIf (!c.props.isEmpty) "props" (.object c.props)
        ++ Value.memberIf (!ns.isEmpty) "children" (.array (encodeAll ns))
        ++ Value.memberIf (!c.events.isEmpty) "on_event"
            (.object (KeyMap.mapValues Invocation.encode c.events))

def encodeAll : List Node → List Value
  | [] => []
  | n :: ns => encode n :: encodeAll ns

end

end Node

end DynamicUi
