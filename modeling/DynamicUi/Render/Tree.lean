import DynamicUi.Render.Slice
import DynamicUi.Spec.Node

/-! # Rendered trees

What a pass hands to the window: elements, virtual lists, and placeholders for what could not
be rendered. Every rendered node carries the id of the node it comes from.
-/

namespace DynamicUi

open Json

inductive RenderedForm where
  | element (tag : String)
  | virtualList (window : Slice Float)
  | placeholder (requestedType error : String)

/-- A rendered node, its children apart. -/
structure Face where
  id : String
  kind : RenderedForm
  props : Fields
  events : List String

inductive Rendered where
  | mk (face : Face) (children : List Rendered)

namespace RenderedForm

def isPlaceholder : RenderedForm → Bool
  | placeholder .. => true
  | _ => false

def tag? : RenderedForm → Option String
  | element tag => some tag
  | _ => none

def error? : RenderedForm → Option String
  | placeholder _ e => some e
  | _ => none

def name : RenderedForm → String
  | element _ => "element"
  | virtualList _ => "virtual_list"
  | placeholder .. => "placeholder"

def members : RenderedForm → List (String × Value)
  | element tag => [("tag", .string tag)]
  | virtualList w => [("window", w.encode)]
  | placeholder t e => [("requested_type", .string t), ("error", .string e)]

end RenderedForm

namespace Rendered

def face : Rendered → Face
  | mk f _ => f

def children : Rendered → List Rendered
  | mk _ rs => rs

def id (r : Rendered) : String := r.face.id

def placeholder (c : Component) (e : SpecError) : Rendered :=
  mk ⟨c.id, .placeholder c.kind e.message, [], []⟩ []

def addEvents : Rendered → List String → Rendered
  | mk f rs, events => mk { f with events := f.events ++ events } rs

mutual

def find? (id : String) : Rendered → Option Rendered
  | mk f rs => if f.id = id then some (mk f rs) else findIn? id rs

def findIn? (id : String) : List Rendered → Option Rendered
  | [] => none
  | r :: rs => (find? id r).or (findIn? id rs)

end

mutual

def flatten (depth : Nat) : Rendered → List (Nat × Face)
  | mk f rs => (depth, f) :: flattenAll (depth + 1) rs

def flattenAll (depth : Nat) : List Rendered → List (Nat × Face)
  | [] => []
  | r :: rs => flatten depth r ++ flattenAll depth rs

end

def ids (r : Rendered) : List String := (r.flatten 0).map fun e => e.2.id

mutual

def encode : Rendered → Value
  | mk f rs =>
    .record <|
      ("id", .string f.id) :: ("kind", .string f.kind.name) :: f.kind.members
        ++ Value.memberIf (!f.props.isEmpty) "props" (.object f.props)
        ++ Value.memberIf (!f.events.isEmpty) "events" (.strings f.events)
        ++ Value.memberIf (!rs.isEmpty) "children" (.array (encodeAll rs))

def encodeAll : List Rendered → List Value
  | [] => []
  | r :: rs => encode r :: encodeAll rs

end

end Rendered

end DynamicUi
