import DynamicUi.Spec.Document

/-! # Advisory checks

One walk over a specification in pre-order reports duplicate ids, defects, rejected bindings,
empty types and nodes that lie too deep. Nothing below a defect or too deep is visited.
-/

namespace DynamicUi

inductive Issue where
  | duplicateId (id : String)
  | malformed (id reason : String)
  | depthExceeded (id : String) (depth : Nat)
  | emptyType (id : String)
  | invalidBinding (id event reason : String)
deriving DecidableEq

namespace Issue

open Json

def encode : Issue → Value
  | duplicateId id => .record [("issue", .string "duplicate_id"), ("id", .string id)]
  | malformed id reason =>
    .record [("issue", .string "malformed"), ("id", .string id), ("reason", .string reason)]
  | depthExceeded id depth =>
    .record [("issue", .string "depth_exceeded"), ("id", .string id), ("depth", .nat depth)]
  | emptyType id => .record [("issue", .string "empty_type"), ("id", .string id)]
  | invalidBinding id event reason =>
    .record [("issue", .string "invalid_binding"), ("id", .string id), ("event", .string event),
      ("reason", .string reason)]

end Issue

namespace Validation

def ofComponent (maxDepth depth : Nat) (c : Component) : List Issue :=
  c.rejected.map (fun (event, reason) => .invalidBinding c.id event reason)
    ++ (if c.kind = "" then [.emptyType c.id] else [])
    ++ (if maxDepth < depth then [.depthExceeded c.id depth] else [])

def ofId (seen : List String) (id : String) : List Issue :=
  if seen.contains id then [.duplicateId id] else []

mutual

/-- The issues of a subtree, and the ids met so far. -/
def visit (maxDepth depth : Nat) : Node → List String → List Issue × List String
  | .mk c ns, seen =>
    let duplicate := ofId seen c.id
    let seen := c.id :: seen
    match c.defect with
    | some e => (duplicate ++ [.malformed c.id e.message], seen)
    | none =>
      let own := duplicate ++ ofComponent maxDepth depth c
      if maxDepth < depth then (own, seen)
      else
        let (below, seen) := visitAll maxDepth (depth + 1) ns seen
        (own ++ below, seen)

def visitAll (maxDepth depth : Nat) : List Node → List String → List Issue × List String
  | [], seen => ([], seen)
  | n :: ns, seen =>
    let (first, seen) := visit maxDepth depth n seen
    let (rest, seen) := visitAll maxDepth depth ns seen
    (first ++ rest, seen)

end

end Validation

/-- The issues of a specification whose roots lie at depth 1. -/
def Spec.issues (s : Spec) (maxDepth : Nat) : List Issue :=
  (Validation.visitAll maxDepth 1 s.roots []).1

end DynamicUi
