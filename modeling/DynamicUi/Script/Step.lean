import DynamicUi.Json.Basic
import DynamicUi.Json.Parser

/-! # Scripts

A script is a list of steps that replay what a user does. A step is a bare name, or an object
with the name as its only member. Fields that a step does not have are passed over as they are
written, whether they stand for a value or not, but none of its own may be given twice.
-/

namespace DynamicUi

open Json

inductive Step where
  | event (component name : String) (payload : Option Value)
  | scroll (list : String) (offset : Float)
  | settle
  | pump
  | render

namespace Step

/-- The own fields of a step, by name or in order. -/
def bodyFields (names : List String) : Written → Option (List (String × Written))
  | .array ws => if ws.length ≤ names.length then some (names.zip ws) else none
  | .object members => do
    let fields ← members.mapM fun (letters, w) => (Letter.textOf? letters).map fun name => (name, w)
    let own := fields.filter fun e => names.contains e.1
    if names.all fun name => (KeyMap.keys own).count name ≤ 1 then some own else none
  | _ => none

def text? (w : Written) : Option String := w.scalar?.bind Value.asString?

/-- The arrays and objects that are open around the fields of a step. -/
def openAround : Nat := 3

def decodePayload : Written → Option (Option Value)
  | .null => some none
  | w => (w.meaning? (maxOpen - openAround)).map some

def decodeEvent (w : Written) : Option Step := do
  let fields ← bodyFields ["component", "name", "payload"] w
  return event (← (KeyMap.get? fields "component").bind text?)
    (← field fields "name" "click" text?) (← field fields "payload" none decodePayload)

def decodeScroll (w : Written) : Option Step := do
  let fields ← bodyFields ["list", "offset"] w
  let offset ← KeyMap.get? fields "offset"
  return scroll (← (KeyMap.get? fields "list").bind text?)
    (← offset.scalar?.bind Value.asFloat?)

def bare? : String → Option Step
  | "settle" => some settle
  | "pump" => some pump
  | "render" => some render
  | _ => none

def decodeNamed (name : String) (body : Written) : Option Step :=
  match name, body with
  | "event", _ => decodeEvent body
  | "scroll", _ => decodeScroll body
  | name, .null => bare? name
  | _, _ => none

def decode : Written → Option Step
  | .text letters => (Letter.textOf? letters).bind bare?
  | .object [(letters, body)] => (Letter.textOf? letters).bind fun name => decodeNamed name body
  | _ => none

def encode : Step → Value
  | event component name payload =>
    .record [("event", .record [("component", .string component), ("name", .string name),
      ("payload", payload.getD .null)])]
  | scroll list offset =>
    .record [("scroll", .record [("list", .string list), ("offset", .ofFloat offset)])]
  | settle => .string "settle"
  | pump => .string "pump"
  | render => .string "render"

/-- The steps of a script text, in which what is passed over may be nested to any depth. -/
def parseAll (text : String) : Option (List Step) :=
  match written? text.length text with
  | some (.array ws) => ws.mapM decode
  | _ => none

end Step

end DynamicUi
