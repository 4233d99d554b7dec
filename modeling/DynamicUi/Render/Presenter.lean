import DynamicUi.Json.Printer
import DynamicUi.Render.Pass

/-! # How each type of component renders

Most types are elements, some with one prop that follows the state. Lists with many children
mount only the slice in view. A desktop may add types of its own.
-/

namespace DynamicUi

open Json

def offsetKey (list : String) : String := s!"{list}:scroll"

/-- The key a component's bound value is read from: its bind prop, else its id. -/
def Component.stateKey (c : Component) : String := (c.stringProp? "bind").getD c.id

structure Scene where
  config : Config
  state : String → Option Value
  /-- The depth of the component; roots lie at 0. -/
  depth : Nat
  renderAll : List Node → Pass → List Rendered × Pass

def Scene.read (s : Scene) (component key : String) (p : Pass) : Option Value × Pass :=
  (s.state key, p.recordRead component key)

inductive Presenter where
  /-- An element with a tag, perhaps a prop bound to the state, and props that must be texts. -/
  | element (tag : String) (bound : Option String) (textProps : List String)
  | list
  | custom (render : Scene → Node → Pass → Except SpecError Rendered × Pass)

namespace Presenter

def plain (tag : String) : Presenter := element tag none []

def bound (tag prop : String) : Presenter := element tag (some prop) []

def badTextProp? (c : Component) : List String → Option SpecError
  | [] => none
  | prop :: props =>
    match c.prop? prop with
    | none | some (.string _) => badTextProp? c props
    | some v => some (.invalidProp prop s!"expected a string, got {v.compact}")

def elementProps (s : Scene) (c : Component) (prop? : Option String) (p : Pass) : Fields × Pass :=
  match prop? with
  | none => (c.props, p)
  | some prop =>
    match s.read c.id c.stateKey p with
    | (some v, p) => (KeyMap.insert c.props prop v, p)
    | (none, p) => (c.props, p)

def renderElement (tag : String) (prop? : Option String) (textProps : List String)
    (s : Scene) (n : Node) (p : Pass) : Except SpecError Rendered × Pass :=
  match badTextProp? n.self textProps with
  | some e => (.error e, p)
  | none =>
    let (props, p) := elementProps s n.self prop? p
    let (children, p) := s.renderAll n.children p
    (.ok (.mk ⟨n.id, .element tag, props, []⟩ children), p)

def heightProp (c : Component) (prop : String) (fallback : Float) : Except SpecError Float :=
  match c.prop? prop with
  | none | some .null => .ok fallback
  | some v =>
    match v.asFloat?.filter Config.isUsable with
    | some x => .ok x
    | none => .error (.invalidProp prop s!"expected a positive number, got {v.compact}")

def heights (config : Config) (c : Component) : Except SpecError (Float × Float) := do
  let item ← heightProp c "itemHeight" config.virtualization.itemHeight
  let viewport ← heightProp c "viewportHeight" config.virtualization.viewportHeight
  return (item, viewport)

def sliceAt (config : Config) (item viewport : Float) (n : Node) (scroll : Option Value) :
    Slice Float :=
  Slice.inView n.children.length item ((scroll.bind Value.asFloat?).getD 0) viewport
    config.virtualization.overscan

def renderSlice (item viewport : Float) (s : Scene) (n : Node) (p : Pass) : Rendered × Pass :=
  let (scroll, p) := s.read n.id (offsetKey n.id) p
  let window := sliceAt s.config item viewport n scroll
  let slice := (n.children.drop window.start).take window.length
  let (children, p) := s.renderAll slice p
  (.mk ⟨n.id, .virtualList window, n.self.props, []⟩ children,
    p.mountSlice n.id ⟨window, children.map Rendered.id⟩)

def renderList (s : Scene) (n : Node) (p : Pass) : Except SpecError Rendered × Pass :=
  if n.children.length < s.config.virtualization.threshold then
    renderElement "list" none [] s n p
  else
    match heights s.config n.self with
    | .error e => (.error e, p)
    | .ok (item, viewport) =>
      let (r, p) := renderSlice item viewport s n p
      (.ok r, p)

def render : Presenter → Scene → Node → Pass → Except SpecError Rendered × Pass
  | element tag prop? textProps => renderElement tag prop? textProps
  | list => renderList
  | custom f => f

def standard : KeyMap Presenter :=
  KeyMap.ofList <|
    ["container", "row", "col", "grid", "card", "section", "form", "button", "divider"].map
        (fun tag => (tag, plain tag))
      ++ ["text", "heading", "label"].map (fun tag => (tag, bound tag "content"))
      ++ ["input", "textarea", "select", "slider", "progress"].map
        (fun tag => (tag, bound tag "value"))
      ++ [("checkbox", bound "checkbox" "checked"),
        ("image", element "image" none ["src", "alt"]),
        ("iframe", element "iframe" none ["src"]),
        ("list", list)]

end Presenter

end DynamicUi
