import DynamicUi.Render.Presenter
import DynamicUi.Spec.Document

/-! # Rendering a specification

A pass walks the tree, gives each node to the presenter of its type and contains every failure
in a placeholder of its own. The walk ends at the depth limit, so it recurs on the number of
levels that are left.
-/

namespace DynamicUi

open Json

structure Renderer where
  presenters : KeyMap Presenter
  config : Config

namespace Renderer

def standard (config : Config) : Renderer := ⟨Presenter.standard, config⟩

def register (r : Renderer) (kind : String) (s : Presenter) : Renderer :=
  { r with presenters := KeyMap.insert r.presenters kind s }

/-- Renders nodes in order, threading what the pass collects. -/
def eachWith (f : Node → Pass → Rendered × Pass) : List Node → Pass → List Rendered × Pass
  | [], p => ([], p)
  | n :: ns, p =>
    let (r, p) := f n p
    let (rs, p) := eachWith f ns p
    (r :: rs, p)

/-- The node a presenter made, with its events bound, or a placeholder. -/
def finish (n : Node) : Except SpecError Rendered × Pass → Rendered × Pass
  | (.ok r, p) => (r.addEvents (KeyMap.keys n.self.events), p.bindComponent n.self)
  | (.error e, p) => (.placeholder n.self e, p)

/-- Renders a node that `levels` more levels may be opened from. -/
def renderAt (r : Renderer) (state : String → Option Value) :
    Nat → Node → Pass → Rendered × Pass
  | 0, n, p =>
    match n.self.defect with
    | some e => (.placeholder n.self e, p)
    | none => (.placeholder n.self (.depthExceeded r.config.maxDepth), p)
  | levels + 1, n, p =>
    match n.self.defect with
    | some e => (.placeholder n.self e, p)
    | none =>
      match KeyMap.get? r.presenters n.self.kind with
      | none => (.placeholder n.self (.unknownType n.self.kind), p)
      | some presenter =>
        let scene : Scene := {
          config := r.config
          state
          depth := r.config.maxDepth - (levels + 1)
          renderAll := eachWith (r.renderAt state levels) }
        finish n (presenter.render scene n p)

def renderRoots (r : Renderer) (state : String → Option Value) (roots : List Node) :
    List Rendered × Pass :=
  eachWith (r.renderAt state r.config.maxDepth) roots .empty

def render (r : Renderer) (state : String → Option Value) (s : Spec) : Output :=
  let (roots, pass) := r.renderRoots state s.roots
  ⟨s.title, s.layout, roots, pass⟩

def renderAlone (r : Renderer) (state : String → Option Value) (n : Node) : Output :=
  r.render state { Spec.untitled with roots := [n] }

end Renderer

end DynamicUi
