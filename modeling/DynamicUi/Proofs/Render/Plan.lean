import DynamicUi.Render.Walk

/-! # What the built-in presenters do with a node

An element and a list both read at most one key. Everything else about the node, its face and
the children it shows, follows from the value found there. A plan says so once, and `renderAt`
is an execution of the plan.
-/

namespace DynamicUi

open Json

/-- The key a node reads, and what follows from the value it finds. -/
structure Plan where
  key? : Option String
  face : Option Value → Face
  shown : Option Value → List Node
  slice? : Option Value → Option (Slice Float)

namespace Plan

def value? (y : Plan) (state : String → Option Value) : Option Value := y.key?.bind state

def record (y : Plan) (component : String) (p : Pass) : Pass :=
  match y.key? with
  | some key => p.recordRead component key
  | none => p

def mount (y : Plan) (v : Option Value) (id : String) (rs : List Rendered) (p : Pass) : Pass :=
  match y.slice? v with
  | some w => p.mountSlice id ⟨w, rs.map Rendered.id⟩
  | none => p

/-- An element shows every child, a virtual list those of its slice. -/
structure Fits (y : Plan) (n : Node) : Prop where
  id : ∀ v, (y.face v).id = n.id
  unbound : ∀ v, (y.face v).events = []
  shows : ∀ v,
    (∃ tag, (y.face v).kind = .element tag ∧ y.shown v = n.children ∧ y.slice? v = none) ∨
    ∃ w, (y.face v).kind = .virtualList w ∧
      y.shown v = (n.children.drop w.start).take w.length ∧ y.slice? v = some w

theorem Fits.not_placeholder {y : Plan} {n : Node} (h : y.Fits n) (v : Option Value) :
    (y.face v).kind.isPlaceholder = false := by
  rcases h.shows v with ⟨tag, hk, -⟩ | ⟨w, hk, -⟩ <;> rw [hk] <;> rfl

end Plan

namespace Presenter

def BuiltIn : Presenter → Prop
  | custom _ => False
  | _ => True

def elementPlan (tag : String) (prop? : Option String) (n : Node) : Plan where
  key? := prop?.map fun _ => n.self.stateKey
  face v := ⟨n.id, .element tag,
    match prop?, v with
    | some prop, some v => KeyMap.insert n.self.props prop v
    | _, _ => n.self.props, []⟩
  shown _ := n.children
  slice? _ := none

def slicePlan (config : Config) (item viewport : Float) (n : Node) : Plan where
  key? := some (offsetKey n.id)
  face v := ⟨n.id, .virtualList (sliceAt config item viewport n v), n.self.props, []⟩
  shown v :=
    let w := sliceAt config item viewport n v
    (n.children.drop w.start).take w.length
  slice? v := some (sliceAt config item viewport n v)

def plan (config : Config) (n : Node) : Presenter → Except SpecError Plan
  | element tag prop? textProps =>
    match badTextProp? n.self textProps with
    | some e => .error e
    | none => .ok (elementPlan tag prop? n)
  | list =>
    if n.children.length < config.virtualization.threshold then .ok (elementPlan "list" none n)
    else (heights config n.self).map fun h => slicePlan config h.1 h.2 n
  | custom _ => .error (.unknownType n.self.kind)

theorem elementPlan_fits (tag : String) (prop? : Option String) (n : Node) :
    (elementPlan tag prop? n).Fits n where
  id _ := rfl
  unbound _ := rfl
  shows _ := .inl ⟨tag, rfl, rfl, rfl⟩

theorem slicePlan_fits (config : Config) (item viewport : Float) (n : Node) :
    (slicePlan config item viewport n).Fits n where
  id _ := rfl
  unbound _ := rfl
  shows _ := .inr ⟨_, rfl, rfl, rfl⟩

theorem plan_fits {config : Config} {n : Node} {s : Presenter} {y : Plan}
    (h : s.plan config n = .ok y) : y.Fits n := by
  cases s with
  | element tag prop? textProps =>
    simp only [plan] at h
    split at h
    · cases h
    · cases h; exact elementPlan_fits tag prop? n
  | list =>
    simp only [plan] at h
    split at h
    · cases h; exact elementPlan_fits "list" none n
    · cases hh : heights config n.self with
      | error e => rw [hh] at h; cases h
      | ok hs => rw [hh] at h; cases h; exact slicePlan_fits config hs.1 hs.2 n
  | custom f => cases h

def execute (s : Scene) (n : Node) (p : Pass) (y : Plan) : Rendered × Pass :=
  let v := y.value? s.state
  let (rs, p) := s.renderAll (y.shown v) (y.record n.id p)
  (.mk (y.face v) rs, y.mount v n.id rs p)

theorem renderElement_eq {tag : String} {prop? : Option String} {textProps : List String}
    {s : Scene} {n : Node} {p : Pass} (h : badTextProp? n.self textProps = none) :
    renderElement tag prop? textProps s n p =
      (.ok (execute s n p (elementPlan tag prop? n)).1,
        (execute s n p (elementPlan tag prop? n)).2) := by
  simp only [renderElement, h, execute, elementPlan, Plan.value?, Plan.record, Plan.mount]
  cases prop? with
  | none => rfl
  | some prop =>
    simp only [elementProps, Scene.read, Option.map_some, Option.bind_some, Node.id]
    cases s.state n.self.stateKey <;> rfl

/-- A built-in presenter executes its plan. -/
theorem render_eq {s : Presenter} (hs : s.BuiltIn) (scene : Scene) (n : Node) (p : Pass) :
    s.render scene n p =
      match s.plan scene.config n with
      | .error e => (.error e, p)
      | .ok y => (.ok (execute scene n p y).1, (execute scene n p y).2) := by
  cases s with
  | element tag prop? textProps =>
    cases h : badTextProp? n.self textProps with
    | some e => simp only [render, renderElement, plan, h]
    | none => simp only [render, plan, h, renderElement_eq h]
  | list =>
    simp only [render, renderList, plan]
    split
    · exact renderElement_eq rfl
    · cases heights scene.config n.self <;> rfl
  | custom f => exact hs.elim

end Presenter

namespace Renderer

variable {r : Renderer}

def BuiltIn (r : Renderer) : Prop :=
  ∀ kind s, KeyMap.get? r.presenters kind = some s → s.BuiltIn

theorem standard_builtIn (config : Config) : (standard config).BuiltIn := by
  intro kind s hs
  refine KeyMap.of_get?_ofList ?_ hs
  simp [Presenter.plain, Presenter.bound, Presenter.BuiltIn]

def plan (r : Renderer) (n : Node) : Except SpecError Plan :=
  match n.self.defect with
  | some e => .error e
  | none =>
    match KeyMap.get? r.presenters n.self.kind with
    | none => .error (.unknownType n.self.kind)
    | some s => s.plan r.config n

theorem plan_fits {n : Node} {y : Plan} (h : r.plan n = .ok y) : y.Fits n := by
  simp only [plan] at h
  split at h
  · cases h
  · split at h
    · cases h
    · exact Presenter.plan_fits h

def faceOf (n : Node) (y : Plan) (v : Option Value) : Face :=
  { y.face v with events := KeyMap.keys n.self.events }

theorem renderAt_zero_face (state : String → Option Value) (n : Node) (p : Pass) :
    r.renderAt state 0 n p =
      (.placeholder n.self (n.self.defect.getD (.depthExceeded r.config.maxDepth)), p) := by
  simp only [renderAt]
  cases n.self.defect <;> rfl

theorem renderAt_succ (hr : r.BuiltIn) (state : String → Option Value) (levels : Nat) (n : Node)
    (p : Pass) :
    r.renderAt state (levels + 1) n p =
      match r.plan n with
      | .error e => (.placeholder n.self e, p)
      | .ok y =>
        let v := y.value? state
        let (rs, p) := eachWith (r.renderAt state levels) (y.shown v) (y.record n.id p)
        (.mk (faceOf n y v) rs, (y.mount v n.id rs p).bindComponent n.self) := by
  simp only [renderAt, plan]
  cases n.self.defect with
  | some e => rfl
  | none =>
    cases hk : KeyMap.get? r.presenters n.self.kind with
    | none => rfl
    | some s =>
      simp only [Presenter.render_eq (hr _ s hk)]
      cases hp : s.plan r.config n with
      | error e => rfl
      | ok y =>
        have hu := (Presenter.plan_fits hp).unbound (y.value? state)
        simp only [finish, Presenter.execute, Rendered.addEvents, hu, List.nil_append, faceOf]

end Renderer

end DynamicUi
