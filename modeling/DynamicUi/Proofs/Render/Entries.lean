import DynamicUi.Proofs.Render.ReadTracking

/-! # What each node adds to a pass

Elements and lists look at a pass only to add to it. So a node renders as the same tree in every
pass, and adds the same entries to each: what it reads, what the nodes it shows add, the slice it
mounts and the bindings of its events, in this order. What is found in a pass afterwards is what its
parts would hold alone: all readers of a key, and of slices and bindings the last.
-/

namespace DynamicUi

open Json

inductive Entry where
  | read (component key : String)
  | slice (id : String) (l : MountedSlice)
  | binding (b : Binding)

namespace Pass

def put (p : Pass) : Entry → Pass
  | .read component key => p.recordRead component key
  | .slice id l => p.mountSlice id l
  | .binding b => p.bind b

def putAll (p : Pass) (es : List Entry) : Pass := es.foldl put p

@[simp] theorem putAll_nil (p : Pass) : p.putAll [] = p := rfl

@[simp] theorem putAll_cons (p : Pass) (e : Entry) (es : List Entry) :
    p.putAll (e :: es) = (p.put e).putAll es := rfl

theorem putAll_append (p : Pass) (es es' : List Entry) :
    p.putAll (es ++ es') = (p.putAll es).putAll es' := List.foldl_append

@[simp] theorem putAll_binding_lists (p : Pass) (bs : List Binding) :
    (p.putAll (bs.map .binding)).lists = p.lists := by
  induction bs generalizing p with
  | nil => rfl
  | cons b bs ih => exact ih (p.bind b)

end Pass

/-! ## What is found in a pass -/

namespace Bindings

def isFor (component event : String) (b : Binding) : Bool :=
  b.component = component && b.event = event

theorem get?_insert (m : Bindings) (b : Binding) (component event : String) :
    (m.insert b).get? component event =
      if isFor component event b then some b else m.get? component event := by
  simp only [get?, insert, KeyMap.get?_modify, isFor]
  by_cases hc : b.component = component
  · subst hc
    simp only [if_true, Option.bind_some, KeyMap.get?_insert, decide_true, Bool.true_and,
      decide_eq_true_eq]
    split
    · rfl
    · cases KeyMap.get? m b.component <;> rfl
  · simp [hc]

end Bindings

namespace Pass

variable {α : Type} {find : Pass → Option α}

/-- Of what is looked up in a pass the last entry counts. -/
def LastWins (find : Pass → Option α) : Prop :=
  find empty = none ∧ ∀ p e, find (p.put e) = (find (empty.put e)).or (find p)

theorem LastWins.putAll (h : LastWins find) (p : Pass) (es : List Entry) :
    find (p.putAll es) = (find (empty.putAll es)).or (find p) := by
  induction es generalizing p with
  | nil => rw [putAll_nil, putAll_nil, h.1, Option.none_or]
  | cons e es ih => rw [putAll_cons, putAll_cons, ih, ih (empty.put e), h.2, Option.or_assoc]

theorem LastWins.joins (h : LastWins find) (p : Pass) (ess : List (List Entry)) :
    find (p.putAll ess.flatten) = (p :: ess.map empty.putAll).reverse.findSome? find := by
  induction ess generalizing p with
  | nil =>
    rw [List.flatten_nil, putAll_nil]
    cases hp : find p <;> simp [hp]
  | cons es ess ih =>
    rw [List.flatten_cons, putAll_append, ih, List.map_cons]
    simp only [List.reverse_cons, List.findSome?_append, List.findSome?_singleton, Option.or_assoc]
    rw [h.putAll]

end Pass

def Component.bindings (c : Component) : List Binding :=
  c.events.map fun e => ⟨c.id, e.1, e.2, c.props⟩

theorem Pass.bindComponent_eq (p : Pass) (c : Component) :
    p.bindComponent c = p.putAll (c.bindings.map .binding) := by
  simp only [bindComponent, putAll, Component.bindings, List.map_map, List.foldl_map]
  rfl

namespace Plan

def readEntry (y : Plan) (component : String) : List Entry := y.key?.toList.map (.read component)

def sliceEntry (y : Plan) (v : Option Value) (n : Node) : List Entry :=
  (y.slice? v).toList.map fun w => .slice n.id ⟨w, (y.shown v).map Node.id⟩

theorem record_eq (y : Plan) (component : String) (p : Pass) :
    y.record component p = p.putAll (y.readEntry component) := by
  unfold record readEntry
  cases y.key? <;> rfl

theorem mount_eq {y : Plan} {v : Option Value} {n : Node} {rs : List Rendered}
    (h : rs.map Rendered.id = (y.shown v).map Node.id) (p : Pass) :
    y.mount v n.id rs p = p.putAll (y.sliceEntry v n) := by
  unfold mount sliceEntry
  rw [h]
  cases y.slice? v <;> rfl

end Plan

namespace Renderer

variable {r : Renderer}

def treeAt (r : Renderer) (state : String → Option Value) : Nat → Node → Rendered
  | 0, n => .placeholder n.self (n.self.defect.getD (.depthExceeded r.config.maxDepth))
  | levels + 1, n =>
    match r.plan n with
    | .error e => .placeholder n.self e
    | .ok y =>
      let v := y.value? state
      .mk (faceOf n y v) ((y.shown v).map (r.treeAt state levels))

def entriesAt (r : Renderer) (state : String → Option Value) : Nat → Node → List Entry
  | 0, _ => []
  | levels + 1, n =>
    match r.plan n with
    | .error _ => []
    | .ok y =>
      let v := y.value? state
      y.readEntry n.id ++ (y.shown v).flatMap (r.entriesAt state levels) ++ y.sliceEntry v n
        ++ n.self.bindings.map .binding

theorem treeAt_id (state : String → Option Value) (levels : Nat) (n : Node) :
    (r.treeAt state levels n).id = n.id := by
  cases levels with
  | zero => rfl
  | succ levels =>
    simp only [treeAt]
    cases hy : r.plan n with
    | error e => rfl
    | ok y => exact (plan_fits hy).id _

theorem map_treeAt_id (state : String → Option Value) (levels : Nat) (ns : List Node) :
    (ns.map (r.treeAt state levels)).map Rendered.id = ns.map Node.id := by
  rw [List.map_map]
  exact List.map_congr_left fun n _ => treeAt_id state levels n

theorem eachWith_eq {f : Node → Pass → Rendered × Pass} {tree : Node → Rendered}
    {entries : Node → List Entry} (h : ∀ n p, f n p = (tree n, p.putAll (entries n)))
    (ns : List Node) (p : Pass) :
    eachWith f ns p = (ns.map tree, p.putAll (ns.flatMap entries)) := by
  induction ns generalizing p with
  | nil => rfl
  | cons n ns ih =>
    simp only [eachWith, h, ih, List.map_cons, List.flatMap_cons, Pass.putAll_append]

/-- In every pass a node renders as the same tree and adds the same entries. -/
theorem renderAt_eq (hr : r.BuiltIn) (state : String → Option Value) (levels : Nat) (n : Node)
    (p : Pass) :
    r.renderAt state levels n p =
      (r.treeAt state levels n, p.putAll (r.entriesAt state levels n)) := by
  induction levels generalizing n p with
  | zero => exact renderAt_zero_face state n p
  | succ levels ih =>
    rw [renderAt_succ hr]
    simp only [treeAt, entriesAt]
    cases r.plan n with
    | error e => rfl
    | ok y =>
      simp only [eachWith_eq ih, y.mount_eq (map_treeAt_id state levels _), y.record_eq,
        Pass.bindComponent_eq, Pass.putAll_append]

theorem render_eq (hr : r.BuiltIn) (state : String → Option Value) (spec : Spec) :
    r.render state spec =
      ⟨spec.title, spec.layout, spec.roots.map (r.treeAt state r.config.maxDepth),
        Pass.empty.putAll (spec.roots.flatMap (r.entriesAt state r.config.maxDepth))⟩ := by
  simp only [render, renderRoots, eachWith_eq (renderAt_eq hr state r.config.maxDepth)]

end Renderer

end DynamicUi
