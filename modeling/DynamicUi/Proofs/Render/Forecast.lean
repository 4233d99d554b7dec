import Mathlib.Data.List.Flatten
import Mathlib.Data.List.Forall2
import DynamicUi.Proofs.Render.Routing
import DynamicUi.Spec.Validation

/-! # The checks forecast the placeholders

The advisory checks and a pass both walk the tree in pre-order as far as the depth limit allows, and
differ only in which nodes they go on to. So what a pass has to leave out because of a defect or of
the limit is reported, and if all nodes can be rendered whole nothing else is.
-/

namespace DynamicUi

open Json

/-! ## Walks -/

/-- The nodes a walk comes to, in pre-order, each with the number of levels that are left. -/
def Node.walk (next : Node → List Node) : Nat → Node → List (Nat × Node)
  | 0, n => [(0, n)]
  | levels + 1, n => (levels + 1, n) :: (next n).flatMap (walk next levels)

namespace Node

variable {next next' : Node → List Node}

theorem walk_sublist (h : ∀ n, (next n).Sublist (next' n)) (levels : Nat) (n : Node) :
    (n.walk next levels).Sublist (n.walk next' levels) := by
  induction levels generalizing n with
  | zero => exact .refl _
  | succ levels ih =>
    have hmore := (h n).flatMap (walk next levels)
    have hbelow := List.Sublist.flatMap_right (next' n) fun m _ => ih m
    exact (hmore.trans hbelow).cons_cons _

theorem walk_congr {levels : Nat} {n : Node}
    (h : ∀ e ∈ n.walk next' levels, 0 < e.1 → next e.2 = next' e.2) :
    n.walk next levels = n.walk next' levels := by
  induction levels generalizing n with
  | zero => rfl
  | succ levels ih =>
    obtain ⟨hn, hbelow⟩ := List.forall_mem_cons.mp h
    rw [walk, walk, hn (Nat.succ_pos _)]
    congr 1
    refine List.flatMap_congr fun m hm => ih fun e he => ?_
    exact hbelow e (List.mem_flatMap.mpr ⟨m, hm, he⟩)

def opened (n : Node) : List Node := if n.self.defect.isSome then [] else n.children

end Node

/-! ## The checks -/

def Issue.isFault : Issue → Bool
  | malformed .. | depthExceeded .. => true
  | _ => false

def Node.fault? (maxDepth : Nat) (e : Nat × Node) : Option Issue :=
  match e.2.self.defect with
  | some d => some (.malformed e.2.id d.message)
  | none => if e.1 = 0 then some (.depthExceeded e.2.id (maxDepth + 1)) else none

namespace Validation

theorem faults_ofId (seen : List String) (id : String) :
    (ofId seen id).filter Issue.isFault = [] := by
  simp only [ofId]
  split <;> rfl

theorem faults_ofComponent (maxDepth depth : Nat) (c : Component) :
    (ofComponent maxDepth depth c).filter Issue.isFault =
      if maxDepth < depth then [.depthExceeded c.id depth] else [] := by
  have hrejected : (c.rejected.map fun e => Issue.invalidBinding c.id e.1 e.2).filter
      Issue.isFault = [] := by
    simp [List.filter_map, Function.comp_def, Issue.isFault]
  have hkind : (if c.kind = "" then [Issue.emptyType c.id] else []).filter Issue.isFault = [] := by
    split <;> rfl
  simp only [ofComponent, List.filter_append, hrejected, hkind, List.nil_append]
  split <;> rfl

theorem faults_visitAll {maxDepth depth levels : Nat}
    (h : ∀ n seen, (visit maxDepth depth n seen).1.filter Issue.isFault =
      (n.walk Node.opened levels).filterMap (Node.fault? maxDepth))
    (ns : List Node) (seen : List String) :
    (visitAll maxDepth depth ns seen).1.filter Issue.isFault =
      (ns.flatMap (Node.walk Node.opened levels)).filterMap (Node.fault? maxDepth) := by
  induction ns generalizing seen with
  | nil => rfl
  | cons n ns ih =>
    simp only [visitAll, List.filter_append, h, ih, List.flatMap_cons, List.filterMap_append]

theorem faults_visit {maxDepth depth levels : Nat} (h : depth + levels = maxDepth + 1) (n : Node)
    (seen : List String) :
    (visit maxDepth depth n seen).1.filter Issue.isFault =
      (n.walk Node.opened levels).filterMap (Node.fault? maxDepth) := by
  induction levels generalizing depth n seen with
  | zero =>
    obtain ⟨c, ns⟩ := n
    obtain rfl : depth = maxDepth + 1 := h
    cases hd : c.defect with
    | some e => simp [visit, Node.walk, Node.fault?, hd, faults_ofId, Issue.isFault, Node.id,
        Node.self]
    | none => simp [visit, Node.walk, Node.fault?, hd, faults_ofId, faults_ofComponent, Node.id,
        Node.self]
  | succ levels ih =>
    obtain ⟨c, ns⟩ := n
    have hopen : ¬maxDepth < depth := by omega
    have hnext : depth + 1 + levels = maxDepth + 1 := by omega
    have hbelow := faults_visitAll (ih hnext) ns (c.id :: seen)
    cases hd : c.defect with
    | some e => simp [visit, Node.walk, Node.fault?, Node.opened, hd, faults_ofId, Issue.isFault,
        Node.id, Node.self]
    | none => simp [visit, Node.walk, Node.fault?, Node.opened, hd, hopen, hbelow, faults_ofId,
        faults_ofComponent, Node.self, Node.children]

end Validation

def Spec.visited (spec : Spec) (maxDepth : Nat) : List (Nat × Node) :=
  spec.roots.flatMap (Node.walk Node.opened maxDepth)

theorem Spec.faults_issues (spec : Spec) (maxDepth : Nat) :
    (spec.issues maxDepth).filter Issue.isFault =
      (spec.visited maxDepth).filterMap (Node.fault? maxDepth) :=
  Validation.faults_visitAll (Validation.faults_visit (Nat.add_comm ..)) spec.roots []

/-! ## Passes -/

namespace Rendered

mutual

/-- The subtrees in pre-order, each with the path of the node that is rendered. -/
def preorder (path : List Nat) : Rendered → List (List Nat × Rendered)
  | mk f rs => (path, mk f rs) :: preorderAll path f.kind.firstShown rs

def preorderAll (path : List Nat) (i : Nat) : List Rendered → List (List Nat × Rendered)
  | [] => []
  | r :: rs => preorder (path ++ [i]) r ++ preorderAll path (i + 1) rs

end

mutual

theorem flatten_eq {path : List Nat} {depth : Nat} (h : path.length = depth + 1) :
    ∀ r, flatten depth r = (preorder path r).map fun x => (x.1.length - 1, x.2.face)
  | mk f rs => by
    rw [flatten, preorder, List.map_cons, flattenAll_eq h f.kind.firstShown rs, h]
    rfl

theorem flattenAll_eq {path : List Nat} {depth : Nat} (h : path.length = depth) (i : Nat) :
    ∀ rs, flattenAll depth rs = (preorderAll path i rs).map fun x => (x.1.length - 1, x.2.face)
  | [] => rfl
  | r :: rs => by
    have hpath : (path ++ [i]).length = depth + 1 := by
      rw [List.length_append, h, List.length_singleton]
    rw [flattenAll, preorderAll, List.map_append, flatten_eq hpath r, flattenAll_eq h (i + 1) rs]

end

end Rendered

def Output.preorder (o : Output) : List (List Nat × Rendered) := Rendered.preorderAll [] 0 o.roots

namespace Renderer

variable {r : Renderer} {state : String → Option Value} {look : List Nat → Option Node}

def shown (r : Renderer) (state : String → Option Value) (n : Node) : List Node :=
  match r.plan n with
  | .error _ => []
  | .ok y => y.shown (y.value? state)

/-- The subtree is what the node that the walk comes to is rendered as, at its path and depth. -/
structure Depicts (r : Renderer) (state : String → Option Value) (look : List Nat → Option Node)
    (total : Nat) (e : Nat × Node) (x : List Nat × Rendered) : Prop where
  node : look x.1 = some e.2
  tree : x.2 = r.treeAt state e.1 e.2
  depth : x.1.length + e.1 = total

theorem depicts_row {total levels : Nat}
    (h : ∀ n path, path.length + levels = total → (∀ q, look (path ++ q) = n.at? q) →
      List.Forall₂ (Depicts r state look total) (n.walk (r.shown state) levels)
        (Rendered.preorder path (r.treeAt state levels n)))
    {path : List Nat} (hpath : path.length + 1 + levels = total) {i : Nat} {ns : List Node}
    (hns : ∀ (j : Nat) n, ns[j]? = some n → ∀ q, look (path ++ (i + j) :: q) = n.at? q) :
    List.Forall₂ (Depicts r state look total) (ns.flatMap (Node.walk (r.shown state) levels))
      (Rendered.preorderAll path i (ns.map (r.treeAt state levels))) := by
  induction ns generalizing i with
  | nil => exact .nil
  | cons n ns ih =>
    refine List.rel_append (h n (path ++ [i]) ?_ ?_) (ih ?_)
    · rw [List.length_append, List.length_singleton]
      exact hpath
    · intro q
      rw [List.append_assoc]
      exact hns 0 n rfl q
    · intro j m hm q
      rw [Nat.add_right_comm]
      exact hns (j + 1) m hm q

theorem depicts_node {total : Nat} (levels : Nat) (n : Node) (path : List Nat)
    (hpath : path.length + levels = total) (hn : ∀ q, look (path ++ q) = n.at? q) :
    List.Forall₂ (Depicts r state look total) (n.walk (r.shown state) levels)
      (Rendered.preorder path (r.treeAt state levels n)) := by
  induction levels generalizing n path with
  | zero => exact .cons ⟨look_self hn, rfl, hpath⟩ .nil
  | succ levels ih =>
    have hself : Depicts r state look total (levels + 1, n)
        (path, r.treeAt state (levels + 1) n) := ⟨look_self hn, rfl, hpath⟩
    rw [Node.walk]
    cases hy : r.plan n with
    | error e =>
      simp only [treeAt, shown, hy] at hself ⊢
      exact .cons hself .nil
    | ok y =>
      simp only [treeAt, shown, hy] at hself ⊢
      refine .cons hself (depicts_row ih (by omega) ?_)
      intro j m hm q
      rw [hn, Node.at?, (plan_fits hy).shown_getElem? hm, Option.bind_some]

theorem render_depicts (hr : r.BuiltIn) (state : String → Option Value) (spec : Spec) :
    List.Forall₂ (Depicts r state spec.at? (r.config.maxDepth + 1))
      (spec.roots.flatMap (Node.walk (r.shown state) r.config.maxDepth))
      (r.render state spec).preorder := by
  have hlength : ([] : List Nat).length + 1 + r.config.maxDepth = r.config.maxDepth + 1 :=
    Nat.add_comm 1 _
  rw [render_eq hr]
  refine depicts_row (fun n path hpath hn => depicts_node _ n path hpath hn) hlength ?_
  intro j n hj q
  rw [List.nil_append, Nat.zero_add, Spec.at?, hj, Option.bind_some]

/-! ## What is left out -/

/-- A presenter for the type is there and renders the node, as a whole if it is a list. Whether a
built-in presenter fails depends on the node and the configuration alone. -/
def Takes (r : Renderer) (n : Node) : Prop :=
  ∃ presenter, KeyMap.get? r.presenters n.self.kind = some presenter ∧
    (∃ scene p rendered, scene.config = r.config ∧
      (presenter.render scene n p).1 = .ok rendered) ∧
    (presenter = .list → n.children.length < r.config.virtualization.threshold)

theorem shown_sublist (r : Renderer) (state : String → Option Value) (n : Node) :
    (r.shown state n).Sublist n.opened := by
  simp only [shown]
  cases hy : r.plan n with
  | error e => exact List.nil_sublist _
  | ok y =>
    have hd : n.self.defect = none := by
      cases hd : n.self.defect with
      | none => rfl
      | some e => simp [plan, hd] at hy
    rw [Node.opened, hd]
    show (y.shown (y.value? state)).Sublist n.children
    rcases (plan_fits hy).shows (y.value? state) with ⟨-, -, hs, -⟩ | ⟨w, -, hs, -⟩
    · exact hs ▸ .refl _
    · rw [hs]
      exact (List.take_sublist _ _).trans (List.drop_sublist _ _)

theorem plan_of_takes (hr : r.BuiltIn) {n : Node} (hd : n.self.defect = none) (h : r.Takes n) :
    ∃ y, r.plan n = .ok y ∧ ∀ v, y.shown v = n.children := by
  obtain ⟨presenter, hp, ⟨scene, p, rendered, hconfig, hok⟩, hlist⟩ := h
  rw [Presenter.render_eq (hr _ presenter hp), hconfig] at hok
  have hplan : r.plan n = presenter.plan r.config n := by simp only [plan, hd, hp]
  rw [hplan]
  cases presenter with
  | element tag prop? textProps =>
    cases hb : Presenter.badTextProp? n.self textProps with
    | some e => simp [Presenter.plan, hb] at hok
    | none =>
      exact ⟨Presenter.elementPlan tag prop? n, by simp only [Presenter.plan, hb], fun _ => rfl⟩
  | list =>
    exact ⟨Presenter.elementPlan "list" none n, if_pos (hlist rfl), fun _ => rfl⟩
  | custom f => exact (hr _ _ hp).elim

theorem shown_of_takes (hr : r.BuiltIn) (state : String → Option Value) {n : Node}
    (h : n.self.defect = none → r.Takes n) : r.shown state n = n.opened := by
  cases hd : n.self.defect with
  | some e => simp [shown, plan, Node.opened, hd]
  | none =>
    obtain ⟨y, hy, hs⟩ := plan_of_takes hr hd (h hd)
    simp [shown, Node.opened, hd, hy, hs]

end Renderer

/-- The issue that a placeholder amounts to, if it stands for a defect of its node or for the depth
limit. It says what the placeholder says. -/
def Spec.faultAt? (spec : Spec) (maxDepth : Nat) (x : List Nat × Rendered) : Option Issue := do
  let n ← spec.at? x.1
  let error ← x.2.face.kind.error?
  match n.self.defect with
  | some _ => some (.malformed x.2.id error)
  | none => if maxDepth < x.1.length then some (.depthExceeded x.2.id x.1.length) else none

namespace Renderer

variable {r : Renderer} {state : String → Option Value} {spec : Spec}

theorem Depicts.fault {e : Nat × Node} {x : List Nat × Rendered}
    (h : Depicts r state spec.at? (r.config.maxDepth + 1) e x) :
    spec.faultAt? r.config.maxDepth x = Node.fault? r.config.maxDepth e := by
  obtain ⟨levels, n⟩ := e
  obtain ⟨path, t⟩ := x
  obtain ⟨hnode, htree, hdepth⟩ := h
  dsimp only at hnode htree hdepth
  subst htree
  cases hd : n.self.defect with
  | some d =>
    have ht : r.treeAt state levels n = .placeholder n.self d := by
      cases levels with
      | zero => simp only [treeAt, hd, Option.getD_some]
      | succ levels => simp only [treeAt, plan, hd]
    simp [Spec.faultAt?, hnode, Node.fault?, hd, ht, Rendered.placeholder, Rendered.face,
      Rendered.id, RenderedForm.error?, Node.id]
  | none =>
    cases levels with
    | zero =>
      have hlength : path.length = r.config.maxDepth + 1 := hdepth
      simp [Spec.faultAt?, hnode, Node.fault?, hd, treeAt, hlength, Rendered.placeholder,
        Rendered.face, Rendered.id, RenderedForm.error?, Node.id]
    | succ levels =>
      have hlength : ¬r.config.maxDepth < path.length := by omega
      cases he : (r.treeAt state (levels + 1) n).face.kind.error? <;>
        simp [Spec.faultAt?, hnode, Node.fault?, hd, hlength, he]

theorem exists_depicted {total : Nat} {es : List (Nat × Node)} {xs : List (List Nat × Rendered)}
    (h : List.Forall₂ (Depicts r state spec.at? total) es xs) {x : List Nat × Rendered}
    (hx : x ∈ xs) : ∃ e ∈ es, Depicts r state spec.at? total e x := by
  induction h with
  | nil => cases hx
  | cons h _ ih =>
    rcases List.mem_cons.mp hx with rfl | hx
    · exact ⟨_, List.mem_cons_self, h⟩
    · obtain ⟨e, he, hd⟩ := ih hx
      exact ⟨e, List.mem_cons_of_mem _ he, hd⟩

theorem faults_render (hr : r.BuiltIn) (state : String → Option Value) (spec : Spec) :
    (r.render state spec).preorder.filterMap (spec.faultAt? r.config.maxDepth) =
      (spec.roots.flatMap (Node.walk (r.shown state) r.config.maxDepth)).filterMap
        (Node.fault? r.config.maxDepth) := by
  have hdepicts := render_depicts hr state spec
  generalize (r.render state spec).preorder = xs at hdepicts ⊢
  generalize spec.roots.flatMap _ = es at hdepicts ⊢
  induction hdepicts with
  | nil => rfl
  | cons h _ ih => rw [List.filterMap_cons, List.filterMap_cons, h.fault, ih]

theorem Depicts.limit {e : Nat × Node} {x : List Nat × Rendered}
    (h : Depicts r state spec.at? (r.config.maxDepth + 1) e x) :
    x.1.length ≤ r.config.maxDepth + 1 ∧ (x.1.length = r.config.maxDepth + 1 →
      x.2.face.kind.isPlaceholder = true ∧ x.2.children = []) := by
  obtain ⟨-, htree, hdepth⟩ := h
  constructor
  · omega
  · intro hlength
    have hlevels : e.1 = 0 := by omega
    rw [htree, hlevels]
    exact ⟨rfl, rfl⟩

/-- A node that the checks open is no placeholder, if its presenter takes it. -/
theorem Depicts.whole (hr : r.BuiltIn) {e : Nat × Node} {x : List Nat × Rendered}
    (h : Depicts r state spec.at? (r.config.maxDepth + 1) e x)
    (htakes : 0 < e.1 → e.2.self.defect = none → r.Takes e.2)
    (hx : x.2.face.kind.isPlaceholder = true) : (spec.faultAt? r.config.maxDepth x).isSome := by
  rw [h.fault]
  obtain ⟨levels, n⟩ := e
  obtain ⟨-, htree, -⟩ := h
  cases hd : n.self.defect with
  | some d => simp [Node.fault?, hd]
  | none =>
    cases levels with
    | zero => simp [Node.fault?, hd]
    | succ levels =>
      obtain ⟨y, hy, -⟩ := plan_of_takes hr hd (htakes (Nat.succ_pos _) hd)
      have hkind : x.2.face.kind = (y.face (y.value? state)).kind := by
        rw [htree]
        simp only [treeAt, hy]
        rfl
      rcases (plan_fits hy).shows (y.value? state) with ⟨tag, hk, -⟩ | ⟨w, hk, -⟩ <;>
        simp [hkind, hk, RenderedForm.isPlaceholder] at hx

/-- The placeholders that stand for defects and for the depth limit are reported by the checks, with
the same ids and reasons and in the same order. Nothing on screen lies deeper than the limit, and
what lies at the limit is a placeholder without children. If the nodes that the checks open are all
taken by their presenters, the checks report nothing else, and there are no other placeholders. -/
theorem issues_forecast_placeholders (hr : r.BuiltIn) (state : String → Option Value)
    (spec : Spec) :
    let o := r.render state spec
    let maxDepth := r.config.maxDepth
    let placeholders := o.preorder.filterMap (spec.faultAt? maxDepth)
    let faults := (spec.issues maxDepth).filter Issue.isFault
    placeholders.Sublist faults ∧
    (∀ x ∈ o.preorder, x.1.length ≤ maxDepth + 1 ∧ (x.1.length = maxDepth + 1 →
      x.2.face.kind.isPlaceholder = true ∧ x.2.children = [])) ∧
    Rendered.flattenAll 0 o.roots = o.preorder.map (fun x => (x.1.length - 1, x.2.face)) ∧
    ((∀ e ∈ spec.visited maxDepth, 0 < e.1 → e.2.self.defect = none → r.Takes e.2) →
      placeholders = faults ∧
      ∀ x ∈ o.preorder, x.2.face.kind.isPlaceholder = true →
        (spec.faultAt? maxDepth x).isSome) := by
  intro o maxDepth placeholders faults
  have hdepicts := render_depicts hr state spec
  have hof := fun x (hx : x ∈ o.preorder) => exists_depicted hdepicts hx
  have hplaceholders : placeholders = _ := faults_render hr state spec
  have hfaults : faults = _ := spec.faults_issues maxDepth
  refine ⟨?_, ?_, ?_, ?_⟩
  · rw [hplaceholders, hfaults]
    have hwalks := List.Sublist.flatMap_right spec.roots fun n _ =>
      Node.walk_sublist (r.shown_sublist state) maxDepth n
    exact hwalks.filterMap _
  · intro x hx
    obtain ⟨e, -, h⟩ := hof x hx
    exact h.limit
  · have hroots : ([] : List Nat).length = 0 := rfl
    exact Rendered.flattenAll_eq hroots 0 o.roots
  · intro htakes
    have hwalk : spec.roots.flatMap (Node.walk (r.shown state) maxDepth) =
        spec.visited maxDepth := by
      refine List.flatMap_congr fun n hn => Node.walk_congr fun e he hlevels => ?_
      exact shown_of_takes hr state fun hd =>
        htakes e (List.mem_flatMap.mpr ⟨n, hn, he⟩) hlevels hd
    constructor
    · rw [hplaceholders, hfaults, ← hwalk]
    · intro x hx hplaceholder
      obtain ⟨e, he, h⟩ := hof x hx
      exact h.whole hr (htakes e (hwalk ▸ he)) hplaceholder

theorem forecast_two_placeholders :
    let r := Renderer.standard { Config.standard with maxDepth := 2 }
    let b : Node := .mk (.plain "b" "card") [.leaf (.plain "c" "text")]
    let d : Node := .leaf (.malformed "d" "no type")
    let spec : Spec := { Spec.untitled with roots := [.mk (.plain "a" "container") [b, d]] }
    let faults : List Issue := [.depthExceeded "c" 3, .malformed "d" "Malformed node: no type"]
    r.BuiltIn ∧ (spec.issues 2).filter Issue.isFault = faults ∧
      (r.render (fun _ => none) spec).preorder.filterMap (spec.faultAt? 2) = faults := by
  intro r b d spec faults
  have hr : r.BuiltIn := standard_builtIn _
  have hfaults : (spec.issues 2).filter Issue.isFault = faults := by decide
  have helement : ∀ n tag, KeyMap.get? r.presenters n.self.kind = some (.element tag none []) →
      r.Takes n := by
    intro n tag h
    let scene : Scene := ⟨r.config, fun _ => none, 0, fun _ p => ([], p)⟩
    exact ⟨_, h, ⟨scene, .empty, _, rfl, rfl⟩, nofun⟩
  have htakes : ∀ e ∈ spec.visited 2, 0 < e.1 → e.2.self.defect = none → r.Takes e.2 := by
    have hvisited : spec.visited 2 = [(2, .mk (.plain "a" "container") [b, d]), (1, b),
        (0, .leaf (.plain "c" "text")), (1, d)] := rfl
    simp only [hvisited, List.forall_mem_cons]
    refine ⟨?_, ?_, nofun, ?_, nofun⟩
    · exact fun _ _ => helement _ "container" rfl
    · exact fun _ _ => helement _ "card" rfl
    · intro _ hd
      cases hd
  exact ⟨hr, hfaults, ((issues_forecast_placeholders hr _ spec).2.2.2 htakes).1.trans hfaults⟩

end Renderer

end DynamicUi
