import DynamicUi.Proofs.Render.Forecast
import DynamicUi.Proofs.Render.Virtualized

/-! # The output has the shape of the specification

Every rendered node stands for a node of the specification, and shows what the children of this
node are rendered as: all of them, a slice, or none. Which ones depends on the node itself and on
how many children it has, so a subtree that is replaced is noticed nowhere else in the output.
-/

namespace DynamicUi

open Json

/-! ## Replacing a subtree -/

def Node.replaceAt : Node → List Nat → Node → Node
  | _, [], m => m
  | mk c ns, i :: path, m => mk c (ns.modify i fun n => n.replaceAt path m)

def Spec.replaceAt (s : Spec) : List Nat → Node → Spec
  | [], _ => s
  | i :: path, m => { s with roots := s.roots.modify i fun n => n.replaceAt path m }

/-! ## Rendered nodes and their places -/

structure Site where
  /-- The path of the node that is rendered. -/
  source : List Nat
  /-- The path of the rendered node, by positions among the children that are shown. -/
  position : List Nat
  tree : Rendered

namespace Site

/-- The place of a site and what is to be seen there, its children apart. -/
def mark (x : Site) : List Nat × List Nat × Face := (x.source, x.position, x.tree.face)

def marksOutside (path : List Nat) (xs : List Site) : List (List Nat × List Nat × Face) :=
  (xs.map mark).filter fun m => !path.isPrefixOf m.1

theorem marksOutside_append (path : List Nat) (xs ys : List Site) :
    marksOutside path (xs ++ ys) = marksOutside path xs ++ marksOutside path ys := by
  simp only [marksOutside, List.map_append, List.filter_append]

theorem marksOutside_cons_congr {path : List Nat} {x y : Site} {xs ys : List Site}
    (hmark : x.mark = y.mark) (h : marksOutside path xs = marksOutside path ys) :
    marksOutside path (x :: xs) = marksOutside path (y :: ys) := by
  unfold marksOutside at h ⊢
  rw [List.map_cons, List.map_cons, hmark, List.filter_cons, List.filter_cons, h]

theorem marksOutside_eq_nil {path : List Nat} {xs : List Site}
    (h : ∀ x ∈ xs, path <+: x.source) : marksOutside path xs = [] := by
  rw [marksOutside, List.filter_eq_nil_iff, List.forall_mem_map]
  intro x hx
  simp [mark, h x hx]

end Site

namespace Rendered

mutual

def sites (source position : List Nat) : Rendered → List Site
  | mk f rs => ⟨source, position, mk f rs⟩ :: sitesAll source position f.kind.firstShown 0 rs

def sitesAll (source position : List Nat) (i j : Nat) : List Rendered → List Site
  | [] => []
  | r :: rs =>
    sites (source ++ [i]) (position ++ [j]) r ++ sitesAll source position (i + 1) (j + 1) rs

end

mutual

theorem preorder_eq_sites (source position : List Nat) :
    ∀ r, preorder source r = (sites source position r).map fun x => (x.source, x.tree)
  | mk f rs => by
    rw [preorder, sites, List.map_cons, preorderAll_eq_sitesAll source position _ 0 rs]

theorem preorderAll_eq_sitesAll (source position : List Nat) (i j : Nat) :
    ∀ rs, preorderAll source i rs =
      (sitesAll source position i j rs).map fun x => (x.source, x.tree)
  | [] => rfl
  | r :: rs => by
    rw [preorderAll, sitesAll, List.map_append, preorder_eq_sites _ (position ++ [j]) r,
      preorderAll_eq_sitesAll source position (i + 1) (j + 1) rs]

end

mutual

theorem source_extends (source position : List Nat) :
    ∀ r, ∀ x ∈ sites source position r, source <+: x.source
  | mk f rs => by
    intro x hx
    rcases List.mem_cons.mp hx with rfl | hx
    · exact List.prefix_rfl
    · exact source_extendsAll source position _ 0 rs x hx

theorem source_extendsAll (source position : List Nat) (i j : Nat) :
    ∀ rs, ∀ x ∈ sitesAll source position i j rs, source <+: x.source
  | [] => nofun
  | r :: rs => by
    intro x hx
    rcases List.mem_append.mp hx with hx | hx
    · exact (List.prefix_append source [i]).trans (source_extends _ _ r x hx)
    · exact source_extendsAll source position (i + 1) (j + 1) rs x hx

end

end Rendered

def Output.sites (o : Output) : List Site := Rendered.sitesAll [] [] 0 0 o.roots

theorem Output.preorder_eq_sites (o : Output) :
    o.preorder = o.sites.map fun x => (x.source, x.tree) :=
  Rendered.preorderAll_eq_sitesAll [] [] 0 0 o.roots

/-! ## What a node shows -/

namespace Plan

/-- The plan with a slice of these nodes to show, from the first one that the face says is shown. -/
def onto (y : Plan) (ns : List Node) (count : Option Value → Nat) : Plan :=
  { y with shown := fun v => (ns.drop (y.face v).kind.firstShown).take (count v) }

end Plan

/-- Whether a built-in presenter fails, and what it plans up to the children that are shown, follows
from the node itself and from how many children it has. -/
theorem Presenter.plan_onto (s : Presenter) (config : Config) (c : Component) (length : Nat) :
    (∃ e, ∀ ns, ns.length = length → s.plan config (.mk c ns) = .error e) ∨
    ∃ (y : Plan) (count : Option Value → Nat), ∀ ns, ns.length = length →
      s.plan config (.mk c ns) = .ok (y.onto ns count) := by
  have helement : ∀ tag prop?, ∃ (y : Plan) (count : Option Value → Nat), ∀ ns,
      ns.length = length → elementPlan tag prop? (.mk c ns) = y.onto ns count := by
    intro tag prop?
    refine ⟨elementPlan tag prop? (.mk c []), fun _ => length, ?_⟩
    rintro ns rfl
    have hall : ns.take ns.length = ns := List.take_length
    simp only [Plan.onto, elementPlan, RenderedForm.firstShown, List.drop_zero, hall]
    rfl
  cases s with
  | element tag prop? textProps =>
    simp only [plan]
    cases hbad : badTextProp? c textProps with
    | some e =>
      left
      exact ⟨e, fun ns _ => by simp only [Node.self, hbad]⟩
    | none =>
      obtain ⟨y, count, hy⟩ := helement tag prop?
      right
      exact ⟨y, count, fun ns hns => by simp only [Node.self, hbad, hy ns hns]⟩
  | list =>
    by_cases hshort : length < config.virtualization.threshold
    · obtain ⟨y, count, hy⟩ := helement "list" none
      right
      refine ⟨y, count, ?_⟩
      rintro ns rfl
      simp only [plan, Node.children, hshort, if_true, hy ns rfl]
    · cases hheights : heights config c with
      | error e =>
        left
        refine ⟨e, ?_⟩
        rintro ns rfl
        simp only [plan, Node.children, Node.self, hshort, if_false, hheights]
        rfl
      | ok h =>
        right
        let n : Node := .mk c (List.replicate length default)
        refine ⟨slicePlan config h.1 h.2 n, fun v => (sliceAt config h.1 h.2 n v).length, ?_⟩
        rintro ns rfl
        have hslice : sliceAt config h.1 h.2 (.mk c ns) = sliceAt config h.1 h.2 n := by
          funext v
          simp only [sliceAt, n, Node.children, List.length_replicate]
        have hplan : slicePlan config h.1 h.2 (.mk c ns) = Plan.onto (slicePlan config h.1 h.2 n) ns
            fun v => (sliceAt config h.1 h.2 n v).length := by
          simp only [slicePlan, hslice]
          rfl
        simp only [plan, Node.children, Node.self, hshort, if_false, hheights, Except.map, hplan]
  | custom f =>
    left
    exact ⟨.unknownType c.kind, fun ns _ => rfl⟩

namespace Presenter

theorem plan_virtualList {s : Presenter} {config : Config} {n : Node} {y : Plan} {v : Option Value}
    {w : Slice Float} (hy : s.plan config n = .ok y) (hw : (y.face v).kind = .virtualList w) :
    ∃ item viewport, heights config n.self = .ok (item, viewport) ∧
      sliceAt config item viewport n v = w := by
  cases s with
  | element tag prop? textProps =>
    simp only [plan] at hy
    split at hy <;> cases hy
    cases hw
  | list =>
    simp only [plan] at hy
    split at hy
    · cases hy
      cases hw
    · cases hh : heights config n.self with
      | error e => rw [hh] at hy; cases hy
      | ok h =>
        rw [hh] at hy
        cases hy
        exact ⟨h.1, h.2, rfl, RenderedForm.virtualList.inj hw⟩
  | custom f => cases hy

theorem heightProp_usable {c : Component} {prop : String} {fallback x : Float}
    (hf : Config.isUsable fallback = true) (h : heightProp c prop fallback = .ok x) :
    Config.isUsable x = true := by
  simp only [heightProp] at h
  split at h
  · cases h; exact hf
  · cases h; exact hf
  · split at h
    · cases h
      rename_i hx
      exact (Option.filter_eq_some_iff.mp hx).2
    · cases h

theorem heights_usable {config config' : Config} {c : Component} {item viewport : Float}
    (hc : config.check = .ok config') (h : heights config c = .ok (item, viewport)) :
    Config.isUsable item = true ∧ Config.isUsable viewport = true := by
  obtain ⟨hitem, hviewport⟩ := Config.usable_of_check hc
  cases hi : heightProp c "itemHeight" config.virtualization.itemHeight with
  | error e => simp [heights, hi, bind, Except.bind] at h
  | ok x =>
    cases hv : heightProp c "viewportHeight" config.virtualization.viewportHeight with
    | error e => simp [heights, hi, hv, bind, Except.bind] at h
    | ok x' =>
      simp only [heights, hi, hv] at h
      cases h
      exact ⟨heightProp_usable hitem hi, heightProp_usable hviewport hv⟩

end Presenter

namespace Renderer

variable {r : Renderer} {state : String → Option Value}

theorem plan_onto (r : Renderer) (c : Component) (length : Nat) :
    (∃ e, ∀ ns, ns.length = length → r.plan (.mk c ns) = .error e) ∨
    ∃ (y : Plan) (count : Option Value → Nat), ∀ ns, ns.length = length →
      r.plan (.mk c ns) = .ok (y.onto ns count) := by
  simp only [plan, Node.self]
  cases c.defect with
  | some e =>
    left
    exact ⟨e, fun _ _ => rfl⟩
  | none =>
    cases KeyMap.get? r.presenters c.kind with
    | none =>
      left
      exact ⟨_, fun _ _ => rfl⟩
    | some s => exact s.plan_onto r.config c length

theorem treeAt_eq_slice (r : Renderer) (state : String → Option Value) (levels : Nat)
    (c : Component) (length : Nat) :
    ∃ f count, ∀ ns : List Node, ns.length = length → r.treeAt state levels (.mk c ns) =
      .mk f (((ns.drop f.kind.firstShown).take count).map (r.treeAt state (levels - 1))) := by
  have hplaceholder : ∀ e, ∃ f count, ∀ ns : List Node, Rendered.placeholder c e =
      .mk f (((ns.drop f.kind.firstShown).take count).map (r.treeAt state (levels - 1))) := by
    intro e
    exact ⟨_, 0, fun ns => by rw [List.take_zero, List.map_nil]; rfl⟩
  cases levels with
  | zero =>
    obtain ⟨f, count, h⟩ := hplaceholder (c.defect.getD (.depthExceeded r.config.maxDepth))
    exact ⟨f, count, fun ns _ => h ns⟩
  | succ levels =>
    rcases r.plan_onto c length with ⟨e, he⟩ | ⟨y, count, hy⟩
    · obtain ⟨f, count, h⟩ := hplaceholder e
      refine ⟨f, count, fun ns hns => ?_⟩
      rw [← h ns]
      simp only [treeAt, he ns hns, Node.self]
    · let v := y.value? state
      refine ⟨{ y.face v with events := KeyMap.keys c.events }, count v, fun ns hns => ?_⟩
      simp only [treeAt, hy ns hns]
      rfl

/-! ## Outside a replaced subtree -/

theorem marksOutside_row {path source position : List Nat} {tree : Node → Rendered} {i j : Nat}
    {ns ns' : List Node} (hlength : ns'.length = ns.length)
    (h : ∀ (t : Nat) n n', ns[t]? = some n → ns'[t]? = some n' →
      Site.marksOutside path (Rendered.sites (source ++ [i + t]) (position ++ [j + t]) (tree n')) =
        Site.marksOutside path
          (Rendered.sites (source ++ [i + t]) (position ++ [j + t]) (tree n))) :
    Site.marksOutside path (Rendered.sitesAll source position i j (ns'.map tree)) =
      Site.marksOutside path (Rendered.sitesAll source position i j (ns.map tree)) := by
  induction ns generalizing ns' i j with
  | nil =>
    obtain rfl : ns' = [] := List.eq_nil_of_length_eq_zero hlength
    rfl
  | cons n ns ih =>
    obtain ⟨n', ns', rfl⟩ := List.exists_cons_of_length_eq_add_one hlength
    have hhead := h 0 n n' rfl rfl
    have htail := @ih (i + 1) (j + 1) ns' (Nat.succ.inj hlength) (fun t m m' hm hm' => by
      rw [Nat.add_right_comm i, Nat.add_right_comm j]
      exact h (t + 1) m m' hm hm')
    simp only [List.map_cons, Rendered.sitesAll, Site.marksOutside_append, htail]
    rw [← Nat.add_zero i, ← Nat.add_zero j, hhead]

/-- Outside the subtree at a path, a replacement of this subtree changes nothing that is rendered
in a row: not a face, nor a place. -/
theorem marksOutside_modify {k : Nat} {path source position : List Nat} {tree : Node → Rendered}
    {m : Node} (h : ∀ n position, Site.marksOutside (source ++ k :: path)
        (Rendered.sites (source ++ [k]) position (tree (n.replaceAt path m))) =
      Site.marksOutside (source ++ k :: path) (Rendered.sites (source ++ [k]) position (tree n)))
    (ns : List Node) (i count : Nat) :
    Site.marksOutside (source ++ k :: path) (Rendered.sitesAll source position i 0
        ((((ns.modify k fun n => n.replaceAt path m).drop i).take count).map tree)) =
      Site.marksOutside (source ++ k :: path) (Rendered.sitesAll source position i 0
        (((ns.drop i).take count).map tree)) := by
  apply marksOutside_row
  · simp only [List.length_take, List.length_drop, List.length_modify]
  · intro t n n' hn hn'
    rw [List.getElem?_take, List.getElem?_drop] at hn hn'
    obtain ⟨-, hn⟩ := Option.ite_none_right_eq_some.mp hn
    obtain ⟨-, hn'⟩ := Option.ite_none_right_eq_some.mp hn'
    rw [List.getElem?_modify, hn] at hn'
    by_cases hk : k = i + t
    · subst hk
      obtain rfl : n.replaceAt path m = n' := by simpa using hn'
      exact h n _
    · obtain rfl : n = n' := by simpa [hk] using hn'
      rfl

theorem marksOutside_replaceAt (levels : Nat) (n m : Node) (path source position : List Nat) :
    Site.marksOutside (source ++ path)
        (Rendered.sites source position (r.treeAt state levels (n.replaceAt path m))) =
      Site.marksOutside (source ++ path)
        (Rendered.sites source position (r.treeAt state levels n)) := by
  induction path generalizing levels n source position with
  | nil =>
    have hwithin : ∀ t,
        Site.marksOutside (source ++ []) (Rendered.sites source position t) = [] := by
      intro t
      rw [List.append_nil]
      exact Site.marksOutside_eq_nil (Rendered.source_extends source position t)
    rw [hwithin, hwithin]
  | cons k path ih =>
    obtain ⟨c, ns⟩ := n
    obtain ⟨f, count, htree⟩ := r.treeAt_eq_slice state levels c ns.length
    have hrow := @marksOutside_modify k path source position (r.treeAt state (levels - 1)) m
      (fun n position => by simpa using ih (levels - 1) n (source ++ [k]) position)
      ns f.kind.firstShown count
    rw [Node.replaceAt, htree ns rfl, htree _ (List.length_modify ..)]
    exact Site.marksOutside_cons_congr rfl hrow

/-! ## The shape of the output -/

theorem window_bounds {n : Node} {y : Plan} {v : Option Value} {w : Slice Float}
    (hy : r.plan n = .ok y) (hw : (y.face v).kind = .virtualList w) :
    w.stop ≤ n.children.length ∧ ∀ config, r.config.check = .ok config → w.start ≤ w.stop := by
  obtain ⟨presenter, hp⟩ : ∃ s : Presenter, s.plan r.config n = .ok y := by
    unfold plan at hy
    split at hy
    · cases hy
    · split at hy
      · cases hy
      · exact ⟨_, hy⟩
  obtain ⟨item, viewport, hheights, rfl⟩ := Presenter.plan_virtualList hp hw
  refine ⟨Slice.stop_le_count _ _, fun config hc => ?_⟩
  obtain ⟨hitem, hviewport⟩ := Presenter.heights_usable hc hheights
  exact Slice.start_le_stop _ _ hitem hviewport

theorem treeAt_children (levels : Nat) (n : Node) :
    match (r.treeAt state levels n).face.kind with
    | .element _ =>
      (r.treeAt state levels n).children = n.children.map (r.treeAt state (levels - 1))
    | .virtualList w =>
      w.stop ≤ n.children.length ∧ (∀ config, r.config.check = .ok config → w.start ≤ w.stop) ∧
      (r.treeAt state levels n).children =
        ((n.children.drop w.start).take (w.stop - w.start)).map (r.treeAt state (levels - 1))
    | .placeholder .. => (r.treeAt state levels n).children = [] := by
  cases levels with
  | zero => rfl
  | succ levels =>
    cases hy : r.plan n with
    | error e =>
      simp only [treeAt, hy]
      rfl
    | ok y =>
      let v := y.value? state
      have hchildren : (r.treeAt state (levels + 1) n).children =
          (y.shown v).map (r.treeAt state levels) := by
        simp only [treeAt, hy]
        rfl
      have hkind : (r.treeAt state (levels + 1) n).face.kind = (y.face v).kind := by
        simp only [treeAt, hy]
        rfl
      rw [hchildren, hkind]
      rcases (plan_fits hy).shows v with ⟨tag, hk, hs, -⟩ | ⟨w, hk, hs, -⟩
      · rw [hk, hs]
        rfl
      · obtain ⟨hstop, hstart⟩ := window_bounds hy hk
        rw [hk, hs]
        exact ⟨hstop, hstart, rfl⟩

/-- The output has one tree for each root, in order. Every rendered node stands for a node of the
specification and has its id. Its children are what the children of this node are rendered as one
level deeper, whatever the pass: all of them for an element, the slice in the window for a virtual
list, and none for a placeholder. Where the subtree at a path is replaced, the same nodes are
rendered outside of it, in the same places and with the same faces. -/
theorem render_shape (hr : r.BuiltIn) (state : String → Option Value) (spec : Spec) :
    let o := r.render state spec
    let maxDepth := r.config.maxDepth
    (∀ p, o.roots = spec.roots.map fun n => (r.renderAt state maxDepth n p).1) ∧
    Rendered.flattenAll 0 o.roots = o.sites.map (fun x => (x.source.length - 1, x.tree.face)) ∧
    (∀ x ∈ o.sites, ∃ n, spec.at? x.source = some n ∧ x.tree.id = n.id ∧ ∀ p,
      let rendering (m : Node) := (r.renderAt state (maxDepth - x.source.length) m p).1
      match x.tree.face.kind with
      | .element _ => x.tree.children = n.children.map rendering
      | .virtualList w =>
        w.stop ≤ n.children.length ∧ (∀ config, r.config.check = .ok config → w.start ≤ w.stop) ∧
        x.tree.children = ((n.children.drop w.start).take (w.stop - w.start)).map rendering
      | .placeholder .. => x.tree.children = []) ∧
    ∀ path m, Site.marksOutside path (r.render state (spec.replaceAt path m)).sites =
      Site.marksOutside path o.sites := by
  intro o maxDepth
  have htree : ∀ levels p, (fun n => (r.renderAt state levels n p).1) = r.treeAt state levels := by
    intro levels p
    funext n
    rw [renderAt_eq hr]
  have hroots : o.roots = spec.roots.map (r.treeAt state maxDepth) := by
    rw [show o = _ from render_eq hr state spec]
  refine ⟨?_, ?_, ?_, ?_⟩
  · intro p
    rw [htree, hroots]
  · calc Rendered.flattenAll 0 o.roots
        = o.preorder.map fun x => (x.1.length - 1, x.2.face) :=
          Rendered.flattenAll_eq List.length_nil 0 o.roots
      _ = o.sites.map fun x => (x.source.length - 1, x.tree.face) := by
          rw [o.preorder_eq_sites, List.map_map]
          rfl
  · intro x hx
    have hmem : (x.source, x.tree) ∈ o.preorder := by
      rw [o.preorder_eq_sites]
      exact List.mem_map_of_mem hx
    obtain ⟨⟨levels, n⟩, -, hnode, htree', hdepth⟩ :=
      exists_depicted (render_depicts hr state spec) hmem
    dsimp only at hnode htree' hdepth
    have hbelow : maxDepth - x.source.length = levels - 1 := by omega
    refine ⟨n, hnode, ?_, fun p => ?_⟩
    · rw [htree', treeAt_id]
    · simp only [htree, hbelow, htree']
      exact treeAt_children levels n
  · rintro (_ | ⟨k, path⟩) m
    · rfl
    · have hrow := @marksOutside_modify k path [] [] (r.treeAt state maxDepth) m
        (fun n position => marksOutside_replaceAt maxDepth n m path [k] position)
        spec.roots 0 spec.roots.length
      have hall : ∀ ns : List Node, ns.length = spec.roots.length →
          (ns.drop 0).take spec.roots.length = ns := by
        rintro ns hns
        rw [List.drop_zero, ← hns, List.take_length]
      rw [hall _ (List.length_modify ..), hall _ rfl] at hrow
      rw [show o = _ from render_eq hr state spec, render_eq hr]
      exact hrow

/-- A card whose second text is replaced by a tree of an unknown type. The card and its first text
are rendered as before, and so is the root that comes after them. -/
theorem shape_two_texts :
    let r := standard .standard
    let card : Node :=
      .mk (.plain "a" "card") [.leaf (.plain "b" "text"), .leaf (.plain "c" "text")]
    let spec : Spec := { Spec.untitled with roots := [card, .leaf (.plain "d" "divider")] }
    let broken : Node := .mk (.plain "e" "chart") [.leaf (.plain "f" "text")]
    let output := r.render (fun _ => none) (spec.replaceAt [0, 1] broken)
    r.BuiltIn ∧ output.failureCount = 1 ∧
      Site.marksOutside [0, 1] output.sites = [([0], [0], ⟨"a", .element "card", [], []⟩),
        ([0, 0], [0, 0], ⟨"b", .element "text", [], []⟩),
        ([1], [1], ⟨"d", .element "divider", [], []⟩)] := by
  intro r card spec broken output
  have hr : r.BuiltIn := standard_builtIn .standard
  obtain ⟨-, -, -, houtside⟩ := render_shape hr (fun _ => none) spec
  exact ⟨hr, rfl, (houtside [0, 1] broken).trans rfl⟩

end Renderer

end DynamicUi
