import DynamicUi.Proofs.Render.Routing
import DynamicUi.Proofs.Window.Writes

/-! # Failures are contained

A node that its presenter refuses is shown as a placeholder, and its neighbours are as they would be
without it. What the pass has collected stays as the presenter left it. If every presenter that
refuses a node gives the bindings and slices back as it got them, then all that a pass binds and
mounts is on screen. Elements and lists do, since they check a node before they show its children.
-/

namespace DynamicUi

open Json

def Face.Mounts (f : Face) (id : String) : Prop := f.id = id ∧ ∃ w, f.kind = .virtualList w

namespace Rendered

def AnyFace (P : Face → Prop) (rs : List Rendered) : Prop := ∃ e ∈ flattenAll 0 rs, P e.2

variable {P : Face → Prop}

theorem anyFace_iff (depth : Nat) (rs : List Rendered) :
    AnyFace P rs ↔ ∃ e ∈ flattenAll depth rs, P e.2 := by
  have hmem : ∀ f, f ∈ (flattenAll 0 rs).map Prod.snd ↔ f ∈ (flattenAll depth rs).map Prod.snd :=
    fun f => (mem_postorderAll [] 0 0 f rs).symm.trans (mem_postorderAll [] 0 depth f rs)
  simp only [List.mem_map] at hmem
  constructor
  · rintro ⟨e, he, hP⟩
    obtain ⟨e', he', hf⟩ := (hmem e.2).mp ⟨e, he, rfl⟩
    exact ⟨e', he', hf ▸ hP⟩
  · rintro ⟨e, he, hP⟩
    obtain ⟨e', he', hf⟩ := (hmem e.2).mpr ⟨e, he, rfl⟩
    exact ⟨e', he', hf ▸ hP⟩

theorem anyFace_cons (r : Rendered) (rs : List Rendered) :
    AnyFace P (r :: rs) ↔ AnyFace P [r] ∨ AnyFace P rs := by
  simp only [AnyFace, flattenAll, List.append_nil, List.mem_append, or_and_right, exists_or]

theorem anyFace_mk (f : Face) (rs : List Rendered) :
    AnyFace P [mk f rs] ↔ P f ∨ AnyFace P rs := by
  rw [anyFace_iff 1 rs]
  simp only [AnyFace, flattenAll, flatten, List.append_nil, List.mem_cons, exists_eq_or_imp]

theorem AnyFace.addEvents {r : Rendered} {events : List String}
    (hP : ∀ f : Face, P f → P { f with events := f.events ++ events }) (h : AnyFace P [r]) :
    AnyFace P [r.addEvents events] := by
  obtain ⟨f, rs⟩ := r
  rw [anyFace_mk] at h
  exact (anyFace_mk _ rs).mpr (h.imp_left (hP f))

end Rendered

open Rendered (AnyFace anyFace_cons anyFace_mk)

namespace Pass

theorem isSome_bindComponent_iff (p : Pass) (c : Component) (component event : String) :
    ((p.bindComponent c).bindings.get? component event).isSome ↔
      (c.id = component ∧ event ∈ KeyMap.keys c.events) ∨
        (p.bindings.get? component event).isSome := by
  have hfor : (∃ b ∈ c.bindings, Bindings.isFor component event b = true) ↔
      c.id = component ∧ event ∈ KeyMap.keys c.events := by
    simp only [mem_bindings, Bindings.isFor, Bool.and_eq_true, decide_eq_true_eq, KeyMap.keys,
      List.mem_map]
    constructor
    · rintro ⟨b, ⟨hc, he, -⟩, rfl, rfl⟩
      exact ⟨hc.symm, _, he, rfl⟩
    · rintro ⟨rfl, e, he, rfl⟩
      exact ⟨⟨c.id, e.1, e.2, c.props⟩, ⟨rfl, he, rfl⟩, rfl, rfl⟩
  rw [bindComponent_eq, putAll_bindings, filterMap_binding, Bindings.get?_foldl_insert,
      Option.isSome_or,
    Bool.or_eq_true, List.find?_isSome]
  simp only [List.mem_reverse, hfor]

/-- All that a pass has more than an earlier one belongs to the nodes of these trees. -/
structure ShownBy (p q : Pass) (rs : List Rendered) : Prop where
  bindings : ∀ component event, (q.bindings.get? component event).isSome →
    (p.bindings.get? component event).isSome ∨ AnyFace (·.Lists component event) rs
  lists : ∀ id, KeyMap.contains q.lists id = true →
    KeyMap.contains p.lists id = true ∨ AnyFace (·.Mounts id) rs

namespace ShownBy

variable {p q s : Pass} {rs rs' : List Rendered}

theorem of_same (hb : q.bindings = p.bindings) (hl : q.lists = p.lists) : ShownBy p q rs where
  bindings _ _ h := .inl (hb ▸ h)
  lists _ h := .inl (hl ▸ h)

theorem refl (p : Pass) (rs : List Rendered) : ShownBy p p rs := of_same rfl rfl

theorem trans (h : ShownBy p q rs) (h' : ShownBy q s rs) : ShownBy p s rs where
  bindings component event hs := (h'.bindings component event hs).elim (h.bindings _ _) .inr
  lists id hs := (h'.lists id hs).elim (h.lists id) .inr

theorem mono (hlists : ∀ component event, AnyFace (·.Lists component event) rs →
      AnyFace (·.Lists component event) rs')
    (hmounts : ∀ id, AnyFace (·.Mounts id) rs → AnyFace (·.Mounts id) rs')
    (h : ShownBy p q rs) : ShownBy p q rs' where
  bindings component event hq := (h.bindings component event hq).imp_right (hlists component event)
  lists id hq := (h.lists id hq).imp_right (hmounts id)

theorem below (f : Face) (h : ShownBy p q rs) : ShownBy p q [.mk f rs] :=
  h.mono (fun _ _ h => (anyFace_mk f rs).mpr (.inr h)) fun _ h => (anyFace_mk f rs).mpr (.inr h)

end ShownBy

end Pass

namespace Renderer

theorem shownBy_eachWith {f : Node → Pass → Rendered × Pass}
    (hf : ∀ n p, Pass.ShownBy p (f n p).2 [(f n p).1]) (ns : List Node) (p : Pass) :
    p.ShownBy (eachWith f ns p).2 (eachWith f ns p).1 := by
  induction ns generalizing p with
  | nil => exact .refl p []
  | cons n ns ih =>
    have hfirst : p.ShownBy (f n p).2 ((f n p).1 :: (eachWith f ns (f n p).2).1) :=
      (hf n p).mono (fun _ _ h => (anyFace_cons ..).mpr (.inl h))
        fun _ h => (anyFace_cons ..).mpr (.inl h)
    exact hfirst.trans <| (ih _).mono (fun _ _ h => (anyFace_cons ..).mpr (.inr h))
      fun _ h => (anyFace_cons ..).mpr (.inr h)

end Renderer

namespace Presenter

/-- A presenter that leaves nothing behind where it fails, and shows what it has rendered where it
does not. -/
structure Contained (s : Presenter) : Prop where
  fails : ∀ scene n p e, (s.render scene n p).1 = .error e →
    (s.render scene n p).2.bindings = p.bindings ∧ (s.render scene n p).2.lists = p.lists
  shows : ∀ scene n p r,
    (∀ ns p, Pass.ShownBy p (scene.renderAll ns p).2 (scene.renderAll ns p).1) →
      (s.render scene n p).1 = .ok r →
        r.id = n.id ∧ r.face.kind.isPlaceholder = false ∧ p.ShownBy (s.render scene n p).2 [r]

theorem shownBy_mount {y : Plan} {n : Node} (hy : y.Fits n) (v : Option Value)
    (rs : List Rendered) (p : Pass) : p.ShownBy (y.mount v n.id rs p) [.mk (y.face v) rs] := by
  rcases hy.shows v with ⟨tag, -, -, hs⟩ | ⟨w, hk, -, hs⟩
  · simp only [Plan.mount, hs]
    exact .refl p _
  · simp only [Plan.mount, hs]
    constructor
    · exact fun _ _ h => .inl h
    · intro id h
      simp only [Pass.mountSlice, KeyMap.contains, KeyMap.get?_insert] at h
      split at h
      · next hid => exact .inr ((anyFace_mk _ rs).mpr (.inl ⟨(hy.id v).trans hid, w, hk⟩))
      · exact .inl h

theorem Contained.of_builtIn {s : Presenter} (hs : s.BuiltIn) : s.Contained where
  fails scene n p e h := by
    rw [render_eq hs] at h ⊢
    cases hy : s.plan scene.config n with
    | error e' => exact ⟨rfl, rfl⟩
    | ok y => rw [hy] at h; cases h
  shows scene n p r hscene h := by
    rw [render_eq hs] at h ⊢
    cases hy : s.plan scene.config n with
    | error e => rw [hy] at h; cases h
    | ok y =>
      rw [hy] at h
      cases h
      have hfits := plan_fits hy
      let v := y.value? scene.state
      have hrecord : p.ShownBy (y.record n.id p)
          (scene.renderAll (y.shown v) (y.record n.id p)).1 := by
        simp only [Plan.record]
        split
        · exact .of_same rfl rfl
        · exact .refl p _
      exact ⟨hfits.id v, hfits.not_placeholder v,
        ((hrecord.trans (hscene _ _)).below _).trans (shownBy_mount hfits v _ _)⟩

/-- Renders what passes a check, and refuses the rest. -/
def checked (s : Presenter) (check : Node → Option SpecError) : Presenter :=
  custom fun scene n p =>
    match check n with
    | some e => (.error e, p)
    | none => s.render scene n p

theorem Contained.checked {s : Presenter} (hs : s.Contained) (check : Node → Option SpecError) :
    (s.checked check).Contained where
  fails scene n p e h := by
    simp only [Presenter.checked, render] at h ⊢
    cases hc : check n with
    | some e' => exact ⟨rfl, rfl⟩
    | none =>
      rw [hc] at h
      exact hs.fails scene n p e h
  shows scene n p r hscene h := by
    simp only [Presenter.checked, render] at h ⊢
    cases hc : check n with
    | some e => rw [hc] at h; cases h
    | none =>
      rw [hc] at h
      exact hs.shows scene n p r hscene h

end Presenter

namespace Renderer

def Contained (r : Renderer) : Prop :=
  ∀ kind s, KeyMap.get? r.presenters kind = some s → s.Contained

theorem BuiltIn.contained {r : Renderer} (hr : r.BuiltIn) : r.Contained :=
  fun kind s hs => .of_builtIn (hr kind s hs)

theorem Contained.register {r : Renderer} (hr : r.Contained) (kind : String) {s : Presenter}
    (hs : s.Contained) : (r.register kind s).Contained := by
  intro kind' s' h
  simp only [Renderer.register, KeyMap.get?_insert] at h
  split at h
  · cases h
    exact hs
  · exact hr kind' s' h

/-- A node that is shown lists the events that are bound for it; a placeholder binds none. -/
theorem shownBy_finish {n : Node} {p : Pass} {out : Except SpecError Rendered × Pass}
    (hfails : ∀ e, out.1 = .error e → out.2.bindings = p.bindings ∧ out.2.lists = p.lists)
    (hshows : ∀ r, out.1 = .ok r →
      r.id = n.id ∧ r.face.kind.isPlaceholder = false ∧ p.ShownBy out.2 [r]) :
    p.ShownBy (finish n out).2 [(finish n out).1] := by
  obtain ⟨_ | r, q⟩ := out
  · next e =>
    obtain ⟨hb, hl⟩ := hfails e rfl
    exact .of_same hb hl
  · obtain ⟨hid, hreal, hshown⟩ := hshows r rfl
    have hadded : p.ShownBy q [r.addEvents (KeyMap.keys n.self.events)] :=
      hshown.mono (fun _ _ => .addEvents fun f h => ⟨h.1, h.2.1, List.mem_append_left _ h.2.2⟩)
        fun _ => .addEvents fun _ h => h
    refine hadded.trans ⟨?_, ?_⟩
    · intro component event h
      rcases (q.isSome_bindComponent_iff ..).mp h with ⟨rfl, he⟩ | h
      · obtain ⟨f, rs⟩ := r
        exact .inr ((anyFace_mk _ rs).mpr (.inl ⟨hreal, hid, List.mem_append_right _ he⟩))
      · exact .inl h
    · intro id h
      rw [finish, Pass.bindComponent_eq, Pass.putAll_binding_lists] at h
      exact .inl h

theorem shownBy_renderAt {r : Renderer} (hr : r.Contained) (state : String → Option Value)
    (levels : Nat) (n : Node) (p : Pass) :
    p.ShownBy (r.renderAt state levels n p).2 [(r.renderAt state levels n p).1] := by
  induction levels generalizing n p with
  | zero =>
    rw [renderAt_zero_face]
    exact .refl p _
  | succ levels ih =>
    simp only [renderAt]
    split
    · exact .refl p _
    · split
      · exact .refl p _
      · next s hs =>
        have hcontained := hr _ s hs
        exact shownBy_finish (hcontained.fails _ n p)
          fun r => hcontained.shows _ n p r (shownBy_eachWith ih)

theorem shownBy_render {r : Renderer} (hr : r.Contained) (state : String → Option Value)
    (spec : Spec) :
    Pass.ShownBy .empty (r.render state spec).pass (r.render state spec).roots :=
  shownBy_eachWith (shownBy_renderAt hr state _) spec.roots .empty

/-- If every presenter that fails leaves the pass as it was, then failures are contained: a pass
has bindings only for events that some node on screen lists and that is no placeholder, and slices
only of virtual lists that are on screen. So whatever happens to a window until it renders again, it
answers to no event of a node that a placeholder has taken the place of. -/
theorem failures_contained {r : Renderer} (hr : r.Contained) :
    (∀ (state : String → Option Value) (spec : Spec),
      let o := r.render state spec
      (∀ component event, (o.pass.bindings.get? component event).isSome →
        o.Lists component event) ∧
      ∀ id, KeyMap.contains o.pass.lists id = true →
        ∃ e ∈ Rendered.flattenAll 0 o.roots, e.2.id = id ∧ ∃ w, e.2.kind = .virtualList w) ∧
    ∀ (w : Window) (ops : List Window.Op), (∀ op ∈ ops, op.renders = false) →
      ∀ component event payload,
        ((ops.foldl Window.step (w.render r).1).interact component event payload).2.isSome →
          (w.render r).2.Lists component event := by
  have hshown := shownBy_render hr
  have hbound : ∀ state spec component event,
      ((r.render state spec).pass.bindings.get? component event).isSome →
        (r.render state spec).Lists component event := by
    intro state spec component event h
    exact ((hshown state spec).bindings component event h).resolve_left (by rintro ⟨⟩)
  refine ⟨fun state spec => ⟨hbound state spec, ?_⟩, ?_⟩
  · intro id h
    exact ((hshown state spec).lists id h).resolve_left (by rintro ⟨⟩)
  · intro w ops hops component event payload h
    rw [Window.interact_isSome, Window.bindings_foldl_step _ hops, Window.render_bindings] at h
    exact hbound _ _ component event h

/-- A panel that checks a prop before it renders its children fails without a trace: the button
beside it can be clicked, after a write as well, and the one below it cannot. -/
theorem contained_panel_and_button :
    let panel : Presenter := .checked (.plain "panel") fun n =>
      if (n.self.prop? "open").isSome then none else some (.invalidProp "open" "missing")
    let r := (standard .standard).register "panel" panel
    let button (id : String) : Node :=
      .leaf { Component.plain id "button" with events := [("click", .ofTool "go")] }
    let spec : Spec :=
      { Spec.untitled with roots := [.mk (.plain "x" "panel") [button "in"], button "out"] }
    let w := Window.opening (.ofBackend .empty true) none "a" spec
    let later := [Window.Op.write "k" .null].foldl Window.step (w.render r).1
    r.Contained ∧ (later.interact "out" "click" none).2.isSome ∧
      (w.render r).2.Lists "out" "click" ∧ ¬(later.interact "in" "click" none).2.isSome := by
  intro panel r button spec w later
  have hpanel : panel.Contained :=
    .checked (.of_builtIn (s := .plain "panel") trivial) fun n =>
      if (n.self.prop? "open").isSome then none else some (.invalidProp "open" "missing")
  have hr : r.Contained := (standard_builtIn .standard).contained.register "panel" hpanel
  have hops : ∀ op ∈ [Window.Op.write "k" .null], op.renders = false := by
    intro op hop
    cases List.mem_singleton.mp hop
    rfl
  have hout : (later.interact "out" "click" none).2.isSome = true := rfl
  refine ⟨hr, hout, (failures_contained hr).2 w _ hops _ _ _ hout, ?_⟩
  intro hin
  obtain ⟨e, he, -, hid, -⟩ := (failures_contained hr).2 w _ hops _ _ _ hin
  have hfaces : (Rendered.flattenAll 0 (w.render r).2.roots).map (·.2.id) = ["x", "out"] := rfl
  have hmem := List.mem_map_of_mem (f := fun e => e.2.id) he
  rw [hfaces, hid] at hmem
  simp at hmem

/-- A panel that fails after it has rendered its children leaves the click of a button and the slice
of a list behind that nobody sees, and the window answers to the click. -/
theorem failed_panel_leaves_click :
    let panel : Presenter := .custom fun s n p =>
      (.error (.invalidProp "any" "always fails"), (s.renderAll n.children p).2)
    let config : Config :=
      { Config.standard with virtualization := { Virtualization.standard with threshold := 1 } }
    let r := (standard config).register "panel" panel
    let button : Node :=
      .leaf { Component.plain "b" "button" with events := [("click", .ofTool "go")] }
    let spec : Spec := { Spec.untitled with
      roots := [.mk (.plain "x" "panel") [.mk (.plain "feed" "list") [button]]] }
    let w := Window.opening (.ofBackend .empty true) none "a" spec
    let o := (w.render r).2
    (Rendered.flattenAll 0 o.roots).map (fun e => (e.2.id, e.2.kind.name, e.2.events)) =
        [("x", "placeholder", [])] ∧
      (o.pass.bindings.get? "b" "click").isSome ∧ KeyMap.keys o.pass.lists = ["feed"] ∧
      ((w.render r).1.interact "b" "click" none).2.isSome := by
  decide +kernel

end Renderer

end DynamicUi
