import DynamicUi.Proofs.Desktop.Lifetime
import DynamicUi.Proofs.Render.Routing
import DynamicUi.Proofs.Window.Writes

/-! # What is on screen can be triggered

Each open window shows what its latest render returned. Its session answers to the events that are
listed there, and to no others, until it renders again.
-/

namespace DynamicUi

open Json

namespace Desktop

def screensAfter (h : Desktop) (screens : KeyMap Output) : Act → KeyMap Output
  | .use window (.render r) =>
    match h.window? window with
    | some w => KeyMap.insert screens window (w.render r).2
    | none => screens
  | .closeWindow window => KeyMap.erase screens window
  | .closeAll => []
  | _ => screens

def screensOf (h : Desktop) (screens : KeyMap Output) : List Act → KeyMap Output
  | [] => screens
  | a :: acts => (h.step a).screensOf (h.screensAfter screens a) acts

/-- Sessions answer to the bindings of what their windows show. -/
structure Answers (h : Desktop) (screens : KeyMap Output) : Prop where
  shown : ∀ window o, KeyMap.get? screens window = some o → h.session? window ≠ none
  bindings : ∀ window s, h.session? window = some s →
    s.bindings = ((KeyMap.get? screens window).map fun o => o.pass.bindings).getD []

variable {h : Desktop} {screens : KeyMap Output}

theorem Answers.update {h' : Desktop} {screens' : KeyMap Output} (ha : h.Answers screens)
    {window : String} {s? : Option Session} {o? : Option Output}
    (hs : ∀ window', h'.session? window' = if window = window' then s? else h.session? window')
    (ho : ∀ window', KeyMap.get? screens' window' =
      if window = window' then o? else KeyMap.get? screens window')
    (hclosed : s? = none → o? = none)
    (hopen : ∀ s, s? = some s → s.bindings = (o?.map fun o => o.pass.bindings).getD []) :
    h'.Answers screens' where
  shown window' o ho' := by
    rw [ho] at ho'
    rw [hs]
    split
    · next he =>
      intro hnone
      rw [if_pos he, hclosed hnone] at ho'
      cases ho'
    · next hne =>
      rw [if_neg hne] at ho'
      exact ha.shown window' o ho'
  bindings window' s hs' := by
    rw [hs] at hs'
    rw [ho]
    split at hs'
    · next he =>
      rw [if_pos he]
      exact hopen s hs'
    · next hne =>
      rw [if_neg hne]
      exact ha.bindings window' s hs'

theorem Answers.screen_of_closed (ha : h.Answers screens) {window : String}
    (hs : h.session? window = none) : KeyMap.get? screens window = none := by
  cases ho : KeyMap.get? screens window with
  | none => rfl
  | some o => exact absurd hs (ha.shown window o ho)

theorem get?_unchanged {α : Type} (m : KeyMap α) (k k' : String) :
    KeyMap.get? m k' = if k = k' then KeyMap.get? m k else KeyMap.get? m k' := by
  split
  · next he => rw [he]
  · rfl

theorem Answers.step (hc : h.Sound) (ha : h.Answers screens) (a : Act) :
    (h.step a).Answers (h.screensAfter screens a) := by
  cases a with
  | openWindow window app spec =>
    simp only [Desktop.step, screensAfter]
    cases hr : h.directory.record? window with
    | none =>
      have hs := hc.session?_eq_none.mpr hr
      rw [openWindow_new hr hs]
      refine ha.update (fun _ => KeyMap.get?_insert ..) (get?_unchanged screens window)
        (by rintro ⟨⟩) ?_
      rintro _ ⟨⟩
      rw [ha.screen_of_closed hs]
      rfl
    | some record =>
      by_cases happ : record.app = app
      · obtain ⟨s, hs, -, -⟩ := hc.session?_of_record? hr
        rw [openWindow_same hr hs happ]
        refine ha.update (fun _ => KeyMap.get?_insert ..) (get?_unchanged screens window)
          (by rintro ⟨⟩) ?_
        rintro _ ⟨⟩
        exact ha.bindings window s hs
      · rw [openWindow_other hr happ]
        exact ha
  | closeWindow window =>
    simp only [Desktop.step, screensAfter]
    cases hr : h.directory.record? window with
    | none =>
      have hs := hc.session?_eq_none.mpr hr
      have hnone : ∀ window', h.session? window' =
          if window = window' then none else h.session? window' :=
        fun window' => hs ▸ get?_unchanged h.sessions window window'
      rw [closeWindow_unknown hr hs]
      exact ha.update hnone (fun _ => KeyMap.get?_erase ..) (fun _ => rfl)
        (by rintro _ ⟨⟩)
    | some record =>
      rw [closeWindow_open hr]
      exact ha.update (fun _ => KeyMap.get?_erase ..) (fun _ => KeyMap.get?_erase ..)
        (fun _ => rfl) (by rintro _ ⟨⟩)
  | closeAll =>
    constructor
    · rintro window o ⟨⟩
    · rintro window s ⟨⟩
  | use window op =>
    cases hw : h.window? window with
    | none =>
      have he : h.screensAfter screens (.use window op) = screens := by
        cases op <;> simp only [screensAfter, hw]
      simp only [Desktop.step, hw, he]
      exact ha
    | some w =>
      obtain ⟨hs, -, -⟩ := window?_eq hw
      cases hop : op.renders with
      | true =>
        obtain ⟨r, rfl⟩ : ∃ r, op = .render r := by
          cases op <;> first | exact ⟨_, rfl⟩ | cases hop
        simp only [Desktop.step, screensAfter, hw, Window.Op.isOwn, if_true]
        refine ha.update (fun _ => KeyMap.get?_insert ..) (fun _ => KeyMap.get?_insert ..)
          (by rintro ⟨⟩) ?_
        rintro _ ⟨⟩
        exact w.render_bindings r
      | false =>
        have he : h.screensAfter screens (.use window op) = screens := by
          cases op <;> first | rfl | cases hop
        simp only [Desktop.step, hw, he]
        split
        · refine ha.update (fun _ => KeyMap.get?_insert ..) (get?_unchanged screens window)
            (by rintro ⟨⟩) ?_
          rintro _ ⟨⟩
          rw [w.step_bindings hop]
          exact ha.bindings window w.session hs
        · exact ha
  | ambient m =>
    simp only [Desktop.step, screensAfter]
    split
    · exact ⟨ha.shown, ha.bindings⟩
    · exact ha
  | enter => exact ⟨ha.shown, ha.bindings⟩

theorem Answers.run (hc : h.Sound) (ha : h.Answers screens) (acts : List Act) :
    (h.run acts).Answers (h.screensOf screens acts) := by
  induction acts generalizing h screens with
  | nil => exact ha
  | cons a acts ih => exact ih (hc.step a) (ha.step hc a)

theorem start_answers (r : Renderer) (x : Exchange Note) : (start r x).Answers [] where
  shown _ _ ho := by cases ho
  bindings _ _ hs := by cases hs

/-- What holds of all that renderers of the run return holds of what is on screen. -/
theorem screensOf_induction {P : Output → Prop} {acts : List Act}
    (hP : ∀ window r, .use window (.render r) ∈ acts → ∀ state spec, P (r.render state spec))
    (hs : ∀ window o, KeyMap.get? screens window = some o → P o) :
    ∀ window o, KeyMap.get? (h.screensOf screens acts) window = some o → P o := by
  induction acts generalizing h screens with
  | nil => exact hs
  | cons a acts ih =>
    refine ih (fun window r hmem => hP window r (List.mem_cons_of_mem _ hmem)) ?_
    intro window o ho
    cases a with
    | closeWindow window' =>
      rw [screensAfter, KeyMap.get?_erase] at ho
      split at ho
      · cases ho
      · exact hs window o ho
    | closeAll => cases ho
    | use window' op =>
      cases op with
      | render r =>
        simp only [screensAfter] at ho
        split at ho
        · rw [KeyMap.get?_insert] at ho
          split at ho
          · cases ho
            exact hP window' r List.mem_cons_self _ _
          · exact hs window o ho
        · exact hs window o ho
      | display | interact | scroll | pump | settle | receive | write | remove | elsewhere |
        takenBy | enter => exact hs window o ho
    | openWindow | ambient | enter => exact hs window o ho

/-- A pass has a binding for an event exactly if some node on screen lists it. The nodes on screen
list the events of the nodes they render, and the binding is that of the last one in post-order. So
whatever happens to a desktop whose windows render with built-in presenters, a session answers to an
event exactly if its window has shown it since the latest render. -/
theorem events_route_to_screen {r : Renderer} (hr : r.BuiltIn) :
    (∀ (state : String → Option Value) (spec : Spec),
      let o := r.render state spec
      (∀ component event, (o.pass.bindings.get? component event).isSome ↔
        o.Lists component event) ∧
      (∀ x ∈ o.postorder, ∃ n, spec.at? x.1 = some n ∧ x.2.Shows n) ∧
      ∀ component event b, o.pass.bindings.get? component event = some b →
        ∃ before path f after n, o.postorder = before ++ (path, f) :: after ∧
          f.Lists component event ∧ (∀ x ∈ after, ¬x.2.Lists component event) ∧
          spec.at? path = some n ∧ b.component = component ∧ b.event = event ∧
          (event, b.invocation) ∈ n.self.events ∧ b.props = n.self.props) ∧
    ∀ (b : Backend) (background : Bool) (acts : List Act),
      (∀ window r', .use window (.render r') ∈ acts → r'.BuiltIn) →
      let h := start r (.ofBackend b background)
      ∀ window w, (h.run acts).window? window = some w →
        ∀ component event payload, (w.interact component event payload).2.isSome ↔
          ∃ o, KeyMap.get? (h.screensOf [] acts) window = some o ∧ o.Lists component event := by
  constructor
  · intro state spec o
    exact ⟨fun _ _ => Renderer.isSome_binding_iff hr, (Renderer.render_routed hr state spec).1,
      fun _ _ _ hb => Renderer.binding_of_last hr hb⟩
  · intro b background acts hacts h window w hw component event payload
    have hc : h.Sound := start_sound r b background
    have ha : (h.run acts).Answers (h.screensOf [] acts) := .run hc (start_answers ..) acts
    have hscreen : ∀ window o, KeyMap.get? (h.screensOf [] acts) window = some o →
        ((o.pass.bindings.get? component event).isSome ↔ o.Lists component event) := by
      refine screensOf_induction (P := fun o =>
        (o.pass.bindings.get? component event).isSome ↔ o.Lists component event) ?_ ?_
      · intro window r' hmem state spec
        exact Renderer.isSome_binding_iff (hacts window r' hmem)
      · intro window o ho
        cases ho
    obtain ⟨hs, -, -⟩ := window?_eq hw
    rw [w.interact_isSome, ha.bindings window w.session hs]
    cases ho : KeyMap.get? (h.screensOf [] acts) window with
    | none => simp [Bindings.get?]
    | some o => simpa using hscreen window o ho

/-- Of two buttons under one id the second is triggered, also after the window has been given
something else to show, and an event that neither lists is not. -/
theorem two_buttons_route :
    let r := Renderer.standard .standard
    let button (tool : String) : Node :=
      .leaf { Component.plain "b" "button" with events := [("click", .ofTool tool)] }
    let spec : Spec := { Spec.untitled with roots := [button "one", button "two"] }
    let acts : List Act :=
      [.openWindow "w" "a" spec, .use "w" (.render r), .use "w" (.display .untitled)]
    let h := (start r (.ofBackend .empty true)).run acts
    r.BuiltIn ∧
    (∃ b, (r.render (fun _ => none) spec).pass.bindings.get? "b" "click" = some b ∧
      b.invocation.tool = "two") ∧
    ∃ w, h.window? "w" = some w ∧ (w.interact "b" "click" none).2.isSome ∧
      ¬(w.interact "b" "hover" none).2.isSome := by
  intro r button spec acts h
  have hr : r.BuiltIn := Renderer.standard_builtIn .standard
  have hacts : ∀ window r', .use window (.render r') ∈ acts → r'.BuiltIn := by
    intro window r' hmem
    have hmem : window = "w" ∧ r' = r := by simpa [acts] using hmem
    exact hmem.2 ▸ hr
  obtain ⟨w, hw⟩ : ∃ w, h.window? "w" = some w := ⟨_, rfl⟩
  have hroute := (events_route_to_screen hr).2 .empty true acts hacts "w" w hw "b"
  have hscreen : KeyMap.get? ((start r (.ofBackend .empty true)).screensOf [] acts) "w" =
      some (r.render (fun _ => none) spec) := rfl
  refine ⟨hr, ⟨_, rfl, rfl⟩, w, hw, ?_, ?_⟩
  · exact (hroute "click" none).mpr
      ⟨_, hscreen, _, List.mem_cons_self, rfl, rfl, List.mem_cons_self⟩
  · rw [hroute]
    rintro ⟨o, ho, x, hx, -, -, he⟩
    cases hscreen.symm.trans ho
    have hx : x.2.events = ["click"] := by
      rcases List.mem_cons.mp hx with rfl | hx
      · rfl
      · rcases List.mem_singleton.mp hx with rfl
        rfl
    simp [hx] at he

end Desktop

end DynamicUi
