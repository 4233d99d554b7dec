import DynamicUi.Proofs.Window.Ledger

/-! # What operations leave of a window

A window that neither renders nor is given something else to show goes on by writes, each of which
is announced and marks those it calls, and by removals. Beside the marks only the counter of its
session moves.
-/

namespace DynamicUi

open Json

theorem Store.setAll_append {κ : Type} (s : Store κ) (es es' : List (String × Value)) :
    s.setAll (es ++ es') =
      (((s.setAll es).1.setAll es').1, (s.setAll es).2 ++ ((s.setAll es).1.setAll es').2) := by
  induction es generalizing s with
  | nil => rfl
  | cons e es ih => simp only [List.cons_append, setAll, ih, List.append_assoc]

namespace Window

/-- Writes lead from one window to the other, whatever becomes of the counter and the exchange. -/
def Writes (w : Window) (entries : List (String × Value)) (w' : Window) : Prop :=
  ∃ inFlight, w'.store = (w.store.setAll entries).1 ∧
    w'.session = { w.session.mark (w.store.setAll entries).2 with inFlight }

namespace Writes

variable {w w' w'' : Window} {entries entries' : List (String × Value)}

theorem of_same (hs : w'.store = w.store)
    (h : ∃ inFlight, w'.session = { w.session with inFlight }) : Writes w [] w' := by
  obtain ⟨inFlight, h⟩ := h
  exact ⟨inFlight, hs, h⟩

theorem refl (w : Window) : Writes w [] w := of_same rfl ⟨w.session.inFlight, rfl⟩

theorem trans (h : Writes w entries w') (h' : Writes w' entries' w'') :
    Writes w (entries ++ entries') w'' := by
  obtain ⟨i, hstore, hsession⟩ := h
  obtain ⟨i', hstore', hsession'⟩ := h'
  refine ⟨i', ?_, ?_⟩
  · rw [hstore', hstore, Store.setAll_append]
  · rw [hsession', hsession, hstore, Store.setAll_append]
    simp only [Session.mark, List.foldl_append]

/-- What neither the marks nor the counter are part of is as it was. -/
theorem kept (h : Writes w entries w') {α : Type} {f : Session → α}
    (hf : ∀ s called inFlight, f { Session.mark s called with inFlight } = f s) :
    f w'.session = f w.session := by
  obtain ⟨_, -, hs⟩ := h
  rw [hs]
  exact hf _ _ _

end Writes

/-! ## What operations write -/

def toolWrites (w : Window) (b : Binding) (payload : Option Value) : List (String × Value) :=
  if LocalTool.isLocal b.invocation.tool then w.localWrites b payload else []

def hookWrites (w : Window) : List Binding → List (String × Value)
  | [] => []
  | b :: bs => w.toolWrites b none ++ (w.trigger b none).1.hookWrites bs

def mountedOn (w : Window) (p : Pass) : Window :=
  let followed := w.follow p
  { followed with session := { followed.session with mounted := true } }

def written (w : Window) : Op → List (String × Value)
  | .render r => (w.mountedOn (w.render r).2.pass).hookWrites w.hookBindings
  | .interact component event payload =>
    (w.session.bindings.get? component event).toList.flatMap (w.toolWrites · payload)
  | .scroll list offset => [(offsetKey list, .ofFloat offset)]
  | .write key v => [(key, v)]
  | op => (w.applies op).flatMap fun m => m.output?.toList

variable (w : Window)

theorem writes_writeAll (entries : List (String × Value)) :
    w.Writes entries (w.writeAll entries) := by
  rw [writeAll_eq]
  exact ⟨w.session.inFlight, rfl, rfl⟩

theorem writes_trigger (b : Binding) (payload : Option Value) :
    w.Writes (w.toolWrites b payload) (w.trigger b payload).1 := by
  cases hb : LocalTool.isLocal b.invocation.tool with
  | true =>
    rw [trigger_local w hb, toolWrites, if_pos hb]
    exact w.writes_writeAll _
  | false =>
    rw [trigger_remote w hb, toolWrites, if_neg (by simp [hb])]
    exact .of_same rfl ⟨_, rfl⟩

theorem writes_triggerEach (bs : List Binding) :
    w.Writes (w.hookWrites bs) (bs.foldl (fun w b => (w.trigger b none).1) w) := by
  induction bs generalizing w with
  | nil => exact .refl w
  | cons b bs ih => exact (w.writes_trigger b none).trans (ih _)

theorem writes_absorbOne (m : Settlement Note) :
    w.Writes m.output?.toList (w.absorbOne m) := by
  have hcounted : w.Writes []
      { w with session := { w.session with inFlight := w.session.inFlight - 1 } } :=
    .of_same rfl ⟨_, rfl⟩
  rw [absorbOne_eq]
  exact hcounted.trans (writes_writeAll _ _)

theorem writes_absorb :
    w.Writes (w.inbox.flatMap fun m => m.output?.toList) w.absorb.1 := by
  have hfold : ∀ (ms : List (Settlement Note)) (w : Window),
      w.Writes (ms.flatMap fun m => m.output?.toList) (ms.foldl absorbOne w) := by
    intro ms
    induction ms with
    | nil => exact .refl
    | cons m ms ih => exact fun w => (w.writes_absorbOne m).trans (ih _)
  have hcollect : w.Writes [] { w with exchange := w.exchange.collect w.session.instanceId } :=
    .of_same rfl ⟨_, rfl⟩
  exact hcollect.trans (hfold w.inbox _)

/-- After a pass is taken over, all that is left of rendering is what the hooks write. -/
theorem writes_render (r : Renderer) :
    Writes (w.mountedOn (w.render r).2.pass) (w.written (.render r)) (w.render r).1 := by
  show Writes _ _ (w.follow (w.render r).2.pass).mount
  rw [mount_eq]
  exact writes_triggerEach _ _

/-- Whether an operation only writes, if it does anything to the window. -/
def Op.writes : Op → Bool
  | .render _ | .display _ | .remove _ => false
  | _ => true

theorem writes_step {op : Op} (h : op.writes = true) : w.Writes (w.written op) (w.step op) := by
  cases op with
  | render | display | remove => cases h
  | interact component event payload =>
    simp only [step, interact, written]
    cases w.session.bindings.get? component event with
    | none => exact .refl w
    | some b =>
      rw [Option.toList_some, List.flatMap_singleton]
      exact w.writes_trigger b payload
  | scroll list offset => exact w.writes_writeAll [(offsetKey list, .ofFloat offset)]
  | write key v => exact w.writes_writeAll [(key, v)]
  | pump => exact w.writes_absorb
  | settle =>
    have hwaited : w.Writes [] w.waited := .of_same rfl ⟨_, rfl⟩
    exact hwaited.trans w.waited.writes_absorb
  | receive =>
    simp only [step, receive, written, applies]
    cases w.inbox with
    | nil => exact .refl w
    | cons m ms =>
      have htaken : w.Writes []
          { w with exchange := w.exchange.takeOldest w.session.instanceId } :=
        .of_same rfl ⟨_, rfl⟩
      rw [List.head?_cons, Option.toList_some, List.flatMap_singleton]
      exact htaken.trans (writes_absorbOne _ m)
  | elsewhere m =>
    simp only [step]
    split
    · exact .refl w
    · exact .of_same rfl ⟨_, rfl⟩
  | takenBy n =>
    simp only [step]
    split
    · exact .refl w
    · exact .of_same rfl ⟨_, rfl⟩
  | enter => exact .of_same rfl ⟨_, rfl⟩

def Op.renders : Op → Bool
  | .render _ => true
  | _ => false

/-- An operation that does not render changes the marks and the counter of a session, and what it
is given to show. -/
theorem step_kept {op : Op} (h : op.renders = false) {α : Type} {f : Session → α}
    (hf : ∀ s called inFlight, f { Session.mark s called with inFlight } = f s)
    (hspec : ∀ spec, op = .display spec → f { w.session with spec } = f w.session) :
    f (w.step op).session = f w.session := by
  cases hw : op.writes with
  | true => exact (w.writes_step hw).kept hf
  | false =>
    cases op with
    | render => cases h
    | display spec => exact hspec spec rfl
    | remove => rfl
    | interact | scroll | pump | settle | receive | write | elsewhere | takenBy | enter => cases hw

theorem step_lists {op : Op} (h : op.renders = false) :
    (w.step op).session.lists = w.session.lists :=
  w.step_kept h (f := Session.lists) (fun _ _ _ => rfl) fun _ _ => rfl

theorem step_bindings {op : Op} (h : op.renders = false) :
    (w.step op).session.bindings = w.session.bindings :=
  w.step_kept h (f := Session.bindings) (fun _ _ _ => rfl) fun _ _ => rfl

theorem bindings_foldl_step {ops : List Op} (h : ∀ op ∈ ops, op.renders = false) :
    (ops.foldl step w).session.bindings = w.session.bindings := by
  induction ops generalizing w with
  | nil => rfl
  | cons op ops ih =>
    obtain ⟨hop, hops⟩ := List.forall_mem_cons.mp h
    exact (ih _ hops).trans (w.step_bindings hop)

variable (r : Renderer)

theorem render_bindings : (w.render r).1.session.bindings = (w.render r).2.pass.bindings :=
  (w.writes_render r).kept (f := Session.bindings) fun _ _ _ => rfl

theorem render_lists : (w.render r).1.session.lists = (w.render r).2.pass.lists :=
  (w.writes_render r).kept (f := Session.lists) fun _ _ _ => rfl

theorem render_mountChanges : (w.render r).1.session.mountChanges =
    Session.changesOf w.session.lists (w.render r).2.pass.lists :=
  (w.writes_render r).kept (f := Session.mountChanges) fun _ _ _ => rfl

theorem interact_isSome (component event : String) (payload : Option Value) :
    (w.interact component event payload).2.isSome =
      (w.session.bindings.get? component event).isSome := by
  simp only [interact]
  cases w.session.bindings.get? component event <;> rfl

end Window

end DynamicUi
