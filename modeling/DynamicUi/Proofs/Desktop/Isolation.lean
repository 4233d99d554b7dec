import DynamicUi.Proofs.Call.Apart
import DynamicUi.Proofs.Desktop.Lifetime

/-! # Windows are isolated

What is done to one window does not reach the others: their sessions and stores stay as they are,
and so do their calls and messages on the exchange. Only waiting lets the calls of all windows go
on, and then no more happens to another window than that its own calls advance.
-/

namespace DynamicUi

open Exchange (Untouched Advances)

variable {n : Nat}

theorem Exchange.Uses.advances {x y : Exchange Note} {m : Nat} (h : Uses m x y) (hn : m ≠ n) :
    Advances n x y := by
  induction h with
  | refl => exact .refl n x
  | tail _ hu ih =>
    refine ih.trans ?_
    cases hu with
    | submit i note => exact (untouched_move (m := .submit m i note) (decide_eq_false hn)).advances
    | idle hm => exact advances_idle _ hm n
    | take => exact (untouched_takeOldest _ hn).advances

namespace Window

variable {w : Window}

def Op.waits : Op → Bool
  | .settle => true
  | _ => false

theorem untouched_trigger (w : Window) (hn : w.session.instanceId ≠ n) (b : Binding)
    (payload : Option Json.Value) : Untouched n w.exchange (w.trigger b payload).1.exchange := by
  cases hb : LocalTool.isLocal b.invocation.tool with
  | true =>
    rw [trigger_local w hb, writeAll_exchange]
    exact .refl n _
  | false =>
    rw [trigger_remote w hb]
    exact Exchange.untouched_enqueue w.exchange hn _ _

theorem untouched_triggerEach (hw : w.Hosted) (hn : w.session.instanceId ≠ n)
    (bs : List Binding) :
    Untouched n w.exchange (bs.foldl (fun w b => (w.trigger b none).1) w).exchange := by
  induction bs generalizing w with
  | nil => exact .refl n _
  | cons b bs ih =>
    have hb := continues_trigger hw b none
    exact (untouched_trigger w hn b none).trans (ih (hb.hosted hw) (hb.instanceId ▸ hn))

theorem untouched_collect (x : Exchange Note) {m : Nat} (h : m ≠ n) :
    Untouched n x (x.collect m) := by
  refine ⟨rfl, rfl, ?_⟩
  simp only [Exchange.inbox, Exchange.collect, List.filter_filter]
  refine List.filter_congr fun e _ => ?_
  by_cases he : e.caller = n <;> simp [he, Ne.symm h]

theorem absorbEach_exchange (ms : List (Settlement Note)) (w : Window) :
    (ms.foldl absorbOne w).exchange = w.exchange := by
  induction ms generalizing w with
  | nil => rfl
  | cons m ms ih =>
    refine (ih (w.absorbOne m)).trans ?_
    rw [absorbOne_eq, writeAll_exchange]

theorem untouched_step (hw : w.Hosted) (hn : w.session.instanceId ≠ n) {op : Op}
    (ho : op.isOwn = true) (hs : op.waits = false) :
    Untouched n w.exchange (w.step op).exchange := by
  cases op with
  | render r =>
    let followed := w.follow (r.render w.store.get? w.session.spec).pass
    have hfollow : Continues w
        { followed with session := { followed.session with mounted := true } } := ⟨rfl, rfl, .refl⟩
    show Untouched n w.exchange followed.mount.exchange
    rw [mount_eq]
    exact untouched_triggerEach (hfollow.hosted hw) hn _
  | interact component event payload =>
    simp only [step, interact]
    split
    · exact .refl n _
    · exact untouched_trigger w hn _ payload
  | pump =>
    show Untouched n w.exchange (w.inbox.foldl absorbOne _).exchange
    rw [absorbEach_exchange]
    exact untouched_collect _ hn
  | receive =>
    simp only [step, receive]
    split
    · exact .refl n _
    · rw [absorbOne_eq, writeAll_exchange]
      exact Exchange.untouched_takeOldest _ hn
  | display | scroll | write | remove => exact .refl n _
  | settle => cases hs
  | elsewhere | takenBy | enter => cases ho

end Window

namespace Desktop

variable {h h' : Desktop} {R : Nat → Exchange Note → Exchange Note → Prop} {window : String}

def Act.window? : Act → Option String
  | .openWindow window .. | .closeWindow window | .use window _ => some window
  | .closeAll | .ambient _ | .enter _ => none

def Act.waits : Act → Bool
  | .use _ op => op.waits
  | _ => false

/-- All windows, but for one perhaps, have kept their sessions and their stores, and what has
happened on the exchange is for the instance of each as `R` says. -/
structure Spares (R : Nat → Exchange Note → Exchange Note → Prop) (but : Option String)
    (h h' : Desktop) : Prop where
  renderer : h'.renderer = h.renderer
  record : ∀ window, but ≠ some window →
    h'.directory.record? window = h.directory.record? window
  session : ∀ window, but ≠ some window → h'.session? window = h.session? window
  store : ∀ window s, but ≠ some window → h.session? window = some s →
    h'.directory.stores[s.instanceId]? = h.directory.stores[s.instanceId]?
  exchange : ∀ window s, but ≠ some window → h.session? window = some s →
    R s.instanceId h.directory.exchange h'.directory.exchange

theorem Spares.refl (but : Option String) (h : Desktop) (hR : ∀ n x, R n x x) :
    Spares R but h h :=
  ⟨rfl, fun _ _ => rfl, fun _ _ => rfl, fun _ _ _ _ => rfl, fun _ _ _ _ => hR _ _⟩

theorem Spares.imp {R' : Nat → Exchange Note → Exchange Note → Prop} {but : Option String}
    (hs : Spares R but h h') (hR : ∀ n x y, R n x y → R' n x y) : Spares R' but h h' :=
  ⟨hs.renderer, hs.record, hs.session, hs.store,
    fun window s hw h => hR _ _ _ (hs.exchange window s hw h)⟩

theorem Coherent.instanceId_ne (hc : h.Coherent) {window' : String} {record : Record} {s : Session}
    (hne : some window ≠ some window') (hr : h.directory.record? window = some record)
    (hs : h.session? window' = some s) : record.instanceId ≠ s.instanceId := by
  intro he
  apply hne
  rw [hc.apart window window' record ⟨s.app, s.instanceId⟩ hr (hc.matched window' s hs) he]

theorem Sound.spares_withNew (hc : h.Sound) (window app : String) (spec : Spec) :
    Spares Untouched (some window) h (h.withNew window app spec) where
  renderer := rfl
  record := fun _ hne => KeyMap.get?_insert_of_ne _ (mt (congrArg some) hne) _
  session := fun _ hne => KeyMap.get?_insert_of_ne _ (mt (congrArg some) hne) _
  store := by
    intro window' s hne hs
    exact List.getElem?_append_left (hc.present (hc.matched window' s hs))
  exchange := by
    intro window' s hne hs
    have hlt := hc.present (hc.matched window' s hs)
    rw [hc.paired] at hlt
    exact Exchange.untouched_addCaller _ (Nat.ne_of_gt hlt) _

theorem Sound.spares_putWindow (hc : h.Sound) {w w' : Window} (hw : h.window? window = some w)
    (hi : w'.session.instanceId = w.session.instanceId)
    (hR : ∀ n, w.session.instanceId ≠ n → R n w.exchange w'.exchange) :
    Spares R (some window) h (h.putWindow window w') := by
  obtain ⟨hs, -, hx⟩ := window?_eq hw
  have hne : ∀ window' s, some window ≠ some window' → h.session? window' = some s →
      w.session.instanceId ≠ s.instanceId :=
    fun window' s hne hs' => hc.instanceId_ne hne (hc.matched window _ hs) hs'
  refine ⟨rfl, fun _ _ => rfl, ?_, ?_, ?_⟩
  · intro window' hne
    exact KeyMap.get?_insert_of_ne _ (mt (congrArg some) hne) _
  · intro window' s hw' hs'
    show (h.directory.stores.modify w'.session.instanceId _)[s.instanceId]? = _
    exact List.getElem?_modify_ne _ _ (hi ▸ hne window' s hw' hs')
  · intro window' s hw' hs'
    rw [← hx]
    exact hR _ (hne window' s hw' hs')

theorem Sound.spares_without (hc : h.Sound) {record : Record}
    (hr : h.directory.record? window = some record) :
    Spares Untouched (some window) h (h.without window record.instanceId) where
  renderer := rfl
  record := fun _ hne => KeyMap.get?_erase_of_ne _ (mt (congrArg some) hne)
  session := fun _ hne => KeyMap.get?_erase_of_ne _ (mt (congrArg some) hne)
  store := by
    intro window' s hne hs
    exact List.getElem?_modify_ne _ _ (hc.instanceId_ne hne hr hs)
  exchange := by
    intro window' s hne hs
    exact Exchange.untouched_retire _ (hc.instanceId_ne hne hr hs)

/-- An act leaves all windows alone but the one it is addressed to. -/
theorem Sound.step_spares (hc : h.Sound) {a : Act} (ha : a.window? = some window) :
    Spares Advances (some window) h (h.step a) ∧
      (a.waits = false → Spares Untouched (some window) h (h.step a)) := by
  have hrefl := Spares.refl (some window) h Untouched.refl
  have hall : ∀ {h'}, Spares Untouched (some window) h h' →
      Spares Advances (some window) h h' ∧
        (a.waits = false → Spares Untouched (some window) h h') :=
    fun hs => ⟨hs.imp fun _ _ _ hu => hu.advances, fun _ => hs⟩
  cases a with
  | openWindow window' app spec =>
    cases ha
    simp only [Desktop.step]
    cases hr : h.directory.record? window with
    | none =>
      rw [openWindow_new hr (hc.session?_eq_none.mpr hr)]
      exact hall (hc.spares_withNew window app spec)
    | some record =>
      by_cases happ : record.app = app
      · obtain ⟨s, hs, -, -⟩ := hc.session?_of_record? hr
        obtain ⟨store, hstore, hw⟩ := hc.window?_of_session? hs
        rw [openWindow_same hr hs happ]
        refine hall ?_
        dsimp only
        rw [← putWindow_display hstore]
        exact hc.spares_putWindow hw rfl fun n _ => .refl n _
      · rw [openWindow_other hr happ]
        exact hall hrefl
  | closeWindow window' =>
    cases ha
    simp only [Desktop.step]
    cases hr : h.directory.record? window with
    | none =>
      rw [closeWindow_unknown hr (hc.session?_eq_none.mpr hr)]
      exact hall hrefl
    | some record =>
      rw [closeWindow_open hr]
      exact hall (hc.spares_without hr)
  | use window' op =>
    cases ha
    simp only [Desktop.step]
    split
    · next w hw =>
      split
      · next hop =>
        obtain ⟨hs, -, hx⟩ := window?_eq hw
        have hpresent := hc.present (hc.matched window _ hs)
        have hhosted : w.Hosted := ⟨hx ▸ hc.reached, hx ▸ hc.paired ▸ hpresent⟩
        have hstep := Window.continues_step hhosted hop
        exact ⟨hc.spares_putWindow hw hstep.instanceId fun n hn => hstep.uses.advances hn,
          fun hwaits => hc.spares_putWindow hw hstep.instanceId fun n hn =>
            Window.untouched_step hhosted hn hop hwaits⟩
      · exact hall hrefl
    · exact hall hrefl
  | closeAll | ambient | enter => cases ha

theorem spares_ambient (h : Desktop) {m : Exchange.Move Note} (hm : m.isAmbient = true)
    (hR : ∀ n, R n h.directory.exchange (h.directory.exchange.move m)) :
    Spares R none h (h.step (.ambient m)) := by
  simp only [step, hm, if_true]
  exact ⟨rfl, fun _ _ => rfl, fun _ _ => rfl, fun _ _ _ _ => rfl, fun _ s _ _ => hR s.instanceId⟩

theorem spares_enter (h : Desktop) (background : Bool) :
    Spares Untouched none h (h.step (.enter background)) :=
  ⟨rfl, fun _ _ => rfl, fun _ _ => rfl, fun _ _ _ _ => rfl, fun _ _ _ _ => ⟨rfl, rfl, rfl⟩⟩

/-- Whatever has been done to a desktop, what is done to one of its windows leaves the session, the
store, the calls and the messages of every other window as they are, unless it waits. Waiting, like
the scheduler on its own, changes nothing of another window but that its calls advance. Whether
calls can go on in the background is nothing of a window. -/
theorem windows_isolated (r : Renderer) (b : Backend) (background : Bool) (acts : List Act) :
    let h := (start r (.ofBackend b background)).run acts
    (∀ a window, a.window? = some window →
      Spares Advances (some window) h (h.step a) ∧
      (a.waits = false → Spares Untouched (some window) h (h.step a))) ∧
    (∀ m : Exchange.Move Note, m.isIdle = true → Spares Advances none h (h.step (.ambient m))) ∧
    ∀ background, Spares Untouched none h (h.step (.enter background)) := by
  intro h
  have hc : h.Sound := (start_sound r b background).run acts
  refine ⟨fun a window ha => hc.step_spares ha, fun m hm => ?_, h.spares_enter⟩
  have hambient : m.isAmbient = true := by
    cases m with
    | proceed | elapse => rfl
    | join | bindApp | submit | execute | answer | retire => cases hm
  exact spares_ambient h hambient fun n => Exchange.advances_idle _ hm n

/-- Settling one window brings the result of the other's call to its inbox, and no further. -/
theorem isolated_while_settling :
    let b := Backend.register .empty "load" fun _ => ⟨0, .ok (.bool true)⟩
    let spec := Spec.untitled.addHook "on_mount" (.ofTool "load")
    let r := Renderer.standard .standard
    let h := (start r (.ofBackend b true)).run
      [.openWindow "a" "notes" spec, .openWindow "b" "notes" spec,
        .use "a" (.render r), .use "b" (.render r)]
    let settled := h.step (.use "a" .settle)
    Spares Advances (some "a") h settled ∧
      (settled.window? "a").map (fun w => (w.session.inFlight, w.store.get? "app:result")) =
        some (0, some (.bool true)) ∧
      (settled.window? "b").map (fun w => (w.session.inFlight, w.inbox.length,
        w.store.get? "app:result")) = some (1, 1, none) := by
  refine ⟨?_, rfl, rfl⟩
  exact ((windows_isolated (.standard .standard) _ true _).1 (.use "a" .settle) "a" rfl).1

end Desktop

end DynamicUi
