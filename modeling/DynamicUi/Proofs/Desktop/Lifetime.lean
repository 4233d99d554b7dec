import DynamicUi.Proofs.Desktop.Coherence

/-! # From opening to closing

From the first window on, sessions and instances agree. A window keeps its app and its instance
until it is closed, the desktop does not clean up after it before, and all its requests are for its
app, unless an invocation names another.
-/

namespace DynamicUi

namespace Desktop

variable {h : Desktop}

theorem start_sound (r : Renderer) (b : Backend) (background : Bool) :
    (start r (.ofBackend b background)).Sound where
  reached := .start b background
  named := nofun
  ordered := .nil
  windows := rfl
  matched := nofun
  bound := nofun
  apart := nofun
  paired := rfl
  released := nofun

theorem Sound.run_session (hc : h.Sound) {window : String} {s : Session}
    (hs : h.session? window = some s) {acts : List Act}
    (ha : ∀ a ∈ acts, a.closes window = false) :
    (h.run acts).Sound ∧ ∃ s', (h.run acts).session? window = some s' ∧ s'.app = s.app ∧
      s'.instanceId = s.instanceId := by
  apply hc.run_induction (P := fun h => ∃ s', h.session? window = some s' ∧ s'.app = s.app ∧
    s'.instanceId = s.instanceId) _ ⟨s, hs, rfl, rfl⟩
  rintro a hmem h h' - hch ⟨s', hs', happ, hid⟩
  cases hch with
  | opened window' app spec hr hnone =>
    have hne : window' ≠ window := by
      rintro rfl
      cases hnone.symm.trans hs'
    exact ⟨s', (KeyMap.get?_insert_of_ne _ hne _).trans hs', happ, hid⟩
  | @used window' w w' hw hw' =>
    obtain ⟨hsession, -, -⟩ := window?_eq hw
    by_cases he : window' = window
    · subst he
      cases hsession.symm.trans hs'
      exact ⟨w'.session, (KeyMap.get?_insert ..).trans (if_pos rfl), hw'.app.trans happ,
        hw'.instanceId.trans hid⟩
    · exact ⟨s', (KeyMap.get?_insert_of_ne _ he _).trans hs', happ, hid⟩
  | @closed window' record hr hcloses =>
    have hne : window' ≠ window := by
      rintro rfl
      rw [ha a hmem] at hcloses
      cases hcloses
    exact ⟨s', (KeyMap.get?_erase_of_ne _ hne).trans hs', happ, hid⟩
  | ambient | entered => exact ⟨s', hs', happ, hid⟩

theorem isDisposed_of_le {x : Exchange Note} {n : Nat} (hn : x.callers.length ≤ n) :
    x.isDisposed n = false := by
  rw [Exchange.isDisposed, List.getElem?_eq_none hn]
  rfl

/-- The instance of an open window is only cleaned up by others than the desktop. -/
theorem Sound.run_undisposed (hc : h.Sound) {n : Nat} {acts : List Act}
    (ha : .ambient (.retire n) ∉ acts)
    (hn : ∀ window record, h.directory.record? window = some record → record.instanceId = n →
      h.directory.exchange.isDisposed n = false) :
    ∀ window record, (h.run acts).directory.record? window = some record →
      record.instanceId = n → (h.run acts).directory.exchange.isDisposed n = false := by
  refine (hc.run_induction (P := fun h => ∀ window record,
    h.directory.record? window = some record → record.instanceId = n →
      h.directory.exchange.isDisposed n = false) ?_ hn).2
  intro a hmem h h' hc hch hp window record hr hid
  cases hch with
  | opened window' app spec hr' hs =>
    have hr := (KeyMap.get?_insert ..).symm.trans hr
    have hd : h.directory.exchange.isDisposed n = false := by
      split at hr
      · cases hr
        exact isDisposed_of_le (Nat.le_of_eq hid)
      · exact hp window record hr hid
    have hx : (h.withNew window' app spec).directory.exchange = _ := Exchange.addCaller_moves ..
    rw [hx, Exchange.isDisposed_move, Exchange.isDisposed_move, hd]
    rfl
  | @used window' w w' hw hw' =>
    obtain ⟨-, -, hx⟩ := window?_eq hw
    exact (hw'.uses.isDisposed n).trans (hx ▸ hp window record hr hid)
  | @closed window' record' hr' hcloses =>
    have hr := (KeyMap.get?_erase ..).symm.trans hr
    obtain ⟨hne, hr⟩ : window' ≠ window ∧ h.directory.record? window = some record := by
      split at hr
      · cases hr
      · next hne => exact ⟨hne, hr⟩
    have hid' : record'.instanceId ≠ n := by
      rintro rfl
      exact hne (hc.apart window' window record' record hr' hr hid.symm)
    refine (Exchange.isDisposed_move h.directory.exchange (.retire record'.instanceId) n).trans ?_
    simp [hp window record hr hid, Exchange.Move.retires, hid']
  | @ambient m he hm =>
    have hretires : m.retires n = false := by
      cases m with
      | retire i =>
        apply decide_eq_false
        rintro rfl
        exact ha (he ▸ hmem)
      | join | bindApp | submit | execute | proceed | answer | elapse => rfl
    refine (Exchange.isDisposed_move h.directory.exchange m n).trans ?_
    rw [hp window record hr hid, hretires]
    rfl
  | entered => exact hp window record hr hid

theorem foldl_release_records (released : List Record) (d : Directory Note NameSet) :
    (released.foldl (fun d record => d.release record.instanceId) d).records = d.records := by
  induction released generalizing d with
  | nil => rfl
  | cons record released ih => exact ih _

/-- What moves and taking messages keep of an exchange, wherever calls can go on, a desktop
keeps. -/
theorem Sound.run_exchange {P : Exchange Note → Prop} (hc : h.Sound)
    (hm : ∀ x (m : Exchange.Move Note), P x → P (x.move m)) (ht : ∀ x n, P x → P (x.takeOldest n))
    (he : ∀ x background, P x → P { x with background })
    (hp : P h.directory.exchange) (acts : List Act) :
    (h.run acts).Sound ∧ P (h.run acts).directory.exchange := by
  apply hc.run_induction (P := fun h => P h.directory.exchange) _ hp
  intro a _ h h' _ hch hp
  cases hch with
  | opened window app spec hr hs =>
    have hx : (h.withNew window app spec).directory.exchange = _ := Exchange.addCaller_moves ..
    exact hx ▸ hm _ _ (hm _ _ hp)
  | used hw hw' =>
    obtain ⟨-, -, hx⟩ := window?_eq hw
    exact Exchange.uses_induction (fun x m _ _ => hm x m) ht hw'.uses (hx ▸ hp)
  | @closed window record hr ha => exact hm _ (.retire record.instanceId) hp
  | ambient => exact hm _ _ hp
  | entered => exact he _ _ hp

theorem Sound.run_issued (hc : h.Sound) {before : List Request}
    (hi : h.directory.exchange.Issued before) (acts : List Act) :
    (h.run acts).Sound ∧ (h.run acts).directory.exchange.Issued before :=
  hc.run_exchange (P := (·.Issued before)) (fun _ m hx => hx.move m)
    (fun _ n hx => hx.takeOldest n) (fun _ _ hx => hx) hi acts

theorem Sound.request_of_sent (hc : h.Sound) {e : Nat × Request}
    (he : h.directory.exchange.Sent e) :
    ∃ c app, h.directory.exchange.call? e.1 = some c ∧
      h.directory.exchange.appOf c.caller = some app ∧
      e.2 = c.request (c.invocation.app?.getD app) := by
  obtain ⟨c', target, ⟨c, hcall, hcaller, hid, hinv, -⟩, ht, he⟩ := he
  have hlt := hc.reached.sound.caller_lt c (List.mem_of_getElem? hcall)
  obtain ⟨app, happ⟩ := hc.named c.caller hlt
  refine ⟨c, app, hcall, happ, ?_⟩
  have htarget : target = c.invocation.app?.getD app := by
    rw [Exchange.target?, ← hcaller, ← hinv, happ] at ht
    cases hown : c.invocation.app? with
    | none =>
      rw [hown] at ht
      exact (Option.some.inj ht).symm
    | some own =>
      rw [hown] at ht
      exact (Option.some.inj ht).symm
  rw [he, htarget, Call.request, Call.request, hid, hinv]

/-- A window that is opened shows the specification for the app asked for, in the instance that is
given back: the one it had, or a new one. -/
theorem Sound.openWindow_ok (hc : h.Sound) {window app : String} {spec : Spec} {h' : Desktop}
    {n : Nat} (ho : h.openWindow window app spec = .ok (h', n)) :
    (∃ s, h'.session? window = some s ∧ s.app = app ∧ s.instanceId = n ∧ s.spec = spec) ∧
      ((h.session? window = none ∧ n = h.directory.stores.length) ∨
        ∃ s, h.session? window = some s ∧ s.app = app ∧ s.instanceId = n) ∧
      h.step (.openWindow window app spec) = h' := by
  have hstep : h.step (.openWindow window app spec) = h' := by simp only [Desktop.step, ho]
  cases hr : h.directory.record? window with
  | none =>
    have hs := hc.session?_eq_none.mpr hr
    rw [openWindow_new hr hs] at ho
    cases ho
    have hnew : (h.withNew window app spec).session? window = some (.start app _ spec) :=
      (KeyMap.get?_insert ..).trans (if_pos rfl)
    exact ⟨⟨_, hnew, rfl, rfl, rfl⟩, .inl ⟨hs, hc.paired.symm⟩, hstep⟩
  | some record =>
    obtain ⟨s, hs, happ, hid⟩ := hc.session?_of_record? hr
    by_cases ha : record.app = app
    · rw [openWindow_same hr hs ha] at ho
      cases ho
      have hshown : KeyMap.get? (KeyMap.insert h.sessions window { s with spec }) window =
          some { s with spec } := (KeyMap.get?_insert ..).trans (if_pos rfl)
      exact ⟨⟨_, hshown, happ.trans ha, hid, rfl⟩, .inr ⟨s, hs, happ.trans ha, hid⟩, hstep⟩
    · rw [openWindow_other hr ha] at ho
      cases ho

theorem Sound.openWindow_error (hc : h.Sound) {window app : String} {spec : Spec} {e : WindowError}
    (he : h.openWindow window app spec = .error e) :
    (∃ s, h.session? window = some s ∧ s.app ≠ app ∧ e = .appIdMismatch window s.app app) ∧
      h.step (.openWindow window app spec) = h := by
  constructor
  · cases hr : h.directory.record? window with
    | none =>
      rw [openWindow_new hr (hc.session?_eq_none.mpr hr)] at he
      cases he
    | some record =>
      obtain ⟨s, hs, happ, -⟩ := hc.session?_of_record? hr
      by_cases ha : record.app = app
      · rw [openWindow_same hr hs ha] at he
        cases he
      · rw [openWindow_other hr ha] at he
        cases he
        exact ⟨s, hs, happ ▸ ha, by rw [happ]⟩
  · simp only [Desktop.step, he]

theorem Sound.closeWindow_error (hc : h.Sound) {window : String} {e : WindowError}
    (he : h.closeWindow window = .error e) :
    h.session? window = none ∧ e = .unknownWindow window ∧
      h.directory.remove window = (h.directory, false) ∧
      KeyMap.erase h.sessions window = h.sessions ∧ h.step (.closeWindow window) = h := by
  cases hr : h.directory.record? window with
  | none =>
    have hs := hc.session?_eq_none.mpr hr
    have herase := KeyMap.erase_of_get?_eq_none hs
    rw [closeWindow_unknown hr hs] at he
    cases he
    refine ⟨hs, rfl, remove_unknown hr, herase, ?_⟩
    simp only [Desktop.step, closeWindow_unknown hr hs]
  | some record =>
    rw [closeWindow_open hr] at he
    cases he

/-- However windows are opened, closed and used, sessions and instances agree. Only others clean up
the caller of an open window. Each request is that of a call of its own, for the app its invocation
names or else its window was opened for. A window that is opened has a session of the app asked for
and the instance given back, the one it had or a new one. It keeps both until it is closed, opening
it again for the app gives the same instance, what fails changes nothing, and closing all windows
leaves none. -/
theorem run_coherent (r : Renderer) (b : Backend) (background : Bool) (acts : List Act) :
    let h := (start r (.ofBackend b background)).run acts
    h.Coherent ∧
    (∀ window record, h.directory.record? window = some record →
      .ambient (.retire record.instanceId) ∉ acts →
      h.directory.exchange.isDisposed record.instanceId = false) ∧
    (∃ log : List (Nat × Request),
      h.directory.exchange.backend.received = b.received ++ log.map Prod.snd ∧
      (log.map Prod.fst).Nodup ∧
      ∀ e ∈ log, ∃ c app, h.directory.exchange.call? e.1 = some c ∧
        h.directory.exchange.appOf c.caller = some app ∧
        e.2 = c.request (c.invocation.app?.getD app)) ∧
    (∀ window s, h.session? window = some s →
      ∀ later, (∀ a ∈ later, a.closes window = false) →
      ∃ s', (h.run later).session? window = some s' ∧ s'.app = s.app ∧
        s'.instanceId = s.instanceId ∧
        ∀ spec, ∃ h', (h.run later).openWindow window s.app spec = .ok (h', s.instanceId)) ∧
    (∀ window app spec h' n, h.openWindow window app spec = .ok (h', n) →
      (∃ s, h'.session? window = some s ∧ s.app = app ∧ s.instanceId = n ∧ s.spec = spec) ∧
      ((h.session? window = none ∧ n = h.directory.stores.length) ∨
        ∃ s, h.session? window = some s ∧ s.app = app ∧ s.instanceId = n) ∧
      h.step (.openWindow window app spec) = h') ∧
    (∀ window app spec e, h.openWindow window app spec = .error e →
      (∃ s, h.session? window = some s ∧ s.app ≠ app ∧ e = .appIdMismatch window s.app app) ∧
      h.step (.openWindow window app spec) = h) ∧
    (∀ window e, h.closeWindow window = .error e →
      h.session? window = none ∧ e = .unknownWindow window ∧
      h.directory.remove window = (h.directory, false) ∧
      KeyMap.erase h.sessions window = h.sessions ∧ h.step (.closeWindow window) = h) ∧
    h.closeAll.2 = h.sessions.length ∧ h.closeAll.1.sessions = [] ∧
      h.closeAll.1.directory.records = [] := by
  intro h
  have hstart := start_sound r b background
  obtain ⟨hc, log, hreceived, hnodup, hsent⟩ :=
    hstart.run_issued (Exchange.ofBackend_issued b background) acts
  refine ⟨hc.toCoherent, ?_, ⟨log, hreceived, hnodup, fun e he => hc.request_of_sent (hsent e he)⟩,
    ?_, fun _ _ _ _ _ => hc.openWindow_ok, fun _ _ _ _ => hc.openWindow_error,
    fun _ _ => hc.closeWindow_error, ?_, rfl, ?_⟩
  · intro window record hr hacts
    exact hstart.run_undisposed hacts nofun window record hr rfl
  · intro window s hs later hlater
    obtain ⟨hc', s', hs', happ, hid⟩ := hc.run_session hs hlater
    refine ⟨s', hs', happ, hid, fun spec => ?_⟩
    have hr := hc'.matched window s' hs'
    rw [openWindow_same hr hs' happ, hid]
    exact ⟨_, rfl⟩
  · have hl := congrArg List.length hc.windows
    simp only [KeyMap.keys, List.length_map] at hl
    exact hl.symm
  · exact foldl_release_records ..

/-- Opened a second time, a window has its instance still; once it was closed, it is opened for
another app in a new one. -/
theorem opened_twice_and_closed :
    let spec := Spec.untitled.addHook "on_mount" (.ofTool "load")
    let h := start (.standard .standard) (.ofBackend .empty true)
    let opened := h.run [.openWindow "a" "notes" .untitled]
    let closed := opened.run [.openWindow "a" "notes" spec, .closeWindow "a"]
    (∃ s, (opened.step (.openWindow "a" "notes" spec)).session? "a" = some s ∧
      s.app = "notes" ∧ s.instanceId = 0 ∧ s.spec = spec) ∧
    closed.session? "a" = none ∧
    ∃ s, (closed.step (.openWindow "a" "todo" spec)).session? "a" = some s ∧
      s.app = "todo" ∧ s.instanceId = 1 ∧ s.spec = spec := by
  intro spec h opened closed
  have hopened := run_coherent (.standard .standard) .empty true [.openWindow "a" "notes" .untitled]
  have hclosed := run_coherent (.standard .standard) .empty true
    [.openWindow "a" "notes" .untitled, .openWindow "a" "notes" spec, .closeWindow "a"]
  obtain ⟨-, -, -, -, hagain, -⟩ := hopened
  obtain ⟨-, -, -, -, hafresh, -⟩ := hclosed
  exact ⟨(hagain "a" "notes" spec _ 0 rfl).1, rfl, (hafresh "a" "todo" spec _ 1 rfl).1⟩

end Desktop

end DynamicUi
