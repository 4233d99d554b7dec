import DynamicUi.Proofs.Desktop.Run

/-! # Sessions and instances agree

The windows with a session are those with an instance, and the session's is the one on record. Its
app is the one its caller is bound to. Instances are never shared, and one that no open window owns
is disposed.
-/

namespace DynamicUi

open Relation

namespace Desktop

variable {h h' : Desktop}

structure Coherent (h : Desktop) : Prop where
  ordered : KeyMap.Ordered h.sessions
  /-- The windows with a session are the windows on record. -/
  windows : KeyMap.keys h.sessions = KeyMap.keys h.directory.records
  /-- A session has the app and the instance on record. -/
  matched : ∀ window s, h.session? window = some s →
    h.directory.record? window = some ⟨s.app, s.instanceId⟩
  /-- The caller of an instance is bound to the app on record. -/
  bound : ∀ window record, h.directory.record? window = some record →
    h.directory.exchange.appOf record.instanceId = some record.app
  /-- No two windows share an instance. -/
  apart : ∀ window window' record record', h.directory.record? window = some record →
    h.directory.record? window' = some record' → record.instanceId = record'.instanceId →
    window = window'
  /-- Each instance has a store and a caller. -/
  paired : h.directory.stores.length = h.directory.exchange.callers.length
  /-- What no window owns any more is disposed, and nobody listens to its store. -/
  released : ∀ n store, h.directory.stores[n]? = some store →
    (∀ window record, h.directory.record? window = some record → record.instanceId ≠ n) →
    h.directory.exchange.isDisposed n = true ∧ store.listenerCount = 0

structure Sound (h : Desktop) : Prop extends Coherent h where
  reached : h.directory.exchange.Reached
  named : ∀ n < h.directory.exchange.callers.length, ∃ app, h.directory.exchange.appOf n = some app

theorem Coherent.present (hc : h.Coherent) {window : String} {record : Record}
    (hr : h.directory.record? window = some record) :
    record.instanceId < h.directory.stores.length := by
  obtain ⟨d, hd, -⟩ := Option.bind_eq_some_iff.mp (hc.bound window record hr)
  rw [hc.paired]
  exact (List.getElem?_eq_some_iff.mp hd).1

theorem Coherent.session?_eq_none (hc : h.Coherent) {window : String} :
    h.session? window = none ↔ h.directory.record? window = none := by
  rw [session?, Directory.record?, KeyMap.get?_eq_none_iff, KeyMap.get?_eq_none_iff, hc.windows]

theorem Coherent.session?_of_record? (hc : h.Coherent) {window : String} {record : Record}
    (hr : h.directory.record? window = some record) :
    ∃ s, h.session? window = some s ∧ s.app = record.app ∧ s.instanceId = record.instanceId := by
  cases hs : h.session? window with
  | none =>
    rw [hc.session?_eq_none.mp hs] at hr
    cases hr
  | some s =>
    cases (hc.matched window s hs).symm.trans hr
    exact ⟨s, rfl, rfl, rfl⟩

theorem Coherent.window?_of_session? (hc : h.Coherent) {window : String} {s : Session}
    (hs : h.session? window = some s) :
    ∃ store, h.directory.stores[s.instanceId]? = some store ∧
      h.window? window = some ⟨s, store, h.directory.exchange⟩ := by
  have hn : s.instanceId < h.directory.stores.length := hc.present (hc.matched window s hs)
  have hstore := List.getElem?_eq_getElem hn
  refine ⟨_, hstore, ?_⟩
  simp only [window?, hs, Option.bind_eq_bind, Option.bind_some, hstore]
  rfl

theorem window?_eq {window : String} {w : Window} (hw : h.window? window = some w) :
    h.session? window = some w.session ∧
      h.directory.stores[w.session.instanceId]? = some w.store ∧
      w.exchange = h.directory.exchange := by
  obtain ⟨s, hs, hw⟩ := Option.bind_eq_some_iff.mp hw
  obtain ⟨store, hstore, hw⟩ := Option.bind_eq_some_iff.mp hw
  cases hw
  exact ⟨hs, hstore, rfl⟩

/-! ## Each change keeps it so -/

theorem Sound.opened (hc : h.Sound) {window : String} (hr : h.directory.record? window = none)
    (app : String) (spec : Spec) : (h.withNew window app spec).Sound := by
  let x := h.directory.exchange
  let m : Exchange.Move Note := .join h.directory.timeout
  let m' : Exchange.Move Note := .bindApp x.callers.length app
  have hx : (h.withNew window app spec).directory.exchange = (x.move m).move m' :=
    Exchange.addCaller_moves ..
  have hrecord : ∀ window', (h.withNew window app spec).directory.record? window' =
      if window = window' then some ⟨app, x.callers.length⟩ else h.directory.record? window' :=
    fun window' => KeyMap.get?_insert ..
  have hlt : ∀ window' record, h.directory.record? window' = some record →
      record.instanceId < x.callers.length :=
    fun window' record hr => hc.paired ▸ hc.present hr
  have hnew : (h.withNew window app spec).directory.exchange.appOf x.callers.length = some app := by
    show (x.addCaller _).1.appOf x.callers.length = _
    simp only [Exchange.appOf, Exchange.addCaller, List.getElem?_concat_length, Option.bind_some]
  have hkept : ∀ n app', x.appOf n = some app' →
      (h.withNew window app spec).directory.exchange.appOf n = some app' :=
    fun n app' ha => hx ▸ Exchange.appOf_move m' (Exchange.appOf_move m ha)
  constructor
  case reached => exact hx ▸ (hc.reached.move m).move m'
  case named =>
    intro n hn
    have hle : n < (x.callers ++ [_]).length := hn
    rw [List.length_append, List.length_singleton] at hle
    rcases Nat.lt_succ_iff_lt_or_eq.mp hle with hlt | rfl
    · obtain ⟨app', ha⟩ := hc.named n hlt
      exact ⟨app', hkept n app' ha⟩
    · exact ⟨app, hnew⟩
  constructor
  case ordered => exact hc.ordered.insert window _
  case windows => exact KeyMap.keys_insert_congr hc.windows window _ _
  case matched =>
    intro window' s hs
    have hs : (if window = window' then _ else h.session? window') = some s :=
      (KeyMap.get?_insert ..).symm.trans hs
    rw [hrecord]
    split at hs
    · next he =>
      cases hs
      exact if_pos he
    · next he =>
      rw [if_neg he]
      exact hc.matched window' s hs
  case bound =>
    intro window' record hr'
    rw [hrecord] at hr'
    split at hr'
    · cases hr'
      exact hnew
    · exact hkept _ _ (hc.bound window' record hr')
  case apart =>
    intro window₁ window₂ record₁ record₂ h₁ h₂ he
    rw [hrecord] at h₁ h₂
    split at h₁ <;> split at h₂
    · next e₁ e₂ => exact e₁.symm.trans e₂
    · cases h₁
      exact absurd he.symm (Nat.ne_of_lt (hlt window₂ record₂ h₂))
    · cases h₂
      exact absurd he (Nat.ne_of_lt (hlt window₁ record₁ h₁))
    · exact hc.apart window₁ window₂ record₁ record₂ h₁ h₂ he
  case paired =>
    have hp := hc.paired
    simpa [withNew, Directory.create, Exchange.addCaller] using hp
  case released =>
    intro n store hn hunowned
    have hne : x.callers.length ≠ n := hunowned window ⟨app, _⟩ (by rw [hrecord, if_pos rfl])
    have hn : (h.directory.stores ++ [Store.empty])[n]? = some store := hn
    have hlt : n < h.directory.stores.length := by
      have hlt := (List.getElem?_eq_some_iff.mp hn).1
      have hp : h.directory.stores.length = x.callers.length := hc.paired
      rw [List.length_append, List.length_singleton] at hlt
      omega
    rw [List.getElem?_append_left hlt] at hn
    have hunowned' : ∀ window' record, h.directory.record? window' = some record →
        record.instanceId ≠ n := by
      intro window' record hr'
      have hne : window ≠ window' := by
        rintro rfl
        cases hr.symm.trans hr'
      exact hunowned window' record (by rw [hrecord, if_neg hne, hr'])
    obtain ⟨hd, hl⟩ := hc.released n store hn hunowned'
    rw [hx, Exchange.isDisposed_move, Exchange.isDisposed_move]
    simp [x, hd, hl]

theorem Sound.used (hc : h.Sound) {window : String} {w w' : Window} (hw : h.window? window = some w)
    (h' : w.Continues w') : (h.putWindow window w').Sound := by
  obtain ⟨hs, hstore, hx⟩ := window?_eq hw
  have hmatched := hc.matched window _ hs
  have huses : Exchange.Uses w.session.instanceId h.directory.exchange w'.exchange := hx ▸ h'.uses
  have hkey : window ∈ KeyMap.keys h.sessions := KeyMap.mem_keys_iff.mpr ⟨_, hs⟩
  constructor
  case reached => exact huses.reached hc.reached
  case named =>
    intro n hn
    obtain ⟨app, ha⟩ := hc.named n (huses.length_callers ▸ hn)
    exact ⟨app, huses.appOf ha⟩
  constructor
  case ordered => exact hc.ordered.insert window _
  case windows => exact (hc.ordered.keys_insert hkey _).trans hc.windows
  case matched =>
    intro window' s hs'
    simp only [session?, putWindow, KeyMap.get?_insert] at hs'
    split at hs'
    · next he =>
      cases hs'
      rw [h'.app, h'.instanceId]
      exact he ▸ hmatched
    · exact hc.matched window' s hs'
  case bound => exact fun window' record hr => huses.appOf (hc.bound window' record hr)
  case apart => exact hc.apart
  case paired =>
    exact (List.length_modify ..).trans (hc.paired.trans huses.length_callers.symm)
  case released =>
    intro n store hn hunowned
    have hne : w'.session.instanceId ≠ n := h'.instanceId ▸ hunowned window _ hmatched
    have hn' : h.directory.stores[n]? = some store := by
      simpa [putWindow, Directory.onStore, Directory.onExchange, List.getElem?_modify, hne] using hn
    obtain ⟨hd, hl⟩ := hc.released n store hn' hunowned
    exact ⟨(huses.isDisposed n).trans hd, hl⟩

theorem Sound.named_move (hc : h.Sound) {m : Exchange.Move Note} (hm : m.joins = false) :
    ∀ n < (h.directory.exchange.move m).callers.length,
      ∃ app, (h.directory.exchange.move m).appOf n = some app := by
  intro n hn
  obtain ⟨app, ha⟩ := hc.named n (Exchange.length_callers_move hm ▸ hn)
  exact ⟨app, Exchange.appOf_move m ha⟩

theorem Sound.closed (hc : h.Sound) {window : String} {record : Record}
    (hr : h.directory.record? window = some record) :
    (h.without window record.instanceId).Sound := by
  let x := h.directory.exchange
  let m : Exchange.Move Note := .retire record.instanceId
  have hrecord : ∀ window', (h.without window record.instanceId).directory.record? window' =
      if window = window' then none else h.directory.record? window' :=
    fun window' => KeyMap.get?_erase ..
  constructor
  case reached => exact hc.reached.move m
  case named => exact hc.named_move (m := m) rfl
  constructor
  case ordered => exact hc.ordered.erase window
  case windows =>
    have hk := hc.windows
    show KeyMap.keys (KeyMap.erase _ _) = KeyMap.keys (KeyMap.erase _ _)
    rw [KeyMap.keys_erase, KeyMap.keys_erase, hk]
  case matched =>
    intro window' s hs
    have hs : (if window = window' then none else h.session? window') = some s :=
      (KeyMap.get?_erase ..).symm.trans hs
    rw [hrecord]
    split at hs
    · cases hs
    · next he =>
      rw [if_neg he]
      exact hc.matched window' s hs
  case bound =>
    intro window' record' hr'
    rw [hrecord] at hr'
    split at hr'
    · cases hr'
    · exact Exchange.appOf_move m (hc.bound window' record' hr')
  case apart =>
    intro window₁ window₂ record₁ record₂ h₁ h₂ he
    rw [hrecord] at h₁ h₂
    split at h₁ <;> split at h₂
    · cases h₁
    · cases h₁
    · cases h₂
    · exact hc.apart window₁ window₂ record₁ record₂ h₁ h₂ he
  case paired =>
    exact (List.length_modify ..).trans
      (hc.paired.trans (Exchange.length_callers_move (m := m) rfl).symm)
  case released =>
    intro n store hn hunowned
    have hdisposed : (h.without window record.instanceId).directory.exchange.isDisposed n = _ :=
      Exchange.isDisposed_move x m n
    have hn : (h.directory.stores.modify record.instanceId Store.clearListeners)[n]? = some store :=
      hn
    rw [List.getElem?_modify] at hn
    obtain ⟨store', hstore', rfl⟩ := Option.map_eq_some_iff.mp hn
    by_cases he : record.instanceId = n
    · have hlt : n < x.callers.length := hc.paired ▸ he ▸ hc.present hr
      rw [hdisposed]
      simp [m, Exchange.Move.retires, he, hlt, Store.clearListeners, Store.listenerCount]
    · have hunowned' : ∀ window' record', h.directory.record? window' = some record' →
          record'.instanceId ≠ n := by
        intro window' record' hr'
        by_cases hw : window = window'
        · subst hw
          cases hr.symm.trans hr'
          exact he
        · exact hunowned window' record' (by rw [hrecord, if_neg hw, hr'])
      obtain ⟨hd, hl⟩ := hc.released n store' hstore' hunowned'
      rw [hdisposed]
      simp [x, hd, hl, he]

theorem Sound.ambient (hc : h.Sound) {m : Exchange.Move Note} (hm : m.isAmbient = true) :
    (h.onExchange (·.move m)).Sound := by
  have hjoins : m.joins = false := by
    cases m with
    | join => cases hm
    | bindApp | submit | execute | proceed | answer | elapse | retire => rfl
  constructor
  case reached => exact hc.reached.move m
  case named => exact hc.named_move hjoins
  constructor
  case ordered => exact hc.ordered
  case windows => exact hc.windows
  case matched => exact hc.matched
  case bound => exact fun window record hr => Exchange.appOf_move m (hc.bound window record hr)
  case apart => exact hc.apart
  case paired => exact hc.paired.trans (Exchange.length_callers_move hjoins).symm
  case released =>
    intro n store hn hunowned
    obtain ⟨hd, hl⟩ := hc.released n store hn hunowned
    refine ⟨?_, hl⟩
    show (h.directory.exchange.move m).isDisposed n = true
    rw [Exchange.isDisposed_move, hd, Bool.true_or]

theorem Sound.entered (hc : h.Sound) (background : Bool) :
    (h.onExchange fun x => { x with background }).Sound :=
  { hc with reached := hc.reached.enter background }

/-! ## What opening and closing come to -/

section

variable {window app : String} {spec : Spec} {record : Record} {s : Session}

theorem openWindow_new (hr : h.directory.record? window = none) (hs : h.session? window = none) :
    h.openWindow window app spec =
      .ok (h.withNew window app spec, h.directory.exchange.callers.length) := by
  simp only [openWindow, Directory.acquire, hr, hs]
  rfl

theorem openWindow_same (hr : h.directory.record? window = some record)
    (hs : h.session? window = some s) (ha : record.app = app) :
    h.openWindow window app spec =
      .ok ({ h with sessions := KeyMap.insert h.sessions window { s with spec } },
        record.instanceId) := by
  simp only [openWindow, Directory.acquire, hr, ha, if_true, hs]
  rfl

theorem openWindow_other (hr : h.directory.record? window = some record) (ha : record.app ≠ app) :
    h.openWindow window app spec = .error (.appIdMismatch window record.app app) := by
  simp only [openWindow, Directory.acquire, hr, ha, if_false]
  rfl

theorem closeWindow_open (hr : h.directory.record? window = some record) :
    h.closeWindow window = .ok (h.without window record.instanceId) := by
  simp only [closeWindow, Directory.remove, hr, Bool.or_true, if_true]
  rfl

theorem remove_unknown (hr : h.directory.record? window = none) :
    h.directory.remove window = (h.directory, false) := by
  simp only [Directory.remove, hr]

theorem closeWindow_unknown (hr : h.directory.record? window = none)
    (hs : h.session? window = none) : h.closeWindow window = .error (.unknownWindow window) := by
  have hcontains : KeyMap.contains h.sessions window = false := by
    rw [KeyMap.contains, show KeyMap.get? h.sessions window = none from hs]
    rfl
  simp only [closeWindow, remove_unknown hr, hcontains, Bool.or_false, Bool.false_eq_true, if_false]

theorem putWindow_display {store : Store NameSet}
    (hstore : h.directory.stores[s.instanceId]? = some store) :
    h.putWindow window ⟨{ s with spec }, store, h.directory.exchange⟩ =
      { h with sessions := KeyMap.insert h.sessions window { s with spec } } := by
  have hstores : h.directory.stores.modify s.instanceId (fun _ => store) = h.directory.stores := by
    apply List.ext_getElem?
    intro n
    rw [List.getElem?_modify]
    by_cases hn : s.instanceId = n
    · subst hn
      simp [hstore]
    · simp [hn]
  simp only [putWindow, Directory.onStore, Directory.onExchange, hstores]

end

theorem closeAll_changes (hk : KeyMap.keys h.sessions = KeyMap.keys h.directory.records)
    (ho : KeyMap.Ordered h.directory.records) :
    ReflTransGen (Change .closeAll) h h.closeAll.1 := by
  generalize hrecords : h.directory.records = records at hk ho
  induction records generalizing h with
  | nil =>
    have hsessions : h.sessions = [] := List.map_eq_nil_iff.mp hk
    have he : h.closeAll.1 = h := by
      obtain ⟨r, ⟨x, stores, records', timeout⟩, sessions⟩ := h
      obtain rfl : records' = [] := hrecords
      obtain rfl : sessions = [] := hsessions
      rfl
    rw [he]
  | cons e records ih =>
    obtain ⟨window, record⟩ := e
    have hr : h.directory.record? window = some record := by
      rw [Directory.record?, hrecords, KeyMap.get?, if_pos rfl]
    have hfirst : Change .closeAll h (h.without window record.instanceId) := .closed hr rfl
    have hrest : (h.without window record.instanceId).directory.records = records := by
      show KeyMap.erase h.directory.records window = records
      rw [hrecords]
      exact ho.erase_cons
    have hkeys : KeyMap.keys (h.without window record.instanceId).sessions =
        KeyMap.keys records := by
      show KeyMap.keys (KeyMap.erase h.sessions window) = _
      rw [KeyMap.keys_erase, hk, ← KeyMap.keys_erase]
      exact congrArg KeyMap.keys ho.erase_cons
    have hall : (h.without window record.instanceId).closeAll.1 = h.closeAll.1 := by
      simp only [closeAll, Directory.clear, hrest, hrecords]
      rfl
    exact .head hfirst (hall ▸ ih hrest hkeys (List.pairwise_cons.mp ho).2)

theorem Sound.step_changes (hc : h.Sound) (a : Act) : ReflTransGen (Change a) h (h.step a) := by
  cases a with
  | openWindow window app spec =>
    simp only [step]
    cases hr : h.directory.record? window with
    | none =>
      have hs := hc.session?_eq_none.mpr hr
      rw [openWindow_new hr hs]
      exact .single (.opened window app spec hr hs)
    | some record =>
      by_cases ha : record.app = app
      · obtain ⟨s, hs, -, -⟩ := hc.session?_of_record? hr
        obtain ⟨store, hstore, hw⟩ := hc.window?_of_session? hs
        rw [openWindow_same hr hs ha]
        refine .single ?_
        rw [← putWindow_display hstore]
        exact .used hw ⟨rfl, rfl, .refl⟩
      · rw [openWindow_other hr ha]
  | closeWindow window =>
    simp only [step]
    cases hr : h.directory.record? window with
    | none =>
      rw [closeWindow_unknown hr (hc.session?_eq_none.mpr hr)]
    | some record =>
      rw [closeWindow_open hr]
      exact .single (.closed hr (by simp [Act.closes]))
  | closeAll =>
    have ho := KeyMap.ordered_iff_keys.mp hc.ordered
    rw [hc.windows] at ho
    exact closeAll_changes hc.windows (KeyMap.ordered_iff_keys.mpr ho)
  | use window op =>
    simp only [step]
    split
    · next w hw =>
      split
      · next hop =>
        obtain ⟨hs, -, hx⟩ := window?_eq hw
        have hpresent := hc.present (hc.matched window _ hs)
        have hhosted : w.Hosted := ⟨hx ▸ hc.reached, hx ▸ hc.paired ▸ hpresent⟩
        exact .single (.used hw (Window.continues_step hhosted hop))
      · exact .refl
    · exact .refl
  | ambient m =>
    simp only [step]
    split
    · next hm => exact .single (.ambient rfl hm)
    · exact .refl
  | enter background => exact .single (.entered rfl)

theorem Sound.change {a : Act} (hc : h.Sound) (hch : Change a h h') : h'.Sound := by
  cases hch with
  | opened window app spec hr hs => exact hc.opened hr app spec
  | used hw hw' => exact hc.used hw hw'
  | closed hr ha => exact hc.closed hr
  | ambient ha hm => exact hc.ambient hm
  | @entered background => exact hc.entered background

/-- What every change of a sound desktop keeps, every act keeps. -/
theorem Sound.step_induction {P : Desktop → Prop} (hc : h.Sound) (a : Act)
    (hP : ∀ h h', h.Sound → Change a h h' → P h → P h') (hp : P h) :
    (h.step a).Sound ∧ P (h.step a) := by
  have hall : ∀ h', ReflTransGen (Change a) h h' → h'.Sound ∧ P h' := by
    intro h' hh
    induction hh with
    | refl => exact ⟨hc, hp⟩
    | tail _ hch ih => exact ⟨ih.1.change hch, hP _ _ ih.1 hch ih.2⟩
  exact hall _ (hc.step_changes a)

theorem Sound.step (hc : h.Sound) (a : Act) : (h.step a).Sound :=
  (hc.step_induction (P := fun _ => True) a (fun _ _ _ _ _ => trivial) trivial).1

theorem Sound.run_induction {P : Desktop → Prop} (hc : h.Sound) {acts : List Act}
    (hP : ∀ a ∈ acts, ∀ h h', h.Sound → Change a h h' → P h → P h') (hp : P h) :
    (h.run acts).Sound ∧ P (h.run acts) := by
  induction acts generalizing h with
  | nil => exact ⟨hc, hp⟩
  | cons a acts ih =>
    obtain ⟨hstep, hrun⟩ := List.forall_mem_cons.mp hP
    obtain ⟨hc', hp'⟩ := hc.step_induction a hstep hp
    exact ih hc' hrun hp'

theorem Sound.run (hc : h.Sound) (acts : List Act) : (h.run acts).Sound :=
  (hc.run_induction (P := fun _ => True) (fun _ _ _ _ _ _ _ => trivial) trivial).1

end Desktop

end DynamicUi
