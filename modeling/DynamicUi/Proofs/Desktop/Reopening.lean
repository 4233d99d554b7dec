import DynamicUi.Proofs.Desktop.Isolation
import DynamicUi.Proofs.Window.ExactlyOnce

/-! # A window that is opened again starts afresh

Closing a window disposes its instance, and a window that is opened again gets another one. So the
calls from before the close go on under a caller that no session has any more: their messages stay
where nobody collects them, and those that were open come to nothing.
-/

namespace DynamicUi

open Exchange (Untouched Advances)

namespace Window

variable {w : Window} {made : List Binding} {applied : List (Settlement Note)}

theorem Balanced.advances (hb : w.Balanced made applied) {y : Exchange Note} (hy : y.Reached)
    (h : Advances w.session.instanceId w.exchange y) :
    Balanced { w with exchange := y } made applied where
  sound := hy.sound
  scheduled := hy.scheduled
  present := by
    obtain ⟨pending, hd⟩ := h.caller _ (List.getElem?_eq_getElem hb.present)
    exact (List.getElem?_eq_some_iff.mp hd).1
  notes := h.notesOf.trans hb.notes
  delivered := h.delivered hb.delivered
  count := hb.count

theorem Balanced.step (hb : w.Balanced made applied) (op : Op) :
    (w.step op).Balanced (made ++ w.makes op) (applied ++ w.applies op) :=
  Ledger.Balanced.step (l := ⟨w, made, applied, none⟩) hb op

/-- A session that has to do with no calls but its own, which have all been made since there were so
many on the exchange. -/
structure Afresh (w : Window) (applied : List (Settlement Note)) (earlier : Nat) : Prop where
  calls : ∀ k c, w.exchange.call? k = some c → c.caller = w.session.instanceId → earlier ≤ k
  /-- What it has applied and what it still finds are the messages of its calls. -/
  messages : (applied ++ w.inbox).Perm (w.exchange.messagesOf w.session.instanceId)
  inFlight : w.session.inFlight =
    (w.exchange.openOf w.session.instanceId).length + w.inbox.length
  outputs : ∀ op, op = .pump ∨ op = .settle ∨ op = .receive → (w.step op).store =
    (w.store.setAll ((w.applies op).filterMap Settlement.output?)).1
  /-- The calls from before go on apart from it. -/
  apart : ∀ k < earlier, ∀ m : Exchange.Move Note, m = .proceed k ∨ (∃ o, m = .answer k o) →
    Untouched w.session.instanceId w.exchange (w.exchange.move m)

end Window

namespace Desktop

variable {h h' : Desktop} {window : String}

def applies (h : Desktop) (window : String) : Act → List (Settlement Note)
  | .use window' op =>
    match h.window? window with
    | some w => if window' = window then w.applies op else []
    | none => []
  | _ => []

def applied (h : Desktop) (window : String) : List Act → List (Settlement Note)
  | [] => []
  | a :: acts => h.applies window a ++ (h.step a).applied window acts

/-! ## The session of an open window -/

theorem Spares.window? {R : Nat → Exchange Note → Exchange Note → Prop} {but : Option String}
    (hs : Spares R but h h') (hne : but ≠ some window) {w : Window}
    (hw : h.window? window = some w) :
    h'.window? window = some { w with exchange := h'.directory.exchange } ∧
      R w.session.instanceId w.exchange h'.directory.exchange := by
  obtain ⟨hsession, hstore, hx⟩ := window?_eq hw
  have hsession' := (hs.session window hne).trans hsession
  have hstore' := (hs.store window _ hne hsession).trans hstore
  refine ⟨?_, hx ▸ hs.exchange window _ hne hsession⟩
  simp only [Desktop.window?, hsession', Option.bind_eq_bind, Option.bind_some, hstore']
  rfl

theorem window?_putWindow {w : Window} (hn : w.session.instanceId < h.directory.stores.length) :
    (h.putWindow window w).window? window = some w := by
  have hs : (h.putWindow window w).session? window = some w.session :=
    (KeyMap.get?_insert ..).trans (if_pos rfl)
  have hstore : (h.putWindow window w).directory.stores[w.session.instanceId]? = some w.store := by
    refine (List.getElem?_modify ..).trans ?_
    rw [List.getElem?_eq_getElem hn]
    simp
  simp only [Desktop.window?, hs, Option.bind_eq_bind, Option.bind_some, hstore]
  rfl

theorem Sound.step_apart (hc : h.Sound) {w : Window} (hw : h.window? window = some w) {a : Act}
    (ha : a.closes window = false) (hne : a.window? ≠ some window) :
    (h.step a).window? window = some { w with exchange := (h.step a).directory.exchange } := by
  cases hto : a.window? with
  | some window' => exact ((hc.step_spares hto).1.window? (hto ▸ hne) hw).1
  | none =>
    cases a with
    | ambient m =>
      cases hm : m.isAmbient with
      | true =>
        have hs := spares_ambient (R := fun _ _ _ => True) h hm fun _ => trivial
        exact (hs.window? nofun hw).1
      | false =>
        obtain ⟨-, -, hx⟩ := window?_eq hw
        simp only [Desktop.step, hm, Bool.false_eq_true, if_false, ← hx]
        exact hw
    | enter background => exact ((h.spares_enter background).window? nofun hw).1
    | closeAll => cases ha
    | openWindow | closeWindow | use => cases hto

def Balances (h : Desktop) (window : String) (n : Nat) (applied : List (Settlement Note)) : Prop :=
  ∃ w made, h.window? window = some w ∧ w.session.instanceId = n ∧ w.Balanced made applied

section

variable {w : Window} {made : List Binding} {taken : List (Settlement Note)}

theorem Sound.balances_other (hc : h.Sound) (hw : h.window? window = some w)
    (hb : w.Balanced made taken) {a : Act} {window' : String} (ha : a.window? = some window')
    (hne : window' ≠ window) : (h.step a).Balances window w.session.instanceId taken := by
  obtain ⟨hw', hadv⟩ := (hc.step_spares ha).1.window? (mt Option.some.inj hne) hw
  exact ⟨_, made, hw', rfl, hb.advances (hc.step a).reached hadv⟩

theorem Sound.balances_ambient (hc : h.Sound) (hw : h.window? window = some w)
    (hb : w.Balanced made taken) (m : Exchange.Move Note) :
    (h.step (.ambient m)).Balances window w.session.instanceId taken := by
  obtain ⟨-, -, hx⟩ := window?_eq hw
  have hw' := hc.step_apart hw (a := .ambient m) rfl (Option.some_ne_none window).symm
  simp only [Desktop.step] at hw' ⊢
  split at hw'
  · next hm =>
    have hsubmits : m.submitsFor w.session.instanceId = false := by
      cases m with
      | join | submit => cases hm
      | bindApp | execute | proceed | answer | elapse | retire => rfl
    have hb' := hb.move hsubmits
    rw [hx] at hb'
    rw [if_pos hm]
    exact ⟨_, made, hw', rfl, hb'⟩
  · next hm =>
    rw [if_neg hm]
    exact ⟨w, made, hw, rfl, hb⟩

theorem Sound.balances_open (hc : h.Sound) (hw : h.window? window = some w)
    (hb : w.Balanced made taken) (app : String) (spec : Spec) :
    (h.step (.openWindow window app spec)).Balances window w.session.instanceId taken := by
  obtain ⟨hs, hstore, hx⟩ := window?_eq hw
  have hr := hc.matched window _ hs
  by_cases happ : w.session.app = app
  · simp only [Desktop.step, openWindow_same hr hs happ]
    rw [← putWindow_display hstore]
    exact ⟨_, made, window?_putWindow (hc.present hr), rfl, hb.of_same hx.symm rfl rfl⟩
  · simp only [Desktop.step, openWindow_other hr happ]
    exact ⟨w, made, hw, rfl, hb⟩

theorem Sound.balances_use (hc : h.Sound) (hw : h.window? window = some w)
    (hb : w.Balanced made taken) (op : Window.Op) :
    (h.step (.use window op)).Balances window w.session.instanceId (taken ++ w.applies op) := by
  obtain ⟨hs, -, hx⟩ := window?_eq hw
  have hpresent := hc.present (hc.matched window _ hs)
  simp only [Desktop.step, hw]
  cases hop : op.isOwn with
  | true =>
    have hhosted : w.Hosted := ⟨hx ▸ hc.reached, hx ▸ hc.paired ▸ hpresent⟩
    have hi := (Window.continues_step hhosted hop).instanceId
    rw [if_pos rfl]
    exact ⟨w.step op, made ++ w.makes op, window?_putWindow (hi ▸ hpresent), hi, hb.step op⟩
  | false =>
    have happlies : w.applies op = [] := by
      cases op <;> first | rfl | cases hop
    rw [happlies, List.append_nil]
    exact ⟨w, made, hw, rfl, hb⟩

end

theorem Balances.step {n : Nat} {taken : List (Settlement Note)} (hb : h.Balances window n taken)
    (hc : h.Sound) {a : Act} (ha : a.closes window = false) :
    (h.step a).Balances window n (taken ++ h.applies window a) := by
  obtain ⟨w, made, hw, rfl, hb⟩ := hb
  -- what is done to another window reaches this one only through its calls
  have hother : ∀ window', a.window? = some window' → window' ≠ window →
      h.applies window a = [] →
      (h.step a).Balances window w.session.instanceId (taken ++ h.applies window a) := by
    intro window' ha hne happlies
    rw [happlies, List.append_nil]
    exact hc.balances_other hw hb ha hne
  cases a with
  | openWindow window' app spec =>
    by_cases he : window' = window
    · simp only [he, applies, List.append_nil]
      exact hc.balances_open hw hb app spec
    · exact hother window' rfl he rfl
  | closeWindow window' => exact hother window' rfl (of_decide_eq_false ha) rfl
  | closeAll => cases ha
  | use window' op =>
    by_cases he : window' = window
    · simp only [he, applies, hw, if_true]
      exact hc.balances_use hw hb op
    · refine hother window' rfl he ?_
      simp only [applies, hw, if_neg he]
  | ambient m =>
    simp only [applies, List.append_nil]
    exact hc.balances_ambient hw hb m
  | enter background =>
    obtain ⟨-, -, hx⟩ := window?_eq hw
    have hw' := hc.step_apart hw (a := .enter background) rfl (Option.some_ne_none window).symm
    have hb' := hb.enter background
    rw [hx] at hb'
    simp only [applies, List.append_nil]
    exact ⟨_, made, hw', rfl, hb'⟩

theorem Balances.run {n : Nat} {taken : List (Settlement Note)} (hb : h.Balances window n taken)
    (hc : h.Sound) {acts : List Act} (ha : ∀ a ∈ acts, a.closes window = false) :
    (h.run acts).Balances window n (taken ++ h.applied window acts) := by
  induction acts generalizing h taken with
  | nil =>
    rw [applied, List.append_nil]
    exact hb
  | cons a acts ih =>
    obtain ⟨hfirst, hrest⟩ := List.forall_mem_cons.mp ha
    rw [applied, ← List.append_assoc]
    exact ih (hb.step hc hfirst) (hc.step a) hrest

/-! ## Closing and opening again -/

theorem foldl_release_exchange (released : List Record) (d : Directory Note NameSet) :
    (released.foldl (fun d record => d.release record.instanceId) d).exchange =
      d.exchange.moves ((released.map Record.instanceId).map .retire) := by
  induction released generalizing d with
  | nil => rfl
  | cons record released ih => exact ih _

/-- Closing a window cleans up its instance, and perhaps others. -/
theorem Sound.close_moves (hc : h.Sound) {s : Session} (hs : h.session? window = some s) {a : Act}
    (ha : a.closes window = true) :
    ∃ ns : List Nat, (h.step a).directory.exchange = h.directory.exchange.moves (ns.map .retire) ∧
      s.instanceId ∈ ns := by
  have hr := hc.matched window s hs
  cases a with
  | closeWindow window' =>
    obtain rfl : window' = window := of_decide_eq_true ha
    refine ⟨[s.instanceId], ?_, List.mem_singleton_self _⟩
    simp only [Desktop.step, closeWindow_open hr]
    rfl
  | closeAll =>
    refine ⟨(KeyMap.values h.directory.records).map Record.instanceId,
      foldl_release_exchange _ _, ?_⟩
    have hmem := KeyMap.mem_of_get? hr
    exact List.mem_map.mpr ⟨_, List.mem_map.mpr ⟨_, hmem, rfl⟩, rfl⟩
  | openWindow | use | ambient | enter => cases ha

theorem Sound.run_caller (hc : h.Sound) {k : Nat} {c : Call Note}
    (hcall : h.directory.exchange.call? k = some c) (acts : List Act) :
    ∃ c', (h.run acts).directory.exchange.call? k = some c' ∧ c'.caller = c.caller := by
  refine (hc.run_exchange (P := fun x => ∃ c', x.call? k = some c' ∧ c'.caller = c.caller) ?_
    (fun _ _ hx => hx) (fun _ _ hx => hx) ⟨c, hcall, rfl⟩ acts).2
  rintro x m ⟨c', hc', he⟩
  obtain ⟨c'', hc'', hf⟩ := Exchange.follows_move m hc'
  exact ⟨c'', hc'', hf.caller.trans he⟩

theorem Sound.run_outcome? (hc : h.Sound) {k : Nat} {o : Outcome}
    (ho : h.directory.exchange.outcome? k = some o) (acts : List Act) :
    (h.run acts).directory.exchange.outcome? k = some o :=
  (hc.run_exchange (P := fun x => x.outcome? k = some o)
    (fun _ m hx => Exchange.outcome?_moves [m] hx) (fun _ _ hx => hx) (fun _ _ hx => hx) ho acts).2

theorem Sound.run_abandoned (hc : h.Sound) {k : Nat} {tool : String}
    (ha : h.directory.exchange.Abandoned k tool) (acts : List Act) :
    (h.run acts).directory.exchange.Abandoned k tool :=
  (hc.run_exchange (P := (·.Abandoned k tool)) (fun _ m hx => hx.move m)
    (fun _ n hx => hx.takeOldest n) (fun _ _ hx => hx) ha acts).2

theorem Sound.close_abandoned (hc : h.Sound) {s : Session} (hs : h.session? window = some s)
    {a : Act} (ha : a.closes window = true) {k : Nat} {c : Call Note}
    (hcall : h.directory.exchange.call? k = some c) (hcaller : c.caller = s.instanceId)
    (ho : c.outcome? = none) :
    (h.step a).directory.exchange.Abandoned k c.invocation.tool := by
  obtain ⟨ns, hx, hn⟩ := hc.close_moves hs ha
  rw [hx]
  exact Exchange.abandoned_of_retires hc.reached.sound hcall ho (hcaller ▸ hn)

theorem Sound.window?_withNew (hc : h.Sound) (app : String) (spec : Spec) :
    (h.withNew window app spec).window? window =
      some (.opening h.directory.exchange h.directory.timeout app spec) := by
  have hs : (h.withNew window app spec).session? window =
      some (.start app h.directory.exchange.callers.length spec) :=
    (KeyMap.get?_insert ..).trans (if_pos rfl)
  have hstore : (h.directory.stores ++ [Store.empty])[h.directory.exchange.callers.length]? =
      some Store.empty := by
    rw [← hc.paired]
    exact List.getElem?_concat_length
  have hget : (h.withNew window app spec).directory.stores[
      (Session.start app h.directory.exchange.callers.length spec).instanceId]? =
        some Store.empty := hstore
  simp only [Desktop.window?, hs, Option.bind_eq_bind, Option.bind_some, hget]
  rfl

theorem Sound.run_afresh (hc : h.Sound) (hr : h.directory.record? window = none) (app : String)
    (spec : Spec) {acts : List Act} (ha : ∀ a ∈ acts, a.closes window = false) :
    let opened := h.withNew window app spec
    ∃ w, (opened.run acts).window? window = some w ∧
      w.session.instanceId = h.directory.exchange.callers.length ∧
      w.Afresh (opened.applied window acts) h.directory.exchange.calls.length := by
  intro opened
  have hopened : opened.Sound := hc.opened hr app spec
  have hbalances : opened.Balances window h.directory.exchange.callers.length [] :=
    ⟨_, [], hc.window?_withNew app spec, rfl, .opening hc.reached h.directory.timeout app spec⟩
  obtain ⟨w, made, hw, hn, hb⟩ := hbalances.run hopened ha
  rw [List.nil_append] at hb
  obtain ⟨-, -, hx⟩ := window?_eq hw
  have hearlier : ∀ k < h.directory.exchange.calls.length, ∀ c, w.exchange.call? k = some c →
      c.caller ≠ w.session.instanceId := by
    intro k hk c hcall
    obtain ⟨c', hcall', he⟩ := hopened.run_caller (List.getElem?_eq_getElem hk) acts
    rw [← hx] at hcall'
    cases hcall.symm.trans hcall'
    rw [he, hn]
    exact Nat.ne_of_lt (hc.reached.sound.caller_lt _ (List.getElem_mem hk))
  refine ⟨w, hw, hn, ?_⟩
  constructor
  case calls =>
    intro k c hcall hcaller
    by_contra hlt
    exact hearlier k (Nat.lt_of_not_le hlt) c hcall hcaller
  case messages => exact hb.delivered
  case inFlight => exact hb.inFlight_eq
  case outputs => exact (Ledger.Balanced.accounted (l := ⟨w, made, _, none⟩) hb).outputs
  case apart =>
    intro k hk m hm
    apply Exchange.untouched_move
    have hcall : ((w.exchange.call? k).any (·.caller = w.session.instanceId)) = false := by
      cases hcall : w.exchange.call? k with
      | none => rfl
      | some c => simpa using hearlier k hk c hcall
    rcases hm with rfl | ⟨o, rfl⟩ <;> exact hcall

/-- A window that is closed and opened again has a new instance with an empty store, and its session
starts with nothing bound, nothing dirty and nothing in flight. Whatever happens then while it is
open, it has to do with calls from after the opening only, and nothing but what is done to it
changes its session or its store. The calls of the closed session keep an outcome they had before
the close; each of the others is in the queue or settled as disposed, and as disposed it settles
when it goes on. -/
theorem reopened_afresh (r : Renderer) (b : Backend) (background : Bool)
    (before between after : List Act) (close : Act) (window app : String) (spec : Spec)
    (old : Session)
    (hold : ((start r (.ofBackend b background)).run before).session? window = some old)
    (hclose : close.closes window = true)
    (hclosed : ((((start r (.ofBackend b background)).run before).step close).run
      between).session? window = none)
    (hafter : ∀ a ∈ after, a.closes window = false) :
    let h := (start r (.ofBackend b background)).run before
    let closed := (h.step close).run between
    let opened := closed.step (.openWindow window app spec)
    let later := opened.run after
    let x := closed.directory.exchange
    opened.window? window = some (.opening x closed.directory.timeout app spec) ∧
    old.instanceId < x.callers.length ∧ x.callsOf x.callers.length = [] ∧
      x.inbox x.callers.length = [] ∧
    (∃ w, later.window? window = some w ∧ w.session.instanceId = x.callers.length ∧
      w.Afresh (opened.applied window after) x.calls.length ∧
      ∀ a, a.closes window = false → a.window? ≠ some window →
        (later.step a).window? window =
          some { w with exchange := (later.step a).directory.exchange }) ∧
    ∀ k c, h.directory.exchange.call? k = some c → c.caller = old.instanceId →
      (∀ o, c.outcome? = some o → later.directory.exchange.outcome? k = some o) ∧
      (c.outcome? = none →
        (∀ o, later.directory.exchange.outcome? k = some o →
          o = .error (.disposed c.invocation.tool)) ∧
        (later.directory.exchange.outcome? k = none → k ∈ later.directory.exchange.ready) ∧
        (later.directory.exchange.move (.proceed k)).outcome? k =
          some (.error (.disposed c.invocation.tool))) := by
  intro h closed opened later x
  have hc : h.Sound := (start_sound r b background).run before
  have hstep : (h.step close).Sound := hc.step close
  have hsound : closed.Sound := hstep.run between
  have hr : closed.directory.record? window = none := hsound.session?_eq_none.mp hclosed
  have hopened : opened = closed.withNew window app spec := by
    simp only [opened, Desktop.step, openWindow_new hr hclosed]
  have hlater : later.Sound := (hsound.step _).run after
  have hold' : old.instanceId < h.directory.exchange.callers.length :=
    hc.paired ▸ hc.present (hc.matched window old hold)
  refine ⟨?_, ?_, hsound.reached.sound.callsOf_of_le (Nat.le_refl _),
    hsound.reached.sound.inbox_of_le (Nat.le_refl _), ?_, ?_⟩
  · rw [hopened]
    exact hsound.window?_withNew app spec
  · refine (hc.run_exchange (P := fun x => old.instanceId < x.callers.length)
      (fun _ m hx => Exchange.callers_length_move hx m) (fun _ _ hx => hx) (fun _ _ hx => hx) hold'
      (close :: between)).2
  · obtain ⟨w, hw, hi, hafresh⟩ := hsound.run_afresh hr app spec hafter
    rw [← hopened] at hw hafresh
    exact ⟨w, hw, hi, hafresh, fun a ha hne => hlater.step_apart hw ha hne⟩
  · intro k c hcall hcaller
    refine ⟨fun o ho => ?_, fun ho => ?_⟩
    · have hout : h.directory.exchange.outcome? k = some o := by
        rw [Exchange.outcome?, hcall]
        exact ho
      exact hsound.run_outcome? (hc.run_outcome? hout (close :: between))
        (.openWindow window app spec :: after)
    · have ha : later.directory.exchange.Abandoned k c.invocation.tool :=
        hsound.run_abandoned (hstep.run_abandoned
          (hc.close_abandoned hold hclose hcall hcaller ho) between)
          (.openWindow window app spec :: after)
      exact ⟨fun o => ha.outcome?, ha.ready hlater.reached.scheduled,
        ha.proceed hlater.reached.sound⟩

/-- At the close one call waits, one is settled and one is queued. The next session makes the same
calls, and finds the message of its own second one. -/
theorem reopened_with_three_calls :
    let b := (Backend.register .empty "slow" fun _ => ⟨5, .ok .null⟩).register "load" fun _ =>
      ⟨0, .ok (.bool true)⟩
    let spec := ((Spec.untitled.addHook "on_mount" (.ofTool "slow")).addHook "on_mount"
      (.ofTool "load")).addHook "on_mount" (.ofTool "slow")
    let r := Renderer.standard .standard
    let before : List Act := [.openWindow "w" "notes" spec, .use "w" (.render r),
      .ambient (.proceed 0), .ambient (.proceed 1)]
    let after : List Act := [.use "w" (.render r), .ambient (.elapse 5), .ambient (.proceed 0),
      .ambient (.proceed 4)]
    let h := (start r (.ofBackend b true)).run before
    let opened := (h.step (.closeWindow "w")).step (.openWindow "w" "notes" spec)
    let later := opened.run after
    (h.session? "w").map Session.inFlight = some 3 ∧
    (later.window? "w").map (fun w => (w.session.inFlight, w.inbox.length)) = some (3, 1) ∧
    (∃ w, later.window? "w" = some w ∧ w.Afresh [] 3) ∧
    later.directory.exchange.outcome? 0 = some (.error (.disposed "slow")) ∧
    later.directory.exchange.outcome? 1 = some (.ok (.bool true)) ∧
    (later.directory.exchange.move (.proceed 2)).outcome? 2 =
      some (.error (.disposed "slow")) := by
  -- what the fixed acts come to is computed; the rest is the general result
  refine ⟨rfl, rfl, ?_⟩
  obtain ⟨-, -, -, -, ⟨w, hw, -, hafresh, -⟩, hold⟩ := reopened_afresh (.standard .standard) _ true
    [.openWindow "w" "notes" _, .use "w" (.render _), .ambient (.proceed 0), .ambient (.proceed 1)]
    [] [.use "w" (.render _), .ambient (.elapse 5), .ambient (.proceed 0), .ambient (.proceed 4)]
    (.closeWindow "w") "w" "notes" _ _ rfl rfl rfl (by simp [Act.closes])
  exact ⟨⟨w, hw, hafresh⟩, rfl, rfl, ((hold 2 _ rfl rfl).2 rfl).2.2⟩

end Desktop

end DynamicUi
