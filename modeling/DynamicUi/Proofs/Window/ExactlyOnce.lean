import DynamicUi.Proofs.Store.Subscriptions
import DynamicUi.Proofs.Window.Writes

/-! # Results are applied exactly once

The counter of a session is the number of its calls that are not settled, plus the number of
messages in its inbox. Every call posts one message when it settles, every message is applied at
most once, and settling applies as many messages as the counter says.
-/

namespace DynamicUi

open Json Window

namespace Exchange

variable {ρ : Type} {x : Exchange ρ}

/-- The calls of a caller that are still to post their message. -/
def openOf (x : Exchange ρ) (n : Nat) : List (Call ρ) :=
  (x.callsOf n).filter fun c => c.note?.isSome && c.outcome?.isNone

theorem length_notesOf (x : Exchange ρ) (n : Nat) :
    (x.notesOf n).length = (x.openOf n).length + (x.messagesOf n).length := by
  unfold notesOf openOf messagesOf
  induction x.callsOf n with
  | nil => rfl
  | cons c cs ih =>
    cases hn : c.note? <;> cases ho : c.outcome? <;>
      simp [Call.settlement?, Call.message?, hn, ho] <;> omega

theorem Sound.callIds_nodup (hx : Sound x) (n : Nat) :
    ((x.messagesOf n).map Settlement.callId).Nodup := by
  have hids : ((x.messagesOf n).map Settlement.callId).Sublist (x.idsOf n) := by
    unfold messagesOf idsOf
    induction x.callsOf n with
    | nil => exact .slnil
    | cons c cs ih =>
      cases hs : c.settlement? with
      | none => simpa [List.filterMap_cons, hs] using ih.cons c.id
      | some m =>
        simpa [List.filterMap_cons, hs, (Call.settlement?_eq hs).2] using ih.cons_cons c.id
  exact hids.nodup (hx.ids_nodup n)

theorem callers_length_move {n : Nat} (h : n < x.callers.length) (m : Move ρ) :
    n < (x.move m).callers.length := by
  apply move_induction (P := fun y => n < y.callers.length) _ _ _ x m h
  · intro y z hd hy
    cases hd with
    | alike h => rwa [h.callers]
    | join timeout => simpa [addCaller] using Nat.lt_succ_of_lt hy
    | bindApp i app => simpa [onCaller] using hy
    | settle b o hc hd hs h => simpa [settle, onCaller, setStage] using hy
    | wait b due o hc hd hs h => simpa [onCaller, setStage] using hy
  · intro y i inv note? _ hy
    simpa [enlist, onCaller] using hy
  · intro y i hy
    simpa [onCaller] using hy

end Exchange

/-- The invariant: the exchange is in order, and its records of the session are those of the calls
it has made and the messages it has applied. -/
structure Window.Balanced (w : Window) (made : List Binding) (applied : List (Settlement Note)) :
    Prop where
  sound : w.exchange.Sound
  scheduled : w.exchange.Scheduled
  present : w.session.instanceId < w.exchange.callers.length
  notes : w.exchange.notesOf w.session.instanceId = made.map Binding.note
  delivered : w.exchange.Delivered w.session.instanceId applied
  count : w.session.inFlight + applied.length = made.length

namespace Window.Balanced

variable {w w' : Window} {made : List Binding} {applied : List (Settlement Note)}

theorem opening {x : Exchange Note} (hx : x.Reached) (timeout : Option Nat) (app : String)
    (spec : Spec) : Balanced (.opening x timeout app spec) [] [] := by
  have hs := hx.sound
  have hcalls := hs.callsOf_of_le (Nat.le_refl _)
  refine ⟨hs.addCaller rfl, hx.scheduled.of_ready rfl (fun _ h => h) rfl, ?_, ?_, ?_, rfl⟩
  · simp [Window.opening, Exchange.addCaller, Session.start]
  · show x.notesOf x.callers.length = []
    simp only [Exchange.notesOf, hcalls, List.filterMap_nil]
  · show (x.inbox x.callers.length).Perm (x.messagesOf x.callers.length)
    simp only [hs.inbox_of_le (Nat.le_refl _), Exchange.messagesOf, hcalls, List.filterMap_nil,
      List.Perm.nil]

theorem of_same (h : Balanced w made applied) (hx : w'.exchange = w.exchange)
    (hn : w'.session.instanceId = w.session.instanceId)
    (hc : w'.session.inFlight = w.session.inFlight) : Balanced w' made applied := by
  obtain ⟨h₁, h₂, h₃, h₄, h₅, h₆⟩ := h
  constructor <;> simp only [hx, hn, hc] <;> assumption

theorem writeAll (h : Balanced w made applied) (entries : List (String × Value)) :
    Balanced (w.writeAll entries) made applied :=
  h.of_same (w.writeAll_exchange entries) (w.writeAll_instanceId entries)
    (w.writeAll_inFlight entries)

theorem move (h : Balanced w made applied) {m : Exchange.Move Note}
    (hm : m.submitsFor w.session.instanceId = false) :
    Balanced { w with exchange := w.exchange.move m } made applied where
  sound := h.sound.move m
  scheduled := h.scheduled.move h.sound m
  present := Exchange.callers_length_move h.present m
  notes := by
    have hn : m.noteFor w.exchange w.session.instanceId = [] := by
      cases m with
      | submit n i note =>
        have hne : n ≠ w.session.instanceId := of_decide_eq_false hm
        simp [Exchange.Move.noteFor, hne]
      | join | bindApp | execute | proceed | answer | elapse | retire => rfl
    rw [Exchange.notesOf_move, hn, List.append_nil]
    exact h.notes
  delivered := h.delivered.move m
  count := h.count

theorem takenBy (h : Balanced w made applied) {n : Nat} (hn : n ≠ w.session.instanceId) :
    Balanced { w with exchange := w.exchange.takeOldest n } made applied where
  sound := h.sound.takeOldest n
  scheduled := h.scheduled.of_ready rfl (fun _ h => h) rfl
  present := h.present
  notes := h.notes
  delivered := by
    have hd := h.delivered.takeOldest n
    rwa [if_neg hn] at hd
  count := h.count

theorem enter (h : Balanced w made applied) (background : Bool) :
    Balanced { w with exchange := { w.exchange with background } } made applied :=
  { h with sound := h.sound.enter background, scheduled := h.scheduled.enter background }

theorem trigger (h : Balanced w made applied) (b : Binding) (payload : Option Value) :
    Balanced (w.trigger b payload).1 (made ++ b.remote) applied := by
  cases hb : LocalTool.isLocal b.invocation.tool with
  | true =>
    have hr : b.remote = [] := by simp only [Binding.remote, hb, if_true]
    rw [w.trigger_local hb, hr, List.append_nil]
    exact h.writeAll _
  | false =>
    have hr : b.remote = [b] := by simp only [Binding.remote, hb, Bool.false_eq_true, if_false]
    rw [w.trigger_remote hb, hr]
    let m : Exchange.Move Note :=
      .submit w.session.instanceId (outgoing b.invocation payload) b.note
    have he : (w.exchange.enqueue w.session.instanceId (outgoing b.invocation payload)
        b.note).1 = w.exchange.move m := by
      simp only [m, Exchange.move, h.present, if_true]
    rw [he]
    refine ⟨h.sound.move m, h.scheduled.move h.sound m, Exchange.callers_length_move h.present m,
      (Exchange.notesOf_move w.exchange m _).trans ?_, h.delivered.move m, ?_⟩
    · simp only [m, Exchange.Move.noteFor, h.present, and_self, if_true, h.notes, List.map_append,
        List.map_singleton]
    · have hc := h.count
      simp only [List.length_append, List.length_singleton]
      omega

theorem triggerEach (h : Balanced w made applied) (bs : List Binding) :
    Balanced (bs.foldl (fun w b => (w.trigger b none).1) w) (made ++ bs.flatMap Binding.remote)
      applied := by
  induction bs generalizing w made with
  | nil => simpa using h
  | cons b bs ih => simpa [List.append_assoc] using ih (h.trigger b none)

theorem inFlight_eq (h : Balanced w made applied) : w.session.inFlight =
    (w.exchange.openOf w.session.instanceId).length + w.inbox.length := by
  have hnotes := congrArg List.length h.notes
  have hmessages := h.delivered.length_eq
  have hc := h.count
  have hl := w.exchange.length_notesOf w.session.instanceId
  simp only [List.length_map, List.length_append] at hnotes hmessages
  unfold inbox
  omega

theorem receive (h : Balanced w made applied) {m : Settlement Note} {ms : List (Settlement Note)}
    (hi : w.inbox = m :: ms) :
    Balanced (absorbOne { w with
      exchange := w.exchange.takeOldest w.session.instanceId } m) made (applied ++ [m]) := by
  have hd := h.delivered.takeOldest w.session.instanceId
  have hhead : (w.exchange.inbox w.session.instanceId).head? = some m := congrArg List.head? hi
  rw [if_pos rfl, hhead] at hd
  have hlen := congrArg List.length hi
  have hf := h.inFlight_eq
  have hc := h.count
  have hb : Balanced { w with
      exchange := w.exchange.takeOldest w.session.instanceId
      session := { w.session with inFlight := w.session.inFlight - 1 } } made (applied ++ [m]) := by
    refine ⟨h.sound.takeOldest _, h.scheduled.of_ready rfl (fun _ h => h) rfl, h.present, h.notes,
      hd, ?_⟩
    simp only [List.length_append, List.length_cons, List.length_nil] at hlen ⊢
    omega
  rw [absorbOne_eq]
  exact hb.writeAll _

theorem idle (h : Balanced w made applied) {ms : List (Exchange.Move Note)}
    (hms : ∀ m ∈ ms, m.isIdle = true) :
    Balanced { w with exchange := w.exchange.moves ms } made applied := by
  induction ms generalizing w with
  | nil => exact h
  | cons m ms ih =>
    obtain ⟨hm, hms⟩ := List.forall_mem_cons.mp hms
    exact ih (h.move (Ledger.submitsFor_of_isIdle hm _)) hms

theorem inFlight_le_inbox (h : Balanced w made applied)
    (hs : ∀ c ∈ w.exchange.calls, c.outcome? ≠ none) :
    w.session.inFlight ≤ w.inbox.length := by
  have ho : w.exchange.openOf w.session.instanceId = [] := by
    apply List.filter_eq_nil_iff.mpr
    intro c hc hopen
    have hn := (Bool.and_eq_true_iff.mp hopen).2
    exact hs c (List.mem_filter.mp hc).1 (Option.isNone_iff_eq_none.mp hn)
  have hf := h.inFlight_eq
  rw [ho, List.length_nil, Nat.zero_add] at hf
  exact Nat.le_of_eq hf

theorem waited (h : Balanced w made applied) :
    ∃ ms : List (Exchange.Move Note), (∀ m ∈ ms, m.isIdle = true) ∧
      w.waited = { w with exchange := w.exchange.moves ms } ∧
      w.session.inFlight ≤ w.waited.inbox.length := by
  have harrived : ∀ ms : List (Exchange.Move Note), (∀ m ∈ ms, m.isIdle = true) →
      (∀ c ∈ (w.exchange.moves ms).calls, c.outcome? ≠ none) →
        decide (w.session.inFlight ≤
          ((w.exchange.moves ms).inbox w.session.instanceId).length) = true := by
    intro ms hms hs
    exact decide_eq_true ((h.idle hms).inFlight_le_inbox hs)
  obtain ⟨ms, hms, he, hd⟩ := Exchange.waitUntil_done h.sound h.scheduled
    (fun x => w.session.inFlight ≤ (x.inbox w.session.instanceId).length) harrived
  have hw : w.waited = { w with exchange := w.exchange.moves ms } := by
    unfold Window.waited
    rw [he]
  refine ⟨ms, hms, hw, ?_⟩
  rw [hw]
  exact of_decide_eq_true hd

end Window.Balanced

namespace Ledger

variable {l l' : Ledger}

def Balanced (l : Ledger) : Prop := l.window.Balanced l.made l.applied

theorem Balanced.receive (h : l.Balanced) : (l.step .receive).Balanced := by
  cases hi : l.window.inbox with
  | nil =>
    unfold Balanced
    simp only [step, Window.step, Window.receive, applies, makes, hi, List.append_nil,
      List.head?_nil, Option.toList_none]
    exact h
  | cons m ms =>
    rw [step_receive hi]
    exact Window.Balanced.receive h hi

theorem Balanced.pump (h : l.Balanced) : (l.step .pump).Balanced := by
  have hn : ∀ (n : Nat) (l : Ledger), l.Balanced → (l.run (.replicate n .receive)).Balanced := by
    intro n
    induction n with
    | zero => exact fun _ h => h
    | succ n ih => exact fun l h => ih _ h.receive
  rw [step_pump]
  exact hn _ l h

theorem Balanced.settle (h : l.Balanced) : (l.step .settle).Balanced := by
  obtain ⟨ms, hms, hw, -⟩ := Window.Balanced.waited h
  rw [step_settle hms hw]
  refine Balanced.pump ?_
  rw [run_elsewhere hms]
  exact Window.Balanced.idle h hms

theorem Balanced.step (h : l.Balanced) (op : Op) : (l.step op).Balanced := by
  have hsame : ∀ w : Window, w.exchange = l.window.exchange →
      w.session.instanceId = l.window.session.instanceId →
      w.session.inFlight = l.window.session.inFlight →
      w.Balanced (l.made ++ []) (l.applied ++ []) := by
    intro w hx hn hc
    rw [List.append_nil, List.append_nil]
    exact Window.Balanced.of_same h hx hn hc
  cases op with
  | render r =>
    show ((l.window.follow _).mount).Balanced _ (l.applied ++ [])
    rw [mount_eq, List.append_nil]
    refine Window.Balanced.triggerEach ?_ _
    exact Window.Balanced.of_same h rfl rfl rfl
  | interact component event payload =>
    unfold Balanced
    simp only [Ledger.step, Window.step, interact, applies, makes, List.append_nil]
    cases l.window.session.bindings.get? component event with
    | none => simpa [Balanced] using h
    | some b => simpa using Window.Balanced.trigger h b payload
  | display | scroll | write | remove => exact hsame _ rfl rfl rfl
  | pump => exact h.pump
  | settle => exact h.settle
  | receive => exact h.receive
  | elsewhere m =>
    unfold Balanced
    simp only [Ledger.step, Window.step, applies, makes, List.append_nil]
    split
    · exact h
    · next hm => exact Window.Balanced.move h (Bool.eq_false_iff.mpr hm)
  | takenBy n =>
    unfold Balanced
    simp only [Ledger.step, Window.step, applies, makes, List.append_nil]
    split
    · exact h
    · next hn => exact Window.Balanced.takenBy h hn
  | enter background =>
    unfold Balanced
    simp only [Ledger.step, Window.step, applies, makes, List.append_nil]
    exact Window.Balanced.enter h background

theorem Balanced.run (h : l.Balanced) (ops : List Op) : (l.run ops).Balanced := by
  induction ops generalizing l with
  | nil => exact h
  | cons op ops ih => exact ih (h.step op)

end Ledger

/-! ## Settling, while others go on -/

/-- What may happen while a session waits: it is not an operation of the session. -/
def Window.Op.isOutside : Op → Bool
  | .write .. | .remove .. | .elsewhere _ | .takenBy _ | .enter _ => true
  | _ => false

/-- A settling that returns: messages are applied one at a time until the counter is zero, and
anything from outside may happen in between. -/
inductive Settling : Ledger → Ledger → Prop
  | done {l : Ledger} (h : l.window.session.inFlight = 0) : Settling l l
  | apply {l l' : Ledger} (h : l.window.session.inFlight ≠ 0) (hi : l.window.inbox ≠ []) :
      Settling (l.step .receive) l' → Settling l l'
  | meanwhile {l l' : Ledger} {op : Op} (h : op.isOutside = true) :
      Settling (l.step op) l' → Settling l l'

namespace Ledger

variable {l l' : Ledger}

/-- Every operation changes the counter by the calls it makes and the messages it applies. -/
theorem Balanced.inFlight_step (h : l.Balanced) (op : Op) :
    (l.step op).window.session.inFlight + (l.window.applies op).length =
      l.window.session.inFlight + (l.window.makes op).length := by
  have hc := h.count
  have hc' := (h.step op).count
  simp only [Ledger.step, List.length_append] at hc'
  simp only [Ledger.step]
  omega

theorem Balanced.settling (h : l.Balanced) (hs : Settling l l') :
    l'.window.session.inFlight = 0 ∧
      l'.applied.length = l.applied.length + l.window.session.inFlight := by
  induction hs with
  | done hz => exact ⟨hz, by rw [hz, Nat.add_zero]⟩
  | @apply l l' hf hi hs ih =>
    obtain ⟨hz, hl⟩ := ih h.receive
    obtain ⟨m, ms, hm⟩ := List.exists_cons_of_ne_nil hi
    refine ⟨hz, ?_⟩
    have hc := h.inFlight_step .receive
    have ha : (l.step .receive).applied = l.applied ++ [m] := by rw [step_receive hm]
    have h₁ : (l.window.applies .receive).length = 1 := by simp [applies, hm]
    have h₂ : (l.window.makes .receive).length = 0 := rfl
    rw [ha, List.length_append, List.length_singleton] at hl
    omega
  | @meanwhile l l' op ho hs ih =>
    obtain ⟨hz, hl⟩ := ih (h.step op)
    refine ⟨hz, ?_⟩
    have hc := h.inFlight_step op
    have ha : l.window.applies op = [] := by cases op <;> first | rfl | cases ho
    have hm : l.window.makes op = [] := by cases op <;> first | rfl | cases ho
    simp only [ha, hm, List.length_nil, Nat.add_zero] at hc
    rw [hc] at hl
    simpa [Ledger.step, ha] using hl

theorem Settling.elsewhere {ms : List (Exchange.Move Note)}
    (h : Settling (l.run (ms.map .elsewhere)) l') : Settling l l' := by
  induction ms generalizing l with
  | nil => exact h
  | cons m ms ih =>
    have ho : (Op.elsewhere m).isOutside = true := rfl
    exact .meanwhile ho (ih h)

theorem Settling.pump (h : l.Balanced) (hf : l.window.session.inFlight = l.window.inbox.length) :
    Settling l (l.step .pump) := by
  have hn : ∀ (ms : List (Settlement Note)) (l : Ledger), l.Balanced →
      l.window.session.inFlight = ms.length → l.window.inbox = ms →
      Settling l (l.run (.replicate ms.length .receive)) := by
    intro ms
    induction ms with
    | nil => exact fun l _ hf _ => .done hf
    | cons m ms ih =>
      intro l h hf hi
      have hc := h.inFlight_step .receive
      have h₁ : (l.window.applies .receive).length = 1 := by simp [applies, hi]
      have h₂ : (l.window.makes .receive).length = 0 := rfl
      rw [List.length_cons] at hf
      exact .apply (by omega) (by simp [hi]) (ih _ h.receive (by omega) (inbox_receive hi))
  rw [step_pump]
  exact hn _ l h hf rfl

theorem Settling.settle (h : l.Balanced) : Settling l (l.step .settle) := by
  obtain ⟨ms, hms, hw, hle⟩ := Window.Balanced.waited h
  have hb : (l.run (ms.map .elsewhere)).Balanced := h.run _
  rw [step_settle hms hw]
  refine Settling.elsewhere (Settling.pump hb ?_)
  have hf := Window.Balanced.inFlight_eq hb
  have he : (l.run (ms.map .elsewhere)).window = l.window.waited := by
    rw [run_elsewhere hms, hw]
  rw [he] at hf ⊢
  have hi : l.window.waited.session.inFlight = l.window.session.inFlight := rfl
  omega

/-! ## The writes of messages -/

theorem foldl_absorbOne_store (ms : List (Settlement Note)) (w : Window) :
    (ms.foldl absorbOne w).store = (w.store.setAll (ms.filterMap Settlement.output?)).1 := by
  induction ms generalizing w with
  | nil => rfl
  | cons m ms ih =>
    have hm : (m :: ms).filterMap Settlement.output? =
        m.output?.toList ++ ms.filterMap Settlement.output? := by
      cases h : m.output? <;> simp [h]
    rw [List.foldl_cons, ih, hm, Store.setAll_append, absorbOne_eq, writeAll_store]

/-- What holds of a session at any moment, and of whatever it does next. -/
structure Accounted (l : Ledger) : Prop where
  /-- The calls on the exchange are those that were made, each with its result key. -/
  started : l.window.exchange.notesOf l.window.session.instanceId = l.made.map Binding.note
  inFlight : l.window.session.inFlight =
    (l.window.exchange.openOf l.window.session.instanceId).length + l.window.inbox.length
  /-- Each settled call has posted its message, which has been applied or waits in the inbox. -/
  posted : (l.applied ++ l.window.inbox).Perm
    (l.window.exchange.messagesOf l.window.session.instanceId)
  once : ((l.applied ++ l.window.inbox).map Settlement.callId).Nodup
  counted : ∀ op, (l.step op).window.session.inFlight + (l.window.applies op).length =
    l.window.session.inFlight + (l.window.makes op).length
  /-- Pumping and settling write what the messages say. -/
  outputs : ∀ op, op = .pump ∨ op = .settle ∨ op = .receive → (l.window.step op).store =
    (l.window.store.setAll ((l.window.applies op).filterMap Settlement.output?)).1
  /-- Making a call writes nothing. -/
  calling : ∀ component event payload b, l.window.session.bindings.get? component event = some b →
    LocalTool.isLocal b.invocation.tool = false →
      (l.window.step (.interact component event payload)).store = l.window.store
  /-- A pass whose hooks make calls writes nothing and announces nothing. -/
  mounting : ∀ r, (∀ b ∈ l.window.hookBindings, LocalTool.isLocal b.invocation.tool = false) →
    (l.window.step (.render r)).store.values = l.window.store.values ∧
      (l.window.step (.render r)).store.announced = l.window.store.announced
  /-- What happens on the exchange does not touch the store or the session. -/
  elsewhere : ∀ m, (l.window.step (.elsewhere m)).store = l.window.store ∧
    (l.window.step (.elsewhere m)).session = l.window.session
  settling : ∀ l', Settling l l' → l'.window.session.inFlight = 0 ∧
    l'.applied.length = l.applied.length + l.window.session.inFlight
  settles : Settling l (l.step .settle) ∧ l.window.settleAll.2 = l.window.session.inFlight

theorem Balanced.accounted (h : l.Balanced) : Accounted l where
  started := h.notes
  inFlight := Window.Balanced.inFlight_eq h
  posted := h.delivered
  once := (h.delivered.map Settlement.callId).nodup_iff.mpr (h.sound.callIds_nodup _)
  counted := h.inFlight_step
  outputs := by
    rintro op (rfl | rfl | rfl)
    · exact foldl_absorbOne_store _ _
    · exact foldl_absorbOne_store _ _
    · simp only [Window.step, Window.receive, applies]
      cases hi : l.window.inbox with
      | nil => rfl
      | cons m ms => exact foldl_absorbOne_store [m] _
  calling := by
    intro component event payload b hb hr
    simp only [Window.step, interact, hb, trigger_remote _ hr]
  mounting := by
    intro r h
    have hm : (l.window.step (.render r)).store =
        (l.window.follow (r.render l.window.store.get? l.window.session.spec).pass).store :=
      mount_store _ h
    rw [hm]
    exact l.window.follow_content _
  elsewhere := by
    intro m
    simp only [Window.step]
    split <;> exact ⟨rfl, rfl⟩
  settling := fun l' => h.settling
  settles := by
    have hs := Settling.settle h
    have hl := (h.settling hs).2
    have ha : (l.step .settle).applied = l.applied ++ l.window.waited.inbox := rfl
    rw [ha, List.length_append] at hl
    exact ⟨hs, Nat.add_left_cancel hl⟩

/-- However a session is used, and whatever happens meanwhile on the exchange it is opened on, its
calls and their results are accounted for at every moment. -/
theorem run_accounted {x : Exchange Note} (hx : x.Reached) (timeout : Option Nat)
    (app : String) (spec : Spec) (ops : List Op) :
    Accounted ((Ledger.opening x timeout app spec).run ops) :=
  ((show (Ledger.opening x timeout app spec).Balanced from
    Window.Balanced.opening hx timeout app spec).run ops).accounted

theorem hook_call_accounted :
    let x := Exchange.ofBackend (.register .empty "load" fun _ => ⟨0, .ok (.bool true)⟩) true
    let spec := Spec.untitled.addHook "on_mount" (.ofTool "load")
    let l := (Ledger.opening x none "notes" spec).run
      [.render (.standard .standard), .elsewhere (.proceed 0)]
    x.Reached ∧ Accounted l ∧ l.window.session.inFlight = 1 ∧ l.window.inbox.length = 1 ∧
      (l.step .pump).window.store.get? "app:result" = some (.bool true) :=
  ⟨.start _ true, run_accounted (.start _ true) none "notes" _ _, rfl, rfl, rfl⟩

end Ledger

end DynamicUi
