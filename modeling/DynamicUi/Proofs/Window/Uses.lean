import DynamicUi.Proofs.Call.Requests
import DynamicUi.Proofs.Window.Ledger

/-! # What a session does to the exchange

An operation of a session makes background calls for its own instance, lets calls go on while it
waits, and takes messages from its own inbox. The session keeps its app and its instance.
-/

namespace DynamicUi

open Json Relation

namespace Exchange

variable {x y : Exchange Note} {n : Nat}

/-- One thing the session of an instance does to the exchange. -/
inductive Use (n : Nat) (x : Exchange Note) : Exchange Note → Prop
  | submit (i : Invocation) (note : Note) : Use n x (x.move (.submit n i note))
  | idle {m : Move Note} (h : m.isIdle = true) : Use n x (x.move m)
  | take : Use n x (x.takeOldest n)

def Uses (n : Nat) : Exchange Note → Exchange Note → Prop := ReflTransGen (Use n)

theorem addCaller_moves (x : Exchange Note) (timeout : Option Nat) (app : String) :
    (x.addCaller { Caller.unbound timeout with app? := some app }).1 =
      (x.move (.join timeout)).move (.bindApp x.callers.length app) := by
  have hn : x.callers.length < (x.callers ++ [Caller.unbound timeout]).length := by simp
  simp only [move, addCaller, onCaller, List.modify_eq_take_cons_drop hn, List.take_left',
    List.getElem_concat_length]
  simp [Caller.unbound, Caller.bindApp, Except.toOption]

theorem uses_moves {ms : List (Move Note)} (h : ∀ m ∈ ms, m.isIdle = true) :
    Uses n x (x.moves ms) := by
  induction ms generalizing x with
  | nil => exact .refl
  | cons m ms ih =>
    obtain ⟨hm, hms⟩ := List.forall_mem_cons.mp h
    exact .head (.idle hm) (ih hms)

theorem uses_collect (x : Exchange Note) (n : Nat) : Uses n x (x.collect n) := by
  generalize h : x.inbox n = ms
  induction ms generalizing x with
  | nil =>
    rw [Ledger.collect_of_inbox h]
    exact .refl
  | cons m ms ih =>
    have ht : (x.takeOldest n).inbox n = ms := by
      rw [inbox_takeOldest, if_pos rfl, h]
      rfl
    have hc := ih (x.takeOldest n) ht
    rw [Ledger.collect_takeOldest] at hc
    exact .head .take hc

theorem length_callers_run (x : Exchange Note) (k : Nat) :
    (x.run k).callers.length = x.callers.length := by
  rcases run_cases x k with ⟨h, -⟩ | ⟨c, d, hc, hd, hgo⟩
  · rw [h]
  · rcases hgo.settles_or_waits with ⟨b, o, -, h, -⟩ | ⟨b, due, o, -, -, -, h⟩
    · rw [h]
      simp only [settle, onCaller, setStage, List.length_modify]
    · rw [h]
      simp only [onCaller, setStage, List.length_modify]

def Move.joins : Move Note → Bool
  | .join _ => true
  | _ => false

theorem length_callers_move {m : Move Note} (h : m.joins = false) :
    (x.move m).callers.length = x.callers.length := by
  cases m with
  | join timeout => cases h
  | bindApp | retire => simp only [move, retire, onCaller, wakeWhere, List.length_modify]
  | submit n i note =>
    simp only [move, enqueue]
    split
    · split
      · simp only [enlist, onCaller, List.length_modify]
      · split <;> simp only [settle, enlist, onCaller, setStage, List.length_modify]
    · rfl
  | execute n i =>
    simp only [move]
    split
    · rw [length_callers_run]
      simp only [enlist, onCaller, List.length_modify]
    · rfl
  | proceed k => exact length_callers_run _ k
  | answer k o =>
    simp only [move, answer]
    split <;> rfl
  | elapse ms => rfl

/-! ## What is kept -/

theorem Issued.takeOldest {before : List Request} (h : x.Issued before) (n : Nat) :
    (x.takeOldest n).Issued before := h

theorem Use.move_or_take (h : Use n x y) : (∃ m : Move Note, y = x.move m ∧ m.joins = false ∧
    (∀ i, m.retires i = false)) ∨ y = x.takeOldest n := by
  cases h with
  | submit i note => exact .inl ⟨_, rfl, rfl, fun _ => rfl⟩
  | @idle m hm =>
    refine .inl ⟨m, rfl, ?_⟩
    cases m with
    | proceed | elapse => exact ⟨rfl, fun _ => rfl⟩
    | join | bindApp | submit | execute | answer | retire => cases hm
  | take => exact .inr rfl

theorem uses_induction {P : Exchange Note → Prop}
    (hm : ∀ x (m : Move Note), m.joins = false → (∀ i, m.retires i = false) → P x → P (x.move m))
    (ht : ∀ x i, P x → P (x.takeOldest i)) (h : Uses n x y) (hx : P x) : P y := by
  induction h with
  | refl => exact hx
  | tail _ hu ih =>
    rcases hu.move_or_take with ⟨m, rfl, hj, hr⟩ | rfl
    · exact hm _ m hj hr ih
    · exact ht _ n ih

theorem Uses.reached (h : Uses n x y) (hx : x.Reached) : y.Reached :=
  uses_induction (fun _ m _ _ hx => hx.move m) (fun _ i hx => hx.take i) h hx

theorem Uses.length_callers (h : Uses n x y) : y.callers.length = x.callers.length :=
  uses_induction (P := fun y => y.callers.length = x.callers.length)
    (fun _ _ hj _ hx => (length_callers_move hj).trans hx) (fun _ _ hx => hx) h rfl

theorem Uses.appOf (h : Uses n x y) {i : Nat} {app : String} (hx : x.appOf i = some app) :
    y.appOf i = some app :=
  uses_induction (P := fun y => y.appOf i = some app) (fun _ m _ _ hx => appOf_move m hx)
    (fun _ _ hx => hx) h hx

theorem Uses.isDisposed (h : Uses n x y) (i : Nat) : y.isDisposed i = x.isDisposed i := by
  refine uses_induction (P := fun y => y.isDisposed i = x.isDisposed i) ?_ (fun _ _ hx => hx) h rfl
  intro z m _ hr hz
  rw [isDisposed_move, hr, Bool.false_and, Bool.or_false]
  exact hz

end Exchange

namespace Window

variable {w w' w'' : Window}

structure Continues (w w' : Window) : Prop where
  app : w'.session.app = w.session.app
  instanceId : w'.session.instanceId = w.session.instanceId
  uses : Exchange.Uses w.session.instanceId w.exchange w'.exchange

theorem Continues.refl (w : Window) : Continues w w := ⟨rfl, rfl, .refl⟩

theorem Continues.trans (h : Continues w w') (h' : Continues w' w'') : Continues w w'' :=
  ⟨h'.app.trans h.app, h'.instanceId.trans h.instanceId, h.uses.trans (h.instanceId ▸ h'.uses)⟩

structure Hosted (w : Window) : Prop where
  reached : w.exchange.Reached
  present : w.session.instanceId < w.exchange.callers.length

theorem Continues.hosted (h : Continues w w') (hw : w.Hosted) : w'.Hosted := by
  refine ⟨h.uses.reached hw.reached, ?_⟩
  rw [h.instanceId, h.uses.length_callers]
  exact hw.present

theorem continues_writeAll (w : Window) (entries : List (String × Value)) :
    Continues w (w.writeAll entries) := by
  rw [writeAll_eq]
  exact ⟨rfl, rfl, .refl⟩

theorem continues_trigger (hw : w.Hosted) (b : Binding) (payload : Option Value) :
    Continues w (w.trigger b payload).1 := by
  cases hb : LocalTool.isLocal b.invocation.tool with
  | true =>
    rw [trigger_local w hb]
    exact continues_writeAll w _
  | false =>
    rw [trigger_remote w hb]
    have he : (w.exchange.enqueue w.session.instanceId (outgoing b.invocation payload) b.note).1 =
        w.exchange.move (.submit w.session.instanceId (outgoing b.invocation payload) b.note) := by
      simp only [Exchange.move, hw.present, if_true]
    refine ⟨rfl, rfl, ?_⟩
    rw [he]
    exact .single (.submit _ _)

theorem continues_triggerEach (hw : w.Hosted) (bs : List Binding) :
    Continues w (bs.foldl (fun w b => (w.trigger b none).1) w) := by
  induction bs generalizing w with
  | nil => exact .refl w
  | cons b bs ih =>
    have hb := continues_trigger hw b none
    exact hb.trans (ih (hb.hosted hw))

theorem continues_absorbOne (w : Window) (m : Settlement Note) : Continues w (w.absorbOne m) := by
  have hcounted : Continues w
      { w with session := { w.session with inFlight := w.session.inFlight - 1 } } :=
    ⟨rfl, rfl, .refl⟩
  rw [absorbOne_eq]
  exact hcounted.trans (continues_writeAll _ _)

theorem continues_absorb (w : Window) : Continues w w.absorb.1 := by
  have hfold : ∀ (ms : List (Settlement Note)) (w : Window),
      Continues w (ms.foldl absorbOne w) := by
    intro ms
    induction ms with
    | nil => exact .refl
    | cons m ms ih => exact fun w => (continues_absorbOne w m).trans (ih _)
  have hcollect : Continues w { w with exchange := w.exchange.collect w.session.instanceId } :=
    ⟨rfl, rfl, Exchange.uses_collect ..⟩
  exact hcollect.trans (hfold w.inbox _)

def Op.isOwn : Op → Bool
  | .elsewhere _ | .takenBy _ | .enter _ => false
  | _ => true

theorem continues_step (hw : w.Hosted) {op : Op} (h : op.isOwn = true) :
    Continues w (w.step op) := by
  cases op with
  | render r =>
    let followed := w.follow (r.render w.store.get? w.session.spec).pass
    have hfollow : Continues w
        { followed with session := { followed.session with mounted := true } } := ⟨rfl, rfl, .refl⟩
    show Continues w followed.mount
    rw [mount_eq]
    exact hfollow.trans (continues_triggerEach (hfollow.hosted hw) _)
  | display spec => exact ⟨rfl, rfl, .refl⟩
  | interact component event payload =>
    simp only [step, interact]
    split
    · exact .refl w
    · exact continues_trigger hw _ payload
  | scroll list offset => exact continues_writeAll w [(offsetKey list, .ofFloat offset)]
  | pump => exact continues_absorb w
  | settle =>
    obtain ⟨ms, hms, he⟩ := Exchange.waitWithin_moves hw.reached.sound hw.reached.scheduled
      (fun x => w.session.inFlight ≤ (x.inbox w.session.instanceId).length)
      (2 * w.exchange.calls.length + 2)
    have hwaited : Continues w w.waited := ⟨rfl, rfl, by
      show Exchange.Uses _ _ (Exchange.waitWithin _ _ _)
      rw [he]
      exact Exchange.uses_moves hms⟩
    exact hwaited.trans (continues_absorb w.waited)
  | receive =>
    simp only [step, receive]
    split
    · exact .refl w
    · next m ms hm =>
      have htaken : Continues w { w with
        exchange := w.exchange.takeOldest w.session.instanceId } := ⟨rfl, rfl, .single .take⟩
      exact htaken.trans (continues_absorbOne _ m)
  | write key v => exact continues_writeAll w [(key, v)]
  | remove key => exact ⟨rfl, rfl, .refl⟩
  | elsewhere | takenBy | enter => cases h

end Window

end DynamicUi
