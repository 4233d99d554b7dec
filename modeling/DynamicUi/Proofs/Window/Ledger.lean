import DynamicUi.Proofs.Call.Progress
import DynamicUi.Window.Session

/-! # The life of a window session

A session is opened on an exchange that others may use as well, and from then on anything may
happen in any order: operations of the session, writes to its store by others, and whatever happens
on the exchange. A ledger keeps beside the window what the session has done so far.
-/

namespace DynamicUi

open Json

namespace Exchange

variable {ρ : Type} {x : Exchange ρ}

/-- An exchange in use: moves have been made, and messages taken, now where calls can go on in the
background and now where they cannot. -/
inductive Reached : Exchange ρ → Prop
  | start (b : Backend) (background : Bool) : Reached (ofBackend b background)
  | move {x : Exchange ρ} (m : Move ρ) : Reached x → Reached (x.move m)
  | take {x : Exchange ρ} (n : Nat) : Reached x → Reached (x.takeOldest n)
  | enter {x : Exchange ρ} (background : Bool) : Reached x → Reached { x with background }

theorem Sound.enter (h : Sound x) (background : Bool) : Sound { x with background } :=
  ⟨h.1, h.2, h.3, h.4, h.5⟩

theorem Scheduled.enter (h : Scheduled x) (background : Bool) : Scheduled { x with background } :=
  ⟨h.1, h.2⟩

theorem Reached.sound (h : Reached x) : Sound x := by
  induction h with
  | start b background => exact ofBackend_sound b background
  | move m _ ih => exact ih.move m
  | take n _ ih => exact ih.takeOldest n
  | enter background _ ih => exact ih.enter background

theorem Reached.scheduled (h : Reached x) : Scheduled x := by
  induction h with
  | start b background => exact ofBackend_scheduled b background
  | move m hx ih => exact ih.move hx.sound m
  | take n _ ih => exact ih.of_ready rfl (fun _ h => h) rfl
  | enter background _ ih => exact ih.enter background

def Move.submitsFor (n : Nat) : Move ρ → Bool
  | .submit m _ _ => m = n
  | _ => false

end Exchange

def Binding.note (b : Binding) : Note := ⟨b.component, b.event, b.outputKey⟩

def Binding.remote (b : Binding) : List Binding :=
  if LocalTool.isLocal b.invocation.tool then [] else [b]

def Settlement.output? (m : Settlement Note) : Option (String × Value) :=
  match m.outcome with
  | .ok v => some (m.note.outputKey, v)
  | .error (.disposed _) => none
  | .error (.execution _ code detail) =>
    some (Window.errorKey m.note.component,
      .record [("code", .string code), ("message", .string detail)])

namespace Window

def opening (x : Exchange Note) (timeout : Option Nat) (app : String) (spec : Spec) : Window :=
  let (exchange, n) := x.addCaller { Caller.unbound timeout with app? := some app }
  ⟨.start app n spec, .empty, exchange⟩

def receive (w : Window) : Window :=
  match w.inbox with
  | [] => w
  | m :: _ => { w with exchange := w.exchange.takeOldest w.session.instanceId }.absorbOne m

inductive Op where
  | render (r : Renderer)
  | display (spec : Spec)
  | interact (component event : String) (payload : Option Value)
  | scroll (list : String) (offset : Float)
  | pump
  | settle
  | receive
  | write (key : String) (v : Value)
  | remove (key : String)
  | elsewhere (m : Exchange.Move Note)
  | takenBy (n : Nat)
  /-- From now on calls can go on in the background, or cannot. -/
  | enter (background : Bool)

/-- The background calls of the session are only made by its own operations, and its messages only
taken by itself. -/
def step (w : Window) : Op → Window
  | .render r => (w.render r).1
  | .display spec => { w with session := { w.session with spec } }
  | .interact component event payload => (w.interact component event payload).1
  | .scroll list offset => w.scroll list offset
  | .pump => w.absorb.1
  | .settle => w.settleAll.1
  | .receive => w.receive
  | .write key v => w.write key v
  | .remove key => (w.remove key).1
  | .elsewhere m =>
    if m.submitsFor w.session.instanceId then w else { w with exchange := w.exchange.move m }
  | .takenBy n =>
    if n = w.session.instanceId then w else { w with exchange := w.exchange.takeOldest n }
  | .enter background => { w with exchange := { w.exchange with background } }

def hookBindings (w : Window) : List Binding :=
  if w.session.mounted then []
  else (w.session.spec.hook mountHook).map fun i => ⟨hookComponent, mountHook, i, []⟩

def makes (w : Window) : Op → List Binding
  | .render _ => w.hookBindings.flatMap Binding.remote
  | .interact component event _ =>
    (w.session.bindings.get? component event).toList.flatMap Binding.remote
  | _ => []

def waited (w : Window) : Window :=
  { w with exchange := w.exchange.waitUntil fun x =>
      w.session.inFlight ≤ (x.inbox w.session.instanceId).length }

def applies (w : Window) : Op → List (Settlement Note)
  | .pump => w.inbox
  | .settle => w.waited.inbox
  | .receive => w.inbox.head?.toList
  | _ => []

end Window

open Window (Op)

structure Ledger where
  window : Window
  made : List Binding
  applied : List (Settlement Note)
  /-- The latest pass, and the number of changes announced when it read the store. -/
  latest? : Option (Pass × Nat)

namespace Ledger

def latestAfter (l : Ledger) : Op → Option (Pass × Nat)
  | .render r =>
    some ((r.render l.window.store.get? l.window.session.spec).pass,
      l.window.store.announced.length)
  | _ => l.latest?

def step (l : Ledger) (op : Op) : Ledger where
  window := l.window.step op
  made := l.made ++ l.window.makes op
  applied := l.applied ++ l.window.applies op
  latest? := l.latestAfter op

def run (l : Ledger) (ops : List Op) : Ledger := ops.foldl step l

def opening (x : Exchange Note) (timeout : Option Nat) (app : String) (spec : Spec) : Ledger :=
  ⟨.opening x timeout app spec, [], [], none⟩

@[simp] theorem run_nil (l : Ledger) : l.run [] = l := rfl

@[simp] theorem run_cons (l : Ledger) (op : Op) (ops : List Op) :
    l.run (op :: ops) = (l.step op).run ops := rfl

end Ledger

/-! ## Operations as writes and calls -/

namespace Window

variable (w : Window)

def writeAll (w : Window) (entries : List (String × Value)) : Window :=
  entries.foldl (fun w e => w.write e.1 e.2) w

theorem writeAll_exchange (entries : List (String × Value)) :
    (w.writeAll entries).exchange = w.exchange := by
  induction entries generalizing w with
  | nil => rfl
  | cons e es ih => exact ih (w.write e.1 e.2)

theorem writeAll_instanceId (entries : List (String × Value)) :
    (w.writeAll entries).session.instanceId = w.session.instanceId := by
  induction entries generalizing w with
  | nil => rfl
  | cons e es ih => exact ih (w.write e.1 e.2)

theorem writeAll_inFlight (entries : List (String × Value)) :
    (w.writeAll entries).session.inFlight = w.session.inFlight := by
  induction entries generalizing w with
  | nil => rfl
  | cons e es ih => exact ih (w.write e.1 e.2)

theorem writeAll_store (entries : List (String × Value)) :
    (w.writeAll entries).store = (w.store.setAll entries).1 := by
  induction entries generalizing w with
  | nil => rfl
  | cons e es ih => exact ih (w.write e.1 e.2)

/-- All writes at once mark what one write after another marks. -/
theorem writeAll_eq (entries : List (String × Value)) : w.writeAll entries =
    { w with
      store := (w.store.setAll entries).1
      session := w.session.mark (w.store.setAll entries).2 } := by
  induction entries generalizing w with
  | nil => rfl
  | cons e es ih =>
    refine (ih (w.write e.1 e.2)).trans ?_
    simp only [Store.setAll, write, Session.mark, List.foldl_append]

theorem absorbOne_eq (m : Settlement Note) : w.absorbOne m =
    { w with session := { w.session with inFlight := w.session.inFlight - 1 } }.writeAll
      m.output?.toList := by
  rcases m with ⟨caller, callId, note, _ | _⟩
  · next e => cases e <;> rfl
  · rfl

def localWrites (w : Window) (b : Binding) (payload : Option Value) : List (String × Value) :=
  match LocalTool.effect w.store.get? ⟨b.invocation, b.component, b.props, payload⟩ with
  | .ok effect => effect.writes
  | .error _ => []

theorem trigger_local {b : Binding} (h : LocalTool.isLocal b.invocation.tool = true)
    (payload : Option Value) : (w.trigger b payload).1 = w.writeAll (w.localWrites b payload) := by
  simp only [trigger, h, if_true, triggerLocal, Store.runLocal, localWrites, writeAll_eq]
  cases LocalTool.effect w.store.get? ⟨b.invocation, b.component, b.props, payload⟩ <;> rfl

theorem trigger_remote {b : Binding} (h : LocalTool.isLocal b.invocation.tool = false)
    (payload : Option Value) : (w.trigger b payload).1 =
      { w with
        exchange := (w.exchange.enqueue w.session.instanceId (outgoing b.invocation payload)
          b.note).1
        session := { w.session with inFlight := w.session.inFlight + 1 } } := by
  simp only [trigger, h, Bool.false_eq_true, if_false]
  rfl

theorem inbox_absorbOne (m : Settlement Note) : (w.absorbOne m).inbox = w.inbox := by
  simp only [inbox, absorbOne_eq, writeAll_exchange, writeAll_instanceId]

theorem absorbOne_instanceId (m : Settlement Note) :
    (w.absorbOne m).session.instanceId = w.session.instanceId := by
  simp only [absorbOne_eq, writeAll_instanceId]

theorem absorbOne_withExchange (x : Exchange Note) (m : Settlement Note) :
    absorbOne { w with exchange := x } m = { w.absorbOne m with exchange := x } := by
  rcases m with ⟨caller, callId, note, _ | _⟩
  · next e => cases e <;> rfl
  · rfl

theorem mount_eq : w.mount =
    w.hookBindings.foldl (fun w b => (w.trigger b none).1)
      { w with session := { w.session with mounted := true } } := by
  unfold mount hookBindings
  split
  · next h => rw [← h]; rfl
  · rw [List.foldl_map]
    rfl

/-- Hooks that make calls write nothing. -/
theorem mount_store
    (h : ∀ b ∈ w.hookBindings, LocalTool.isLocal b.invocation.tool = false) :
    w.mount.store = w.store := by
  have hfold : ∀ (bs : List Binding) (w : Window),
      (∀ b ∈ bs, LocalTool.isLocal b.invocation.tool = false) →
        (bs.foldl (fun w b => (w.trigger b none).1) w).store = w.store := by
    intro bs
    induction bs with
    | nil => exact fun _ _ => rfl
    | cons b bs ih =>
      intro w h
      obtain ⟨hb, hbs⟩ := List.forall_mem_cons.mp h
      have hstore : (w.trigger b none).1.store = w.store := by rw [trigger_remote w hb]
      exact (ih _ hbs).trans hstore
  rw [mount_eq]
  exact hfold _ _ h

end Window

/-! ## Pumping and settling, message by message -/

namespace Ledger

open Window

variable {l : Ledger}

theorem step_receive {m : Settlement Note} {ms : List (Settlement Note)}
    (h : l.window.inbox = m :: ms) : l.step .receive =
      { l with
        window := { l.window with
          exchange := l.window.exchange.takeOldest l.window.session.instanceId }.absorbOne m
        applied := l.applied ++ [m] } := by
  have he : l.made ++ l.window.makes .receive = l.made := List.append_nil _
  simp only [step, Window.step, Window.receive, Window.applies, latestAfter, h, he]
  rfl

theorem inbox_receive {m : Settlement Note} {ms : List (Settlement Note)}
    (h : l.window.inbox = m :: ms) : (l.step .receive).window.inbox = ms := by
  rw [step_receive h]
  refine (inbox_absorbOne _ m).trans ((Exchange.inbox_takeOldest _ _ _).trans ?_)
  rw [if_pos rfl]
  exact congrArg List.tail h

theorem collect_takeOldest (x : Exchange Note) (n : Nat) :
    (x.takeOldest n).collect n = x.collect n := by
  simp only [Exchange.collect, Exchange.takeOldest]
  congr 1
  induction x.posted with
  | nil => rfl
  | cons m ms ih =>
    by_cases h : m.caller = n
    · rw [List.eraseP_cons_of_pos (by simp [h]), List.filter_cons_of_neg (by simp [h])]
    · rw [List.eraseP_cons_of_neg (by simp [h]), List.filter_cons_of_pos (by simp [h]),
        List.filter_cons_of_pos (by simp [h]), ih]

theorem collect_of_inbox {x : Exchange Note} {n : Nat} (h : x.inbox n = []) : x.collect n = x := by
  have hp : x.posted.filter (·.caller ≠ n) = x.posted := by
    refine List.filter_eq_self.mpr fun m hm => ?_
    have hn := List.filter_eq_nil_iff.mp h m hm
    simpa using hn
  unfold Exchange.collect
  rw [hp]

theorem run_receive (l : Ledger) {ms : List (Settlement Note)} (h : l.window.inbox = ms) :
    l.run (List.replicate ms.length .receive) =
      { l with
        window := ms.foldl absorbOne { l.window with
          exchange := l.window.exchange.collect l.window.session.instanceId }
        applied := l.applied ++ ms } := by
  induction ms generalizing l with
  | nil =>
    have hc := collect_of_inbox (x := l.window.exchange) (n := l.window.session.instanceId) h
    simp only [List.length_nil, List.replicate_zero, run_nil, List.foldl_nil,
      List.append_nil, hc]
  | cons m ms ih =>
    rw [List.length_cons, List.replicate_succ, run_cons, ih _ (inbox_receive h),
      step_receive h]
    simp only [absorbOne_withExchange, absorbOne_instanceId, collect_takeOldest, List.foldl_cons,
      List.append_assoc, List.singleton_append]

theorem step_pump (l : Ledger) :
    l.step .pump = l.run (List.replicate l.window.inbox.length .receive) := by
  have he : l.made ++ l.window.makes .pump = l.made := List.append_nil _
  rw [run_receive l rfl]
  simp only [step, Window.step, Window.applies, latestAfter, he]
  rfl

theorem submitsFor_of_isIdle {m : Exchange.Move Note} (h : m.isIdle = true) (n : Nat) :
    m.submitsFor n = false := by
  cases m <;> first | rfl | cases h

theorem run_elsewhere {ms : List (Exchange.Move Note)} (h : ∀ m ∈ ms, m.isIdle = true) :
    l.run (ms.map .elsewhere) =
      { l with window := { l.window with exchange := l.window.exchange.moves ms } } := by
  induction ms generalizing l with
  | nil => rfl
  | cons m ms ih =>
    obtain ⟨hi, hms⟩ := List.forall_mem_cons.mp h
    have hm : l.step (.elsewhere m) =
        { l with window := { l.window with exchange := l.window.exchange.move m } } := by
      have he : l.made ++ l.window.makes (.elsewhere m) = l.made := List.append_nil _
      have ha : l.applied ++ l.window.applies (.elsewhere m) = l.applied := List.append_nil _
      have hs := submitsFor_of_isIdle hi l.window.session.instanceId
      simp only [step, he, ha, latestAfter, Window.step, hs, Bool.false_eq_true, if_false]
    rw [List.map_cons, run_cons, hm, ih hms]
    rfl

theorem step_settle {ms : List (Exchange.Move Note)} (h : ∀ m ∈ ms, m.isIdle = true)
    (he : l.window.waited = { l.window with exchange := l.window.exchange.moves ms }) :
    l.step .settle = (l.run (ms.map .elsewhere)).step .pump := by
  have hm : l.made ++ l.window.makes .settle = l.made := List.append_nil _
  have hm' : l.made ++ l.window.waited.makes .pump = l.made := List.append_nil _
  rw [run_elsewhere h, ← he]
  simp only [step, Window.step, Window.applies, latestAfter, hm, hm']
  rfl

end Ledger

end DynamicUi
