import DynamicUi.Proofs.Window.ExactlyOnce
import DynamicUi.Script.Replay

/-! # The tally of a script balances

A script is replayed on a session that shows something, and anything may happen outside of it
between any two steps and while it settles. Each step changes the counter of the session by the
calls that it makes and the messages that it applies, and the tally counts both. So once the last
call is settled, what has been applied is what was in flight and what the script has called.
-/

namespace DynamicUi

open Json Window

namespace Step

def op (renderer : Renderer) : Step → Op
  | event component name payload => .interact component name payload
  | scroll list offset => .scroll list offset
  | settle => .settle
  | pump => .pump
  | render => .render renderer

def isEvent : Step → Bool
  | event .. => true
  | _ => false

def isRender : Step → Bool
  | render => true
  | _ => false

end Step

namespace Ledger

def binding? (l : Ledger) (component event : String) : Option Binding :=
  l.latest?.bind fun latest => latest.1.bindings.get? component event

/-- The invariant: the books are in order, and the session shows what its latest pass has found. -/
structure Showing (l : Ledger) : Prop where
  balanced : l.Balanced
  mounted : l.window.session.mounted = true
  bound : ∀ component event,
    l.window.session.bindings.get? component event = l.binding? component event

variable {l l' : Ledger}

theorem Balanced.inFlight_of_quiet (h : l.Balanced) {op : Op} (hmakes : l.window.makes op = [])
    (happlies : l.window.applies op = []) :
    (l.step op).window.session.inFlight = l.window.session.inFlight := by
  have hcount := h.inFlight_step op
  rwa [hmakes, happlies] at hcount

theorem Balanced.showing (h : l.Balanced) (renderer : Renderer) :
    (l.step (.render renderer)).Showing where
  balanced := h.step _
  mounted := (l.window.writes_render renderer).kept (f := Session.mounted) fun _ _ _ => rfl
  bound := by
    intro component event
    have hbindings := l.window.render_bindings renderer
    exact congrArg (fun bindings : Bindings => bindings.get? component event) hbindings

theorem Showing.step (h : l.Showing) (op : Op) : (l.step op).Showing := by
  cases hop : op.renders with
  | true =>
    cases op with
    | render renderer => exact h.balanced.showing renderer
    | display | interact | scroll | pump | settle | receive | write | remove | elsewhere | takenBy
      | enter => cases hop
  | false =>
    refine ⟨h.balanced.step op, ?_, fun component event => ?_⟩
    · exact (l.window.step_kept hop (f := Session.mounted) (fun _ _ _ => rfl) fun _ _ => rfl).trans
        h.mounted
    · have hlatest : (l.step op).latest? = l.latest? := by
        cases op with
        | render => cases hop
        | display | interact | scroll | pump | settle | receive | write | remove | elsewhere
          | takenBy | enter => rfl
      have hbindings : (l.step op).window.session.bindings = l.window.session.bindings :=
        l.window.step_bindings hop
      rw [hbindings, h.bound, binding?, binding?, hlatest]

theorem Showing.run (h : l.Showing) (ops : List Op) : (l.run ops).Showing := by
  induction ops generalizing l with
  | nil => exact h
  | cons op ops ih => exact ih (h.step op)

theorem Showing.settling (h : l.Showing) (hs : Settling l l') : l'.Showing := by
  induction hs with
  | done => exact h
  | apply _ _ _ ih => exact ih (h.step .receive)
  | meanwhile _ _ ih => exact ih (h.step _)

end Ledger

def Triggered.calls : Option Triggered → Nat
  | some (.called _) => 1
  | _ => 0

theorem Window.length_makes_interact (w : Window) (component name : String)
    (payload : Option Value) : (w.makes (.interact component name payload)).length =
      Triggered.calls (w.interact component name payload).2 := by
  simp only [Window.makes, interact]
  cases w.session.bindings.get? component name with
  | none => rfl
  | some b =>
    simp only [trigger]
    cases hb : LocalTool.isLocal b.invocation.tool with
    | true => simp [Binding.remote, hb, triggerLocal, Triggered.calls]
    | false => simp [Binding.remote, hb, triggerRemote, Triggered.calls]

/-! ## Counting one event -/

namespace ScriptTally

variable (r : ScriptTally) (component name : String) (t : Option Triggered)

@[simp]
theorem count_steps : (r.count component name t).steps = r.steps := by
  rcases t with _ | (e | v) | k <;> rfl

@[simp]
theorem count_applied : (r.count component name t).applied = r.applied := by
  rcases t with _ | (e | v) | k <;> rfl

@[simp]
theorem count_renders : (r.count component name t).renders = r.renders := by
  rcases t with _ | (e | v) | k <;> rfl

theorem count_remoteCalls :
    (r.count component name t).remoteCalls = r.remoteCalls + Triggered.calls t := by
  rcases t with _ | (e | v) | k <;> rfl

theorem count_unbound : (r.count component name t).unbound =
    r.unbound ++ if t.isSome then [] else [s!"{component}/{name}"] := by
  rcases t with _ | (e | v) | k
  · rfl
  all_goals exact (List.append_nil _).symm

theorem count_events : (r.count component name t).localCalls +
    (r.count component name t).remoteCalls + (r.count component name t).unbound.length =
      r.localCalls + r.remoteCalls + r.unbound.length + 1 := by
  rcases t with _ | (e | v) | k <;> simp only [count, List.length_append, List.length_singleton] <;>
    omega

theorem count_failed : (r.count component name t).failedLocalCalls + r.localCalls ≤
    r.failedLocalCalls + (r.count component name t).localCalls := by
  rcases t with _ | (e | v) | k <;> simp only [count] <;> omega

end ScriptTally

/-! ## Replays -/

namespace Script

structure Moment where
  step : Step
  ledger : Ledger

def Moment.unbound? (m : Moment) : Option String :=
  match m.step with
  | .event component name _ =>
    if (m.ledger.binding? component name).isNone then some s!"{component}/{name}" else none
  | _ => none

/-- A replay that comes to its end, by the steps that are left, with the session and the tally
before and after them. Anything may happen outside before each step and while the session settles.
-/
inductive Replays (renderer : Renderer) :
    List Moment → Ledger → ScriptTally → Ledger → ScriptTally → Prop
  | finish {l l' : Ledger} {r : ScriptTally} (settling : Settling l l') :
    Replays renderer [] l r l' (r.addApplied (l'.applied.length - l.applied.length))
  | outside {ms : List Moment} {l l' : Ledger} {r r' : ScriptTally} {op : Op}
    (outside : op.isOutside = true) (rest : Replays renderer ms (l.step op) r l' r') :
    Replays renderer ms l r l' r'
  | settle {ms : List Moment} {l l₁ l' : Ledger} {r r' : ScriptTally} (settling : Settling l l₁)
    (rest : Replays renderer ms l₁ ({ r with steps := r.steps + 1 }.addApplied
      (l₁.applied.length - l.applied.length)) l' r') :
    Replays renderer (⟨.settle, l⟩ :: ms) l r l' r'
  | step {ms : List Moment} {l l' : Ledger} {r r' : ScriptTally} {step : Step}
    (other : step ≠ .settle) (rest : Replays renderer ms (l.step (step.op renderer))
      (l.window.playStep renderer { r with steps := r.steps + 1 } step).2 l' r') :
    Replays renderer (⟨step, l⟩ :: ms) l r l' r'

/-- What some steps add to a tally, whatever it was before. -/
structure Balances (ms : List Moment) (l : Ledger) (r : ScriptTally) (l' : Ledger)
    (r' : ScriptTally) : Prop where
  steps : r'.steps = r.steps + ms.length
  events : r'.localCalls + r'.remoteCalls + r'.unbound.length =
    r.localCalls + r.remoteCalls + r.unbound.length + ms.countP (·.step.isEvent)
  failed : r'.failedLocalCalls + r.localCalls ≤ r.failedLocalCalls + r'.localCalls
  unbound : r'.unbound = r.unbound ++ ms.filterMap Moment.unbound?
  renders : r'.renders = r.renders + ms.countP (·.step.isRender)
  /-- What is applied was in flight before, or is called by the steps. -/
  applied : r'.applied + l'.window.session.inFlight + r.remoteCalls =
    r.applied + l.window.session.inFlight + r'.remoteCalls

namespace Balances

variable {renderer : Renderer} {ms ms' : List Moment} {l l' l'' : Ledger} {r r' r'' : ScriptTally}

theorem trans (h : Balances ms l r l' r') (h' : Balances ms' l' r' l'' r'') :
    Balances (ms ++ ms') l r l'' r'' := by
  obtain ⟨hsteps, hevents, hfailed, hunbound, hrenders, happlied⟩ := h
  obtain ⟨hsteps', hevents', hfailed', hunbound', hrenders', happlied'⟩ := h'
  constructor
  · rw [hsteps', hsteps, List.length_append, Nat.add_assoc]
  · rw [hevents', hevents, List.countP_append, Nat.add_assoc]
  · omega
  · rw [hunbound', hunbound, List.filterMap_append, List.append_assoc]
  · rw [hrenders', hrenders, List.countP_append, Nat.add_assoc]
  · omega

theorem outside (h : l.Showing) {op : Op} (hop : op.isOutside = true) :
    Balances [] l r (l.step op) r := by
  have hmakes : l.window.makes op = [] := by cases op <;> first | rfl | cases hop
  have happlies : l.window.applies op = [] := by cases op <;> first | rfl | cases hop
  have hsame := h.balanced.inFlight_of_quiet hmakes happlies
  exact ⟨rfl, rfl, Nat.le_refl _, (List.append_nil _).symm, rfl, by rw [hsame]⟩

theorem settling (h : l.Showing) (hs : Settling l l') :
    Balances [] l r l' (r.addApplied (l'.applied.length - l.applied.length)) := by
  obtain ⟨hzero, hlength⟩ := h.balanced.settling hs
  refine ⟨rfl, rfl, Nat.le_refl _, (List.append_nil _).symm, rfl, ?_⟩
  simp only [ScriptTally.addApplied]
  omega

theorem of_no_event {step : Step} (hstep : step.isEvent = false) {n : Nat}
    (hcount : l'.window.session.inFlight + n = l.window.session.inFlight) :
    Balances [⟨step, l⟩] l r l' { r with
      steps := r.steps + 1
      applied := r.applied + n
      renders := r.renders + if step.isRender then 1 else 0 } := by
  cases step with
  | event => cases hstep
  | scroll | settle | pump | render =>
    refine ⟨rfl, rfl, Nat.le_refl _, (List.append_nil _).symm, rfl, ?_⟩
    simp only [← hcount]
    omega

theorem event (h : l.Showing) (component name : String) (payload : Option Value) :
    Balances [⟨.event component name payload, l⟩] l r (l.step (.interact component name payload))
      ({ r with steps := r.steps + 1 }.count component name
        (l.window.interact component name payload).2) := by
  have hcount := h.balanced.inFlight_step (.interact component name payload)
  have happlies : l.window.applies (.interact component name payload) = [] := rfl
  have hmakes := l.window.length_makes_interact component name payload
  rw [happlies, hmakes, List.length_nil, Nat.add_zero] at hcount
  have hbound := l.window.interact_isSome component name payload
  rw [h.bound] at hbound
  have hunbound : [⟨.event component name payload, l⟩].filterMap Moment.unbound? =
      if (l.window.interact component name payload).2.isSome then []
        else [s!"{component}/{name}"] := by
    rw [hbound]
    cases hbinding : l.binding? component name <;>
      simp [Moment.unbound?, hbinding]
  constructor
  · exact ScriptTally.count_steps ..
  · exact ScriptTally.count_events ..
  · exact ScriptTally.count_failed ..
  · rw [ScriptTally.count_unbound, hunbound]
  · exact ScriptTally.count_renders ..
  · simp only [ScriptTally.count_applied, ScriptTally.count_remoteCalls, hcount]
    omega

theorem step (h : l.Showing) {step : Step} (hother : step ≠ .settle) :
    Balances [⟨step, l⟩] l r (l.step (step.op renderer))
      (l.window.playStep renderer { r with steps := r.steps + 1 } step).2 := by
  cases step with
  | event component name payload => exact event h component name payload
  | scroll list offset =>
    have hsame : (l.step (.scroll list offset)).window.session.inFlight =
      l.window.session.inFlight := h.balanced.inFlight_of_quiet rfl rfl
    exact of_no_event (n := 0) rfl hsame
  | settle => exact absurd rfl hother
  | pump => exact of_no_event rfl (h.balanced.inFlight_step .pump)
  | render =>
    -- it has been rendered before, so no hook is called
    have hmakes : l.window.makes (.render renderer) = [] := by
      simp only [Window.makes, hookBindings, h.mounted, if_true]
      rfl
    exact of_no_event (n := 0) rfl (h.balanced.inFlight_of_quiet hmakes rfl)

theorem of_replays (hr : Replays renderer ms l r l' r') (h : l.Showing) :
    Balances ms l r l' r' ∧ l'.Showing ∧ l'.window.session.inFlight = 0 := by
  induction hr with
  | finish hs => exact ⟨settling h hs, h.settling hs, (h.balanced.settling hs).1⟩
  | outside hop _ ih =>
    obtain ⟨hrest, hend⟩ := ih (h.step _)
    exact ⟨(outside h hop).trans hrest, hend⟩
  | @settle ms l l₁ l' r r' hs _ ih =>
    have hstep : Balances [⟨.settle, l⟩] l r l { r with steps := r.steps + 1 } :=
      of_no_event rfl (Nat.add_zero _)
    obtain ⟨hrest, hend⟩ := ih (h.settling hs)
    exact ⟨(hstep.trans (settling h hs)).trans hrest, hend⟩
  | step hother _ ih =>
    obtain ⟨hrest, hend⟩ := ih (h.step _)
    exact ⟨(step h hother).trans hrest, hend⟩

end Balances

/-! ## The replay that plays one step after another -/

variable {l : Ledger}

theorem playStep_window (renderer : Renderer) (w : Window) (r : ScriptTally) (step : Step) :
    (w.playStep renderer r step).1 = w.step (step.op renderer) := by
  cases step <;> rfl

theorem applied_settle (l : Ledger) :
    (l.step .settle).applied.length - l.applied.length = l.window.settleAll.2 := by
  simp only [Ledger.step, List.length_append, Nat.add_sub_cancel_left]
  rfl

/-- If nothing happens outside, a replay is what the steps come to one after another. -/
theorem exists_replays (renderer : Renderer) (steps : List Step) (h : l.Showing)
    (r : ScriptTally) :
    let played := l.window.playAll renderer steps r
    let settled := played.1.settleCounted played.2
    ∃ ms l', ms.map Moment.step = steps ∧ Replays renderer ms l r l' settled.2 ∧
      l'.window = settled.1 := by
  induction steps generalizing l r with
  | nil =>
    have hend : Replays renderer [] l r _ _ := .finish (Ledger.Settling.settle h.balanced)
    rw [applied_settle] at hend
    exact ⟨[], l.step .settle, rfl, hend, rfl⟩
  | cons step steps ih =>
    have hwindow := playStep_window renderer l.window { r with steps := r.steps + 1 } step
    obtain ⟨ms, l', hms, hrest, hl'⟩ := ih (h.step (step.op renderer))
      (l.window.playStep renderer { r with steps := r.steps + 1 } step).2
    have hplayed : l.window.playAll renderer (step :: steps) r =
        (l.step (step.op renderer)).window.playAll renderer steps
          (l.window.playStep renderer { r with steps := r.steps + 1 } step).2 := by
      have hstep : (l.step (step.op renderer)).window = l.window.step (step.op renderer) := rfl
      rw [Window.playAll, hstep, ← hwindow]
    rw [hplayed]
    refine ⟨⟨step, l⟩ :: ms, l', congrArg (step :: ·) hms, ?_, hl'⟩
    by_cases hsettle : step = .settle
    · subst hsettle
      refine .settle (Ledger.Settling.settle h.balanced) ?_
      rw [applied_settle]
      exact hrest
    · exact .step hsettle hrest

/-- However a session has been used that has been rendered, whatever script is replayed on it, and
whatever happens outside meanwhile: once the replay ends, its tally has one step for each step of
the script, and each event is one local call, one other call, or is named as unbound, which it is if
the pass that was the latest has no binding for it. No more local calls have failed than have been
made. The messages that have been applied are as many as the calls that were in flight before and
those of the script together, and no call and no message is left. To play one step after another is
such a replay. -/
theorem replay_balances {x : Exchange Note} (hx : x.Reached) (timeout : Option Nat) (app : String)
    (spec : Spec) {ops : List Op} (hrendered : ∃ renderer, .render renderer ∈ ops)
    (renderer : Renderer) (steps : List Step) :
    let l := (Ledger.opening x timeout app spec).run ops
    let played := l.window.replay renderer steps
    (∃ ms l', ms.map Moment.step = steps ∧ Replays renderer ms l .empty l' played.2 ∧
      l'.window = played.1) ∧
    ∀ ms l' r, ms.map Moment.step = steps → Replays renderer ms l .empty l' r →
      r.steps = steps.length ∧
      r.localCalls + r.remoteCalls + r.unbound.length = steps.countP Step.isEvent ∧
      r.failedLocalCalls ≤ r.localCalls ∧
      r.unbound = ms.filterMap Moment.unbound? ∧
      r.renders = steps.countP Step.isRender ∧
      r.applied = l.window.session.inFlight + r.remoteCalls ∧
      l'.window.session.inFlight = 0 ∧ l'.window.inbox = [] := by
  intro l played
  have hshowing : l.Showing := by
    obtain ⟨r, hr⟩ := hrendered
    obtain ⟨before, after, rfl⟩ := List.append_of_mem hr
    have hbefore : ((Ledger.opening x timeout app spec).run before).Balanced :=
      (show (Ledger.opening x timeout app spec).Balanced from
        Window.Balanced.opening hx timeout app spec).run before
    have hrun : l = (((Ledger.opening x timeout app spec).run before).step (.render r)).run after :=
      List.foldl_append
    rw [hrun]
    exact (hbefore.showing r).run after
  refine ⟨exists_replays renderer steps hshowing .empty, ?_⟩
  rintro ms l' r rfl hr
  obtain ⟨hbalances, hend, hzero⟩ := Balances.of_replays hr hshowing
  obtain ⟨hsteps, hevents, hfailed, hunbound, hrenders, happlied⟩ := hbalances
  simp only [ScriptTally.empty, List.length_nil, List.nil_append, Nat.zero_add, Nat.add_zero, hzero]
    at hsteps hevents hfailed hunbound hrenders happlied
  have hinbox : l'.window.inbox = [] := by
    have hcounter := Window.Balanced.inFlight_eq hend.balanced
    rw [hzero] at hcounter
    exact List.eq_nil_of_length_eq_zero (by omega)
  rw [List.length_map, List.countP_map, List.countP_map]
  exact ⟨hsteps, hevents, hfailed, hunbound, hrenders, happlied, hzero, hinbox⟩

/-- A hook has called before the script does, and both messages come in while it is replayed. -/
theorem tally_of_five_steps :
    let renderer := Renderer.standard .standard
    let x := Exchange.ofBackend (.register .empty "load" fun _ => ⟨0, .ok (.bool true)⟩) true
    let button (id tool : String) : Node :=
      .leaf { Component.plain id "button" with events := [("click", .ofTool tool)] }
    let spec := { Spec.untitled with roots := [button "a" "load", button "b" "ui.get"] }.addHook
      "on_mount" (.ofTool "load")
    let l := (Ledger.opening x none "notes" spec).run [.render renderer]
    let steps : List Step := [.event "a" "click" none, .event "b" "click" none, .pump,
      .event "c" "click" none, .render]
    let played := l.window.replay renderer steps
    played.2 = ⟨5, 1, 1, 0, ["c/click"], 2, 1⟩ ∧ l.window.session.inFlight = 1 ∧
      played.1.session.inFlight = 0 ∧ played.1.inbox = [] := by
  intro renderer x button spec l steps played
  have hx : x.Reached := .start _ true
  have hend : played.1.session.inFlight = 0 ∧ played.1.inbox = [] := by
    -- nothing below depends on what the steps are, and none of them is to be played here
    clear_value steps spec x renderer
    have hrendered : ∃ r, Op.render r ∈ [Op.render renderer] := ⟨renderer, List.mem_cons_self⟩
    obtain ⟨⟨ms, l', hms, hreplays, hl'⟩, hall⟩ :=
      replay_balances hx none "notes" spec hrendered renderer steps
    obtain ⟨-, -, -, -, -, -, hzero, hinbox⟩ := hall ms l' _ hms hreplays
    exact ⟨hl' ▸ hzero, hl' ▸ hinbox⟩
  exact ⟨by decide +kernel, by decide +kernel, hend⟩

end Script

end DynamicUi
