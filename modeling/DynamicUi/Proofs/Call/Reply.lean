import DynamicUi.Proofs.Call.Course
import DynamicUi.Proofs.Call.Requests

/-! # A call keeps to its reply

The first run of a call fixes what becomes of it. A call for an app is one request then, and the
reply, or the timeout of its caller, says when it settles and how. No move in the course of time
leads away from that, whichever call it is made for.
-/

namespace DynamicUi

variable {ρ : Type}

/-- What a call comes to that was run first at a moment, with this reply: the stages it may be at
when the clock shows `now`. -/
def Stage.Agrees (start now : Nat) (r : Reply) : Stage → Prop
  | .queued => False
  | .waiting due o => due = start + r.delay ∧ o = r.outcome
  | .woken o => now = start + r.delay ∧ o = r.outcome
  | .settled o => o = r.outcome

theorem respond_congr {b b' : Backend} (h : b'.handlers = b.handlers) (r : Request) :
    b'.respond r = b.respond r := by
  rw [Backend.respond, Backend.respond, h]

theorem respond_of_not_serves {b : Backend} {r : Request} (h : b.serves r.tool = false) :
    b.respond r = ⟨0, .error (.unknownTool r.tool)⟩ := by
  have hnone := Option.isNone_iff_eq_none.mp (Option.isSome_eq_false_iff.mp h)
  rw [Backend.respond, hnone]

namespace Caller

variable {d : Caller} {tool : String} {r : Reply}

theorem bounded_of_le (h : ∀ limit, d.timeout = some limit → r.delay ≤ limit) :
    d.bounded tool r = r := by
  unfold bounded
  split
  · rfl
  · next limit hlimit => rw [if_pos (h limit hlimit)]

theorem bounded_of_lt {limit : Nat} (hlimit : d.timeout = some limit) (h : limit < r.delay) :
    d.bounded tool r = ⟨limit, .error (.timeout tool limit)⟩ := by
  simp only [bounded, hlimit, if_neg (Nat.not_le_of_lt h)]

end Caller

namespace Exchange

variable {x y : Exchange ρ} {k n : Nat} {c : Call ρ} {m : Move ρ}

/-! ## A run in which nobody is cleaned up -/

structure Live (b : Backend) (x : Exchange ρ) : Prop where
  sound : Sound x
  scheduled : Scheduled x
  background : x.background = true
  undisposed : ∀ n, x.isDisposed n = false
  handlers : x.backend.handlers = b.handlers

theorem run_handlers (x : Exchange ρ) (k : Nat) :
    (x.run k).backend.handlers = x.backend.handlers := by
  unfold run
  split
  · rfl
  · split
    · unfold start
      split
      · rfl
      · simp only [send]
        split <;> rfl
    · rfl
    · rfl

theorem move_handlers (x : Exchange ρ) (m : Move ρ) :
    (x.move m).backend.handlers = x.backend.handlers := by
  cases m with
  | execute n i =>
    simp only [move]
    split
    · exact run_handlers _ _
    · rfl
  | proceed k => exact run_handlers _ k
  | join | bindApp | submit | answer | elapse | retire =>
    exact congrArg Backend.handlers (move_backend _ (by rintro _ ⟨⟩))

theorem Timely.live {b : Backend} {ms : List (Move ρ)} (h : (ofBackend b true).Timely ms) :
    Live b ((ofBackend b true).moves ms) := by
  obtain ⟨hx, hs⟩ := moves_scheduled (ofBackend_sound b true) (ofBackend_scheduled b true) ms
  refine ⟨hx, hs, background_moves _ ms, fun n => ?_, ?_⟩
  · exact not_isDisposed_moves rfl (h.not_retire n)
  · exact moves_induction (P := fun y => y.backend.handlers = b.handlers)
      (fun y m hy => (move_handlers y m).trans hy) rfl ms

/-! ## What a move in the course of time comes to -/

structure Keeps (x y : Exchange ρ) : Prop where
  backend : y.backend = x.backend
  clock : y.clock = x.clock
  calls : ∀ k c, x.call? k = some c → y.call? k = some c
  fresh : ∀ k c, y.call? k = some c → c.stage ≠ .queued → x.call? k = some c

theorem Keeps.of_calls (hb : y.backend = x.backend) (hclock : y.clock = x.clock)
    (hcalls : y.calls = x.calls) : Keeps x y := by
  have he : ∀ k, y.call? k = x.call? k := fun k => by rw [call?, hcalls, call?]
  exact ⟨hb, hclock, fun k c hc => (he k).trans hc, fun k c hc _ => (he k).symm.trans hc⟩

theorem keeps_enlist (x : Exchange ρ) (n : Nat) (i : Invocation) (note? : Option ρ) :
    Keeps x (x.enlist n i note?).1 := by
  refine ⟨rfl, rfl, fun k c hc => enlist_call? n i note? hc, fun k c hc hs => ?_⟩
  obtain ⟨id, he⟩ := enlist_call x n i note?
  by_cases hk : k = x.calls.length
  · subst hk
    obtain rfl := Option.some.inj (he.symm.trans hc)
    exact absurd rfl hs
  · have hlt : k < x.calls.length + 1 := by
      simpa [enlist, onCaller] using (List.getElem?_eq_some_iff.mp hc).1
    exact (List.getElem?_append_left (by omega)).symm.trans hc

/-- Callers may have numbered more calls; they have the app and the timeout they had. -/
def SameCallers (x y : Exchange ρ) : Prop :=
  ∀ (n : Nat) (d : Caller), y.callers[n]? = some d →
    ∃ (e : Caller) (nextCall : Nat), x.callers[n]? = some e ∧ d = { e with nextCall }

theorem sameCallers_enlist (x : Exchange ρ) (n : Nat) (i : Invocation) (note? : Option ρ) :
    SameCallers x (x.enlist n i note?).1 := by
  intro j d hd
  have hd : (x.callers.modify n Caller.countCall)[j]? = some d := hd
  rw [List.getElem?_modify] at hd
  obtain ⟨e, he, rfl⟩ := Option.map_eq_some_iff.mp hd
  by_cases hn : n = j
  · exact ⟨e, e.nextCall + 1, he, by rw [if_pos hn]; rfl⟩
  · exact ⟨e, e.nextCall, he, by rw [if_neg hn]⟩

theorem Fits.cases (h : x.Fits m) (hb : x.background = true) :
    Keeps x (x.move m) ∨
    (∃ y k, Keeps x y ∧ SameCallers x y ∧ x.move m = y.run k) ∨
    ∃ ms, m = .elapse ms := by
  cases m with
  | join | bindApp => exact .inl (.of_calls rfl rfl rfl)
  | submit n i note =>
    left
    simp only [move]
    split
    · obtain ⟨hback, hclock, hcalls, hfresh⟩ := keeps_enlist x n i (some note)
      have he : (x.enqueue n i note).1 = { (x.enlist n i (some note)).1 with
          ready := x.ready ++ [x.calls.length] } := by
        simp [enqueue, enlist, onCaller, hb]
      rw [he]
      exact ⟨hback, hclock, hcalls, hfresh⟩
    · exact .of_calls rfl rfl rfl
  | execute n i =>
    simp only [move]
    split
    · exact .inr (.inl ⟨_, _, keeps_enlist x n i none, sameCallers_enlist x n i none, rfl⟩)
    · exact .inl (.of_calls rfl rfl rfl)
  | proceed k =>
    let y := { x with ready := x.ready.filter (· ≠ k) }
    have hcallers : SameCallers x y := fun n d hd => ⟨d, d.nextCall, hd, rfl⟩
    exact .inr (.inl ⟨y, k, .of_calls rfl rfl rfl, hcallers, rfl⟩)
  | elapse ms => exact .inr (.inr ⟨ms, rfl⟩)
  | answer | retire => exact h.elim

theorem SameCallers.isDisposed (h : SameCallers x y) (hn : x.isDisposed n = false) :
    y.isDisposed n = false := by
  cases hd : y.callers[n]? with
  | none => rw [Exchange.isDisposed, hd, Option.any_none]
  | some d =>
    obtain ⟨e, nextCall, he, rfl⟩ := h n d hd
    rw [isDisposed_eq hd]
    exact (isDisposed_eq he).symm.trans hn

theorem run_call?_of_ne {i : Nat} (h : i ≠ k) : (x.run i).call? k = x.call? k := by
  have hset : ∀ s, (x.setStage i s).call? k = x.call? k := by
    intro s
    rw [setStage_call?]
    simp [h]
  rcases run_cases x i with ⟨he, -⟩ | ⟨c, d, -, -, hgo⟩
  · rw [he]
  · rcases hgo.settles_or_waits with ⟨b, o, -, he, -⟩ | ⟨b, due, o, -, -, -, he⟩
    · rw [he]
      exact hset _
    · rw [he]
      exact hset _

theorem elapse_call? (hc : x.call? k = some c) (ms : Nat) : (x.move (.elapse ms)).call? k =
    some (if c.due?.any fun due => due ≤ x.clock + ms then c.wake else c) := by
  have hc : x.calls[k]? = some c := hc
  simp only [move, wakeAt, wakeWhere, call?, List.getElem?_map, hc, Option.map_some]

theorem begun_of_elapse {ms : Nat} (h : (x.move (.elapse ms)).Begun k c) : ∃ e, x.Begun k e := by
  obtain ⟨d, hd, -, -, -, hs⟩ := h
  have hlt : k < x.calls.length := by
    simpa [move, wakeAt, wakeWhere] using (List.getElem?_eq_some_iff.mp hd).1
  have he : x.call? k = some x.calls[k] := List.getElem?_eq_getElem hlt
  refine ⟨x.calls[k], x.calls[k], he, rfl, rfl, rfl, fun hq => hs ?_⟩
  have hdue : x.calls[k].due? = none := by simp only [Call.due?, hq]
  rw [elapse_call? he, hdue, Option.any_none, if_neg Bool.false_ne_true] at hd
  exact Option.some.inj hd ▸ hq

/-! ## The first run of a call -/

theorem Fits.begins (hm : x.Fits m) (hb : x.background = true) (h : x.Begins m k c) :
    ∃ y, Keeps x y ∧ SameCallers x y ∧ x.move m = y.run k ∧ ∀ j e, x.Begins m j e → j = k := by
  have hkeeps : ∀ z, Keeps x z → ∀ j e, (∀ e, ¬x.Begun j e) → ¬z.Begun j e := by
    rintro z hz j e hx ⟨d, hd, -, -, -, hs⟩
    exact hx d ⟨d, hz.fresh j d hd hs, rfl, rfl, rfl, hs⟩
  rcases hm.cases hb with hk | ⟨y, i, hy, hcallers, he⟩ | ⟨ms, rfl⟩
  · exact absurd h.2 (hkeeps _ hk k c h.1)
  · have honly : ∀ j e, x.Begins m j e → j = i := by
      intro j e hj
      by_cases hi : i = j
      · exact hi.symm
      · obtain ⟨d, hd, hrest⟩ := hj.2
        rw [he, run_call?_of_ne hi] at hd
        exact absurd ⟨d, hd, hrest⟩ (hkeeps y hy j e hj.1)
    obtain rfl := honly k c h
    exact ⟨y, hy, hcallers, he, honly⟩
  · obtain ⟨e, he⟩ := begun_of_elapse h.2
    exact absurd he (h.1 e)

theorem outcome?_of_not_begun (h : ∀ e, ¬x.Begun k e) : x.outcome? k = none := by
  cases hc : x.call? k with
  | none => rw [outcome?, hc, Option.bind_none]
  | some c =>
    rw [outcome?, hc, Option.bind_some]
    cases ho : c.outcome? with
    | none => rfl
    | some o =>
      refine absurd ⟨c, hc, rfl, rfl, rfl, fun hs => ?_⟩ (h c)
      rw [Call.outcome?, hs] at ho
      cases ho

theorem accept_of_target {d : Caller} {app : String} (hd : d.disposed = false)
    (h : c.invocation.app?.or d.app? = some app) : d.accept c.invocation = .ok app := by
  simp [Caller.accept, hd, h]

/-! ## A call that has been run -/

section

variable {b : Backend} {start : Nat} {r : Reply}

/-- The call at the position was run first at a moment, with this reply, and has kept to it. -/
def OnCourse (x : Exchange ρ) (start : Nat) (r : Reply) (k : Nat) : Prop :=
  ∃ c, x.call? k = some c ∧ c.stage.Agrees start x.clock r

/-- A call keeps to its reply, and settles no sooner and no later than that says. -/
structure Proceeds (start : Nat) (r : Reply) (k : Nat) (x y : Exchange ρ) : Prop where
  course : y.OnCourse start r k
  due : x.outcome? k = none → ∀ o, y.outcome? k = some o → y.clock = start + r.delay

theorem OnCourse.same (h : x.OnCourse start r k)
    (hcall : ∀ c, x.call? k = some c → y.call? k = some c) (hclock : y.clock = x.clock) :
    Proceeds start r k x y := by
  obtain ⟨c, hc, ha⟩ := h
  have hc' := hcall c hc
  refine ⟨⟨c, hc', hclock ▸ ha⟩, fun hn o ho => ?_⟩
  rw [outcome?, hc] at hn
  rw [outcome?, hc'] at ho
  cases hn.symm.trans ho

theorem Proceeds.of_go {d : Caller} (hc : x.call? k = some c) (ha : c.stage.Agrees start x.clock r)
    (hd : d.disposed = false) (hgo : Go x k c d y) : Proceeds start r k x y := by
  cases hgo with
  | refused e hs | replied app b o hs | waits app b due o hs =>
    rw [hs] at ha
    exact ha.elim
  | finished o hs =>
    rw [hs] at ha
    have ho : finalOutcome d c.invocation o = o := by
      rw [finalOutcome, hd, if_neg Bool.false_ne_true]
    have hcall : (x.settle k c o).call? k = some { c with stage := .settled o } := by
      refine (setStage_call? x k (.settled o) k).trans ?_
      rw [hc, Option.map_some, if_pos rfl]
    rw [ho]
    exact ⟨⟨_, hcall, ha.2⟩, fun _ _ _ => ha.1⟩

theorem OnCourse.run (h : x.OnCourse start r k) (hu : ∀ n, x.isDisposed n = false) (i : Nat) :
    Proceeds start r k x (x.run i) := by
  by_cases hi : i = k
  · subst hi
    rcases run_cases x i with ⟨he, -⟩ | ⟨c, d, hc, hd, hgo⟩
    · rw [he]
      exact h.same (fun _ h => h) rfl
    · obtain ⟨e, he, ha⟩ := h
      obtain rfl : e = c := Option.some.inj (he.symm.trans hc)
      exact .of_go hc ha ((isDisposed_eq hd).symm.trans (hu _)) hgo
  · exact h.same (fun c hc => (run_call?_of_ne hi).trans hc) (run_clock x i)

theorem elapse_outcome? (hc : x.call? k = some c) (ms : Nat) :
    (x.move (.elapse ms)).outcome? k = x.outcome? k := by
  have hwake : c.wake.outcome? = c.outcome? := by
    rw [← c.wake.skeleton_outcome?, c.skeleton_wake, c.skeleton_outcome?]
  rw [outcome?, outcome?, elapse_call? hc, hc, Option.bind_some, Option.bind_some]
  split
  · exact hwake
  · rfl

/-- Time goes by no further than to the moment at which the call is due, and stands still there
until the call has gone on. -/
theorem OnCourse.elapse (h : x.OnCourse start r k) (hs : Scheduled x) {ms : Nat}
    (hfits : x.Fits (.elapse ms)) : Proceeds start r k x (x.move (.elapse ms)) := by
  obtain ⟨hready, hleast⟩ := hfits
  obtain ⟨c, hc, ha⟩ := h
  constructor
  case course =>
    refine ⟨_, elapse_call? hc ms, ?_⟩
    cases hstage : c.stage with
    | queued =>
      rw [hstage] at ha
      exact ha.elim
    | waiting due o =>
      rw [hstage] at ha
      have hdue : c.due? = some due := by simp only [Call.due?, hstage]
      have hle := hleast c (List.mem_of_getElem? hc) due hdue
      rw [hdue, Option.any_some]
      split
      · next hnow =>
        have hwake : c.wake.stage = .woken o := by simp only [Call.wake, hstage]
        rw [hwake]
        exact ⟨(Nat.le_antisymm hle (of_decide_eq_true hnow)).trans ha.1, ha.2⟩
      · rw [hstage]
        exact ha
    | woken o =>
      -- it is in the queue, and time goes by only while the queue is empty
      have hmem := hs.ready k c hc (by simp only [Call.outcome?, hstage])
        (by simp only [Call.due?, hstage])
      rw [hready] at hmem
      cases hmem
    | settled o =>
      rw [hstage] at ha
      have hdue : c.due? = none := by simp only [Call.due?, hstage]
      rw [hdue, Option.any_none, if_neg Bool.false_ne_true, hstage]
      exact ha
  case due =>
    intro hn o ho
    rw [elapse_outcome? hc ms, hn] at ho
    cases ho

theorem OnCourse.move (h : x.OnCourse start r k) (hx : Live b x) (hm : x.Fits m) :
    Proceeds start r k x (x.move m) := by
  rcases hm.cases hx.background with hk | ⟨y, i, hy, hcallers, he⟩ | ⟨ms, rfl⟩
  · exact h.same (hk.calls k) hk.clock
  · rw [he]
    have hsame := h.same (hy.calls k) hy.clock
    have hrun := hsame.course.run (fun n => hcallers.isDisposed (hx.undisposed n)) i
    obtain ⟨c, hc, -⟩ := h
    refine ⟨hrun.course, fun hn => hrun.due ?_⟩
    rwa [outcome?, hy.calls k c hc, ← hc]
  · exact h.elapse hx.scheduled hm

theorem run_first {d : Caller} {app : String} (hc : x.call? k = some c) (hs : c.stage = .queued)
    (hd : x.callers[c.caller]? = some d) (ha : d.accept c.invocation = .ok app)
    (hr : d.bounded c.invocation.tool (x.backend.respond (c.request app)) = r) :
    (x.run k).backend.received = x.backend.received ++ [c.request app] ∧
      Proceeds x.clock r k x (x.run k) ∧
      (r.delay = 0 → (x.run k).outcome? k = some r.outcome) := by
  have hrun : x.run k = x.send k c d app := by
    simp only [run, hc, hd, hs, start, ha]
  let sent := { x with backend := (x.backend.receive (c.request app)).1 }.onCaller c.caller
    (·.addPending c.id)
  have hsend : x.send k c d app = if r.delay = 0 then sent.settle k c r.outcome
      else sent.setStage k (.waiting (x.clock + r.delay) r.outcome) := hr ▸ rfl
  have hset : ∀ s, (x.setStage k s).call? k = some { c with stage := s } := by
    intro s
    simp [setStage_call?, hc]
  refine ⟨hrun ▸ (send_received hc app).2, ?_⟩
  have hclock := run_clock x k
  rw [hrun, hsend] at hclock ⊢
  by_cases hz : r.delay = 0
  · rw [if_pos hz] at hclock ⊢
    have hcall : (sent.settle k c r.outcome).call? k =
        some { c with stage := .settled r.outcome } := hset _
    refine ⟨⟨⟨_, hcall, rfl⟩, fun _ _ _ => ?_⟩, fun _ => ?_⟩
    · rw [hclock, hz, Nat.add_zero]
    · rw [outcome?, hcall]
      rfl
  · rw [if_neg hz] at hclock ⊢
    have hcall : (sent.setStage k (.waiting (x.clock + r.delay) r.outcome)).call? k =
        some { c with stage := .waiting (x.clock + r.delay) r.outcome } := hset _
    refine ⟨⟨⟨_, hcall, rfl, rfl⟩, fun _ o ho => ?_⟩, fun h => absurd h hz⟩
    rw [outcome?, hcall] at ho
    cases ho

theorem Begins.proceeds (h : x.Begins m k c) (hx : Live b x) (hm : x.Fits m) :
    ∃ d, x.callers[c.caller]? = some d ∧ ∀ app, x.target? c = some app →
      ∀ r, d.bounded c.invocation.tool (b.respond (c.request app)) = r →
        (x.move m).backend.received = x.backend.received ++ [c.request app] ∧
        Proceeds x.clock r k x (x.move m) ∧
        (r.delay = 0 → (x.move m).outcome? k = some r.outcome) := by
  obtain ⟨y, hy, hcallers, he, -⟩ := hm.begins hx.background h
  obtain ⟨e, hz, hcaller, hid, hinv, hs⟩ := h.2
  rw [he] at hz ⊢
  rcases run_cases y k with ⟨hrun, -⟩ | ⟨e', d, hc, hd, -⟩
  · rw [hrun] at hz
    exact absurd ⟨e, hy.fresh k e hz hs, rfl, rfl, rfl, hs⟩ (h.1 e)
  -- nobody has run the call before, and putting others on the list has left it as it was
  have hqueued : e'.stage = .queued := Classical.byContradiction fun hn =>
    h.1 e' ⟨e', hy.fresh k e' hc hn, rfl, rfl, rfl, hn⟩
  obtain ⟨f, hf, hfollows⟩ := follows_run k hc
  obtain rfl : f = e := Option.some.inj (hf.symm.trans hz)
  have hcaller' : e'.caller = c.caller := hfollows.caller.symm.trans hcaller
  have hinv' : e'.invocation = c.invocation := hfollows.invocation.symm.trans hinv
  obtain ⟨d, nextCall, hd', rfl⟩ := hcallers _ d hd
  rw [hcaller'] at hd'
  refine ⟨d, hd', fun app happ r hr => ?_⟩
  have hreq : e'.request app = c.request app := by
    rw [Call.request, Call.request, hinv', ← hfollows.id, hid]
  have happ : e'.invocation.app?.or d.app? = some app := by
    rw [hinv', ← happ, target?, appOf, hd', Option.bind_some]
  have hlive : d.disposed = false := (isDisposed_eq hd').symm.trans (hx.undisposed _)
  have hr' : d.bounded e'.invocation.tool (y.backend.respond (e'.request app)) = r := by
    rw [hinv', hreq, hy.backend, respond_congr hx.handlers, hr]
  obtain ⟨hreceived, ⟨hcourse, hdue⟩, hzero⟩ :=
    run_first hc hqueued hd (accept_of_target hlive happ) hr'
  rw [hreq, hy.backend] at hreceived
  rw [hy.clock] at hcourse hdue
  refine ⟨hreceived, ⟨hcourse, fun _ => hdue ?_⟩, hzero⟩
  rw [outcome?, hc, Option.bind_some, Call.outcome?, hqueued]

end

end Exchange

end DynamicUi
