import Mathlib.Data.List.Nodup
import DynamicUi.Proofs.Window.ExactlyOnce
import DynamicUi.Proofs.Window.Uses

/-! # Calls of a caller that is cleaned up

A call that is made after its caller was cleaned up comes to nothing: it settles as disposed, for
the one who waits for it and in the message it posts, and the session that gets the message writes
nothing. Only where calls cannot go on in the background a call that was to do so is not started, as
for any other caller. It fails at once, and the session puts this failure on record.
-/

namespace DynamicUi

open Json

variable {ρ : Type}

namespace Call

/-- How a call is refused whose caller is cleaned up. -/
def refusal (c : Call ρ) (background : Bool) : CallError :=
  if c.note?.isSome && !background then .notStarted c.invocation.tool
  else .disposed c.invocation.tool

/-- A call that is refused. It does not wait, and it is open only while it is queued in the
background. -/
structure Refused (c : Call ρ) (background : Bool) : Prop where
  due : c.due? = none
  outcome : ∀ o, c.outcome? = some o → o = .error (c.refusal background)
  queued : c.outcome? = none → c.note?.isSome = true ∧ background = true

theorem Refused.follows {c c' : Call ρ} {background : Bool} {gone : Prop}
    (h : c.Refused background) (hg : gone) (hf : c.Follows gone c') : c'.Refused background where
  due := hf.due hg h.due
  outcome o ho := by
    have he : c'.refusal background = c.refusal background := by
      simp only [refusal, hf.note, hf.invocation]
    rw [he]
    cases hc : c.outcome? with
    | some o' =>
      cases (hf.outcome o' hc).symm.trans ho
      exact h.outcome o hc
    | none =>
      obtain ⟨-, rfl⟩ := h.queued hc
      rw [hf.abandoned hg hc o ho, refusal, Bool.not_true, Bool.and_false]
      rfl
  queued hc' := by
    rw [hf.note]
    apply h.queued
    cases hc : c.outcome? with
    | none => rfl
    | some o =>
      rw [hf.outcome o hc] at hc'
      cases hc'

theorem Refused.outcome? {c : Call ρ} {background : Bool} (h : c.Refused background)
    (hc : (c.note?.isSome && background) = false) :
    c.outcome? = some (.error (c.refusal background)) := by
  cases ho : c.outcome? with
  | none =>
    obtain ⟨hnote, hb⟩ := h.queued ho
    simp [hnote, hb] at hc
  | some o => rw [h.outcome o ho]

end Call

namespace Exchange

variable {x y : Exchange ρ} {n k : Nat} {c : Call ρ} {m : Move ρ}

/-! ## A call that is made -/

def Move.enlists? : Move ρ → Option (Nat × Invocation × Option ρ)
  | .submit n i note => some (n, i, some note)
  | .execute n i => some (n, i, none)
  | _ => none

theorem lt_of_isDisposed (h : x.isDisposed n = true) : n < x.callers.length := by
  refine Nat.lt_of_not_le fun hn => ?_
  rw [isDisposed, List.getElem?_eq_none hn] at h
  cases h

theorem call?_submit (hb : x.background = true) (hn : n < x.callers.length) (i : Invocation)
    (note : ρ) : ∃ id, (x.move (.submit n i note)).call? x.calls.length =
      some ⟨n, id, i, some note, .queued⟩ := by
  obtain ⟨id, hc⟩ := enlist_call x n i (some note)
  refine ⟨id, ?_⟩
  simp only [move, if_pos hn, enqueue, enlist, onCaller, hb, if_true]
  exact hc

theorem call?_submit_unstarted (hb : x.background = false) (hn : n < x.callers.length)
    (i : Invocation) (note : ρ) : ∃ id, (x.move (.submit n i note)).call? x.calls.length =
      some ⟨n, id, i, some note, .settled (.error (.notStarted i.tool))⟩ := by
  obtain ⟨id, hc⟩ := enlist_call x n i (some note)
  have hb' : (x.enlist n i (some note)).1.background = false := hb
  have hk : (x.enlist n i (some note)).2 = x.calls.length := rfl
  refine ⟨id, ?_⟩
  simp only [move, if_pos hn, enqueue, hb', Bool.false_eq_true, if_false, hk, hc]
  refine (setStage_call? _ _ _ _).trans ?_
  rw [hc, Option.map_some, if_pos rfl]

theorem call?_execute (hn : n < x.callers.length) (i : Invocation) :
    ∃ c, (x.move (.execute n i)).call? x.calls.length = some c ∧ c.caller = n ∧
      c.invocation = i ∧ c.note? = none ∧ (x.isDisposed n = true → c.due? = none ∧
        c.outcome? = some (.error (.disposed i.tool))) := by
  obtain ⟨id, hc⟩ := enlist_call x n i none
  obtain ⟨c, hc', hf⟩ := follows_run x.calls.length hc
  have hmove : x.move (.execute n i) = (x.enlist n i none).1.run x.calls.length := if_pos hn
  refine ⟨c, hmove ▸ hc', hf.caller, hf.invocation, hf.note, fun hd => ?_⟩
  have hd' : (x.enlist n i none).1.isDisposed n = true :=
    (isDisposed_of_modify (m := n) (f := Caller.countCall) rfl (fun _ => rfl) n).trans hd
  have ho := run_disposed (lt_of_isDisposed hd') hc hd' rfl rfl
  rw [outcome?, hc'] at ho
  exact ⟨hf.due hd' rfl, ho⟩

theorem refused_made {i : Invocation} {note? : Option ρ} (hm : m.enlists? = some (n, i, note?))
    (hn : n < x.callers.length) : ∃ c, (x.move m).call? x.calls.length = some c ∧ c.caller = n ∧
      c.invocation = i ∧ c.note? = note? ∧
      (x.isDisposed n = true → c.Refused x.background) := by
  cases m with
  | submit n' i' note =>
    cases hm
    cases hb : x.background with
    | true =>
      obtain ⟨id, hc⟩ := call?_submit hb hn i note
      refine ⟨_, hc, rfl, rfl, rfl, fun _ => ⟨rfl, ?_, fun _ => ⟨rfl, rfl⟩⟩⟩
      rintro o ⟨⟩
    | false =>
      obtain ⟨id, hc⟩ := call?_submit_unstarted hb hn i note
      refine ⟨_, hc, rfl, rfl, rfl, fun _ => ⟨rfl, ?_, ?_⟩⟩
      · rintro o ⟨⟩
        rfl
      · rintro ⟨⟩
  | execute n' i' =>
    cases hm
    obtain ⟨c, hc, hcaller, hinvocation, hnote, hd⟩ := call?_execute (x := x) hn i
    refine ⟨c, hc, hcaller, hinvocation, hnote, fun hdisposed => ?_⟩
    obtain ⟨hdue, ho⟩ := hd hdisposed
    refine ⟨hdue, fun o hco => ?_, fun hco => ?_⟩
    · cases ho.symm.trans hco
      rw [Call.refusal, hnote, hinvocation]
      rfl
    · rw [ho] at hco
      cases hco
  | join | bindApp | proceed | answer | elapse | retire => cases hm

theorem Deed.length_calls (h : Deed x y) : y.calls.length = x.calls.length := by
  cases h with
  | alike h => simpa using congrArg List.length h.calls
  | join | bindApp => rfl
  | settle | wait => simp [Exchange.settle, onCaller, setStage]

theorem enlists_of_call? (hc : (x.move m).call? k = some c) (hk : x.calls.length ≤ k) :
    k = x.calls.length ∧ ∃ n i note?, m.enlists? = some (n, i, note?) ∧ n < x.callers.length := by
  have hlen : (x.move m).calls.length = (x.begin m).calls.length :=
    deeds_induction (P := fun y => y.calls.length = (x.begin m).calls.length)
      (fun _ _ h hy => h.length_calls.trans hy) (begin_deeds x m) rfl
  have hlt : k < (x.begin m).calls.length := hlen ▸ (List.getElem?_eq_some_iff.mp hc).1
  cases m with
  | submit n i note =>
    simp only [begin] at hlt
    split at hlt
    · next hn =>
      simp only [enlist, onCaller, List.length_append, List.length_singleton] at hlt
      exact ⟨by omega, n, i, some note, rfl, hn⟩
    · omega
  | execute n i =>
    simp only [begin] at hlt
    split at hlt
    · next hn =>
      simp only [enlist, onCaller, List.length_append, List.length_singleton] at hlt
      exact ⟨by omega, n, i, none, rfl, hn⟩
    · omega
  | join | bindApp | proceed | answer | elapse | retire => exact absurd hk (Nat.not_le.mpr hlt)

theorem outcome?_of_enlists {i : Invocation} {note? : Option ρ}
    (hm : m.enlists? = some (n, i, note?)) (hd : x.isDisposed n = true)
    (hnote : (note?.isSome && x.background) = false) :
    (x.move m).outcome? x.calls.length = some
      (.error <|
        if note?.isSome && !x.background then .notStarted i.tool else .disposed i.tool) := by
  obtain ⟨c, hc, rfl, rfl, rfl, hrefused⟩ := refused_made hm (lt_of_isDisposed hd)
  rw [outcome?, hc]
  exact (hrefused hd).outcome? hnote

/-! ## From then on -/

/-- The caller is cleaned up, and all its calls but those under the old ids are refused. -/
structure Refuses (x : Exchange ρ) (n : Nat) (old : List Nat) : Prop where
  disposed : x.isDisposed n = true
  calls : ∀ k c, x.call? k = some c → c.caller = n → c.id ∉ old → c.Refused x.background

theorem Refuses.start (h : x.isDisposed n = true) : x.Refuses n (x.idsOf n) where
  disposed := h
  calls k c hc hn hid := by
    refine absurd (List.mem_map_of_mem ?_) hid
    exact List.mem_filter.mpr ⟨List.mem_of_getElem? hc, decide_eq_true hn⟩

theorem Refuses.move {old : List Nat} (h : x.Refuses n old) (m : Move ρ) :
    (x.move m).Refuses n old where
  disposed := by rw [isDisposed_move, h.disposed, Bool.true_or]
  calls k c hc hn hid := by
    have hb : (x.move m).background = x.background := background_moves x [m]
    rw [hb]
    cases hk : x.call? k with
    | some c' =>
      obtain ⟨e, he, hf⟩ := follows_move m hk
      cases he.symm.trans hc
      have hn' : c'.caller = n := hf.caller.symm.trans hn
      exact (h.calls k c' hk hn' (hf.id ▸ hid)).follows (hn' ▸ h.disposed) hf
    | none =>
      obtain ⟨rfl, n', i, note?, hm, hlt⟩ :=
        enlists_of_call? hc (List.getElem?_eq_none_iff.mp hk)
      obtain ⟨e, he, rfl, -, -, hr⟩ := refused_made hm hlt
      cases he.symm.trans hc
      exact hr (hn ▸ h.disposed)

structure RefusesCall (x : Exchange ρ) (n id : Nat) (background : Bool) : Prop where
  disposed : x.isDisposed n = true
  call : ∃ k c, x.call? k = some c ∧ c.caller = n ∧ c.id = id ∧ c.Refused background

theorem RefusesCall.move {id : Nat} {background : Bool} (h : x.RefusesCall n id background)
    (m : Move ρ) : (x.move m).RefusesCall n id background where
  disposed := by rw [isDisposed_move, h.disposed, Bool.true_or]
  call := by
    obtain ⟨k, c, hc, hn, hid, hr⟩ := h.call
    obtain ⟨c', hc', hf⟩ := follows_move m hc
    exact ⟨k, c', hc', hf.caller.trans hn, hf.id.trans hid, hr.follows (hn ▸ h.disposed) hf⟩

inductive Used : Exchange ρ → Prop
  | start (b : Backend) (background : Bool) : Used (ofBackend b background)
  | move {x : Exchange ρ} (m : Move ρ) : Used x → Used (x.move m)
  | enter {x : Exchange ρ} (background : Bool) : Used x → Used { x with background }

theorem Used.sound (h : x.Used) : x.Sound := by
  induction h with
  | start b background => exact ofBackend_sound b background
  | move m _ ih => exact ih.move m
  | enter background _ ih => exact ih.enter background

theorem Used.scheduled (h : x.Used) : x.Scheduled := by
  induction h with
  | start b background => exact ofBackend_scheduled b background
  | move m hx ih => exact ih.move hx.sound m
  | enter background _ ih => exact ih.enter background

theorem Used.delivered (h : x.Used) (n : Nat) : x.Delivered n [] := by
  induction h with
  | start b background => exact ofBackend_delivered b background n
  | move m _ ih => exact ih.move m
  | enter background _ ih => exact ih

theorem Used.moves (h : x.Used) (ms : List (Move ρ)) : (x.moves ms).Used :=
  moves_induction (fun _ m h => h.move m) h ms

theorem await_settles (hx : x.Used) (hc : x.call? k = some c) :
    ∃ ms : List (Move ρ), x.await k = x.moves ms ∧ ((x.moves ms).outcome? k).isSome = true := by
  obtain ⟨ms, -, he, hdone⟩ := waitUntil_done hx.sound hx.scheduled
    (fun y => (y.outcome? k).isSome) fun ms _ hsettled => by
      obtain ⟨c', hc', -⟩ := calls_follow_moves ms hc
      rw [outcome?, hc']
      exact Option.isSome_iff_ne_none.mpr (hsettled c' (List.mem_of_getElem? hc'))
  exact ⟨ms, he, hdone⟩

theorem callNow_eq_move (hd : x.isDisposed n = true) (i : Invocation) :
    x.callNow n i = (x.move (.execute n i), x.calls.length) := by
  have hn := lt_of_isDisposed hd
  have hmove : x.move (.execute n i) = (x.enlist n i none).1.run x.calls.length := if_pos hn
  obtain ⟨c, hc, -, -, -, hrefused⟩ := refused_made (m := .execute n i) rfl hn
  have hdue : ((x.move (.execute n i)).call? x.calls.length).bind Call.due? = none := by
    rw [hc]
    exact (hrefused hd).due
  have hk : (x.enlist n i none).2 = x.calls.length := rfl
  rw [hmove] at hdue ⊢
  simp only [callNow, hk, hdue]

/-- What becomes of a call at a position: it is made by the caller, with this invocation and note,
it comes to this outcome and to no other, also when it is awaited, and its message says the same. -/
structure ComesTo (x : Exchange ρ) (k n : Nat) (i : Invocation) (note? : Option ρ) (o : Outcome) :
    Prop where
  call : ∃ c, x.call? k = some c ∧ c.caller = n ∧ c.invocation = i ∧ c.note? = note? ∧
    (x.await k).posted.filter (fun m => m.caller = n ∧ m.callId = c.id) =
      (note?.map fun note => ⟨n, c.id, note, o⟩).toList
  only : ∀ o', x.outcome? k = some o' → o' = o
  awaited : (x.await k).outcome? k = some o

theorem comesTo_of_refused {background : Bool} (hx : x.Used) (hc : x.call? k = some c)
    (hd : x.isDisposed c.caller = true) (h : c.Refused background) :
    x.ComesTo k c.caller c.invocation c.note? (.error (c.refusal background)) := by
  obtain ⟨ms, he, hsettled⟩ := await_settles hx hc
  obtain ⟨e, hke, hf⟩ := calls_follow_moves ms hc
  have hrefused : e.Refused background := h.follows hd hf
  have hrefusal : e.refusal background = c.refusal background := by
    simp only [Call.refusal, hf.note, hf.invocation]
  have ho : e.outcome? = some (.error (c.refusal background)) := by
    rw [outcome?, hke] at hsettled
    obtain ⟨o, ho⟩ := Option.isSome_iff_exists.mp hsettled
    have ho : e.outcome? = some o := ho
    rw [ho, hrefused.outcome o ho, hrefusal]
  have hawaited := hx.moves ms
  refine ⟨⟨c, hc, rfl, rfl, rfl, ?_⟩, fun o' ho' => ?_, ?_⟩
  · have hposted := posted_of_call hawaited.sound (hawaited.delivered e.caller)
      (List.mem_of_getElem? hke)
    rw [Call.settlement?, ho, hf.caller, hf.id] at hposted
    rw [he, hposted]
    simp only [Option.bind_some, Call.message?, hf.note, hf.caller, hf.id]
  · rw [outcome?, hc] at ho'
    exact h.outcome o' ho'
  · rw [he, outcome?, hke]
    exact ho

theorem comesTo_of_enlists (hx : x.Used) (hd : x.isDisposed n = true) {i : Invocation}
    {note? : Option ρ} (hm : m.enlists? = some (n, i, note?)) (more : List (Move ρ)) :
    ((x.move m).moves more).ComesTo x.calls.length n i note?
      (.error <|
        if note?.isSome && !x.background then .notStarted i.tool else .disposed i.tool) := by
  obtain ⟨c, hc, rfl, rfl, rfl, hrefused⟩ := refused_made hm (lt_of_isDisposed hd)
  have hd' : (x.move m).isDisposed c.caller = true := by rw [isDisposed_move, hd, Bool.true_or]
  obtain ⟨e, he, hf⟩ := calls_follow_moves more hc
  have hd'' : ((x.move m).moves more).isDisposed e.caller = true := by
    rw [hf.caller]
    refine moves_induction (P := (·.isDisposed c.caller = true)) (fun y m h => ?_) hd' more
    rw [isDisposed_move, h, Bool.true_or]
  have hends := comesTo_of_refused ((hx.move m).moves more) he hd''
    ((hrefused hd).follows hd' hf)
  rwa [Call.refusal, hf.caller, hf.invocation, hf.note] at hends

end Exchange

/-! ## A session whose caller is cleaned up -/

namespace Window

theorem Hosted.step {w : Window} (hw : w.Hosted) (op : Op) :
    (w.step op).Hosted ∧ (w.step op).session.instanceId = w.session.instanceId := by
  cases hop : op.isOwn with
  | true =>
    have hc := continues_step hw hop
    exact ⟨hc.hosted hw, hc.instanceId⟩
  | false =>
    cases op with
    | elsewhere m =>
      simp only [Window.step]
      split
      · exact ⟨hw, rfl⟩
      · exact ⟨⟨hw.reached.move m, Exchange.callers_length_move hw.present m⟩, rfl⟩
    | takenBy n =>
      simp only [Window.step]
      split
      · exact ⟨hw, rfl⟩
      · exact ⟨⟨hw.reached.take n, hw.present⟩, rfl⟩
    | enter background => exact ⟨⟨hw.reached.enter background, hw.present⟩, rfl⟩
    | render | display | interact | scroll | pump | settle | receive | write | remove => cases hop

/-- What moves and taken messages keep of an exchange, every operation keeps that leaves the
background as it is, and so do the others if it does not depend on that. -/
theorem Hosted.step_exchange {w : Window} (hw : w.Hosted) {P : Exchange Note → Prop}
    (hm : ∀ x (m : Exchange.Move Note), P x → P (x.move m))
    (ht : ∀ x n, P x → P (x.takeOldest n)) (h : P w.exchange) {op : Op}
    (he : ∀ background, op = .enter background → P { w.exchange with background }) :
    P (w.step op).exchange := by
  cases hop : op.isOwn with
  | true =>
    exact Exchange.uses_induction (fun x m _ _ => hm x m) ht (continues_step hw hop).uses h
  | false =>
    cases op with
    | elsewhere m =>
      simp only [Window.step]
      split
      · exact h
      · exact hm _ m h
    | takenBy n =>
      simp only [Window.step]
      split
      · exact h
      · exact ht _ n h
    | enter background => exact he background rfl
    | render | display | interact | scroll | pump | settle | receive | write | remove => cases hop

theorem opening_hosted {x : Exchange Note} (hx : x.Reached) (timeout : Option Nat) (app : String)
    (spec : Spec) : (Window.opening x timeout app spec).Hosted where
  reached := by
    have he : (Window.opening x timeout app spec).exchange = _ :=
      Exchange.addCaller_moves x timeout app
    rw [he]
    exact (hx.move _).move _
  present := by simp [Window.opening, Exchange.addCaller, Session.start]

end Window

namespace Ledger

open Window (Op)

variable {l : Ledger}

theorem hosted_run (hw : l.window.Hosted) (ops : List Op) : (l.run ops).window.Hosted ∧
    (l.run ops).window.session.instanceId = l.window.session.instanceId := by
  induction ops generalizing l with
  | nil => exact ⟨hw, rfl⟩
  | cons op ops ih =>
    obtain ⟨hstep, hn⟩ := hw.step op
    obtain ⟨hrun, hn'⟩ := ih (l := l.step op) hstep
    exact ⟨hrun, hn'.trans hn⟩

theorem run_exchange (hw : l.window.Hosted) {P : Exchange Note → Prop}
    (hm : ∀ x (m : Exchange.Move Note), P x → P (x.move m))
    (ht : ∀ x n, P x → P (x.takeOldest n))
    {ops : List Op} (he : ∀ x background, .enter background ∈ ops → P x → P { x with background })
    (h : P l.window.exchange) : P (l.run ops).window.exchange := by
  induction ops generalizing l with
  | nil => exact h
  | cons op ops ih =>
    refine ih (l := l.step op) (hw.step op).1
      (fun x background hmem => he x background (List.mem_cons_of_mem op hmem)) ?_
    refine hw.step_exchange hm ht h fun background hop => ?_
    exact he _ background (hop ▸ List.mem_cons_self) h

theorem background_run (hw : l.window.Hosted) {ops : List Op}
    (he : ∀ background, .enter background ∉ ops) :
    (l.run ops).window.exchange.background = l.window.exchange.background :=
  run_exchange hw (P := fun x => x.background = l.window.exchange.background)
    (fun x m h => (x.background_moves [m]).trans h) (fun _ _ h => h)
    (fun _ background hmem => absurd hmem (he background)) rfl

theorem refused_step (hw : l.window.Hosted) {n : Nat}
    (hd : l.window.exchange.isDisposed n = true) (op : Op) {k : Nat} {c : Call Note}
    (hc : (l.step op).window.exchange.call? k = some c) (hn : c.caller = n)
    (hid : c.id ∉ l.window.exchange.idsOf n) : c.Refused l.window.exchange.background := by
  by_cases henter : ∃ background, op = .enter background
  · obtain ⟨background, rfl⟩ := henter
    exact (Exchange.Refuses.start hd).calls k c hc hn hid
  · have hrefuses : (l.step op).window.exchange.Refuses n (l.window.exchange.idsOf n) ∧
        (l.step op).window.exchange.background = l.window.exchange.background :=
      hw.step_exchange
        (P := fun x => x.Refuses n _ ∧ x.background = l.window.exchange.background)
        (fun x m h => ⟨h.1.move m, (x.background_moves [m]).trans h.2⟩)
        (fun x n h => ⟨⟨h.1.disposed, h.1.calls⟩, h.2⟩) ⟨.start hd, rfl⟩
        fun background he => absurd ⟨background, he⟩ henter
    exact hrefuses.2 ▸ hrefuses.1.calls k c hc hn hid

theorem Balanced.exists_call (hb : l.Balanced) {m : Settlement Note}
    (hm : m ∈ l.applied ++ l.window.inbox) : ∃ c ∈ l.window.exchange.calls,
      c.caller = l.window.session.instanceId ∧ c.id = m.callId ∧ c.note?.isSome = true ∧
        c.outcome? = some m.outcome := by
  obtain ⟨c, hc, hs⟩ := List.mem_filterMap.mp (hb.delivered.subset hm)
  obtain ⟨hc, hcaller⟩ := List.mem_filter.mp hc
  obtain ⟨o, ho, hmessage⟩ := Option.bind_eq_some_iff.mp hs
  obtain ⟨note, hnote, rfl⟩ := Option.map_eq_some_iff.mp hmessage
  exact ⟨c, hc, of_decide_eq_true hcaller, rfl, hnote ▸ rfl, ho⟩

theorem mem_idsOf {x : Exchange ρ} {n : Nat} {c : Call ρ} (hc : c ∈ x.calls)
    (hn : c.caller = n) : c.id ∈ x.idsOf n :=
  List.mem_map_of_mem (List.mem_filter.mpr ⟨hc, decide_eq_true hn⟩)

/-- The message of a call that a session makes after its caller was cleaned up says how it was
refused when it was made. -/
theorem refused_message (hb : l.Balanced) (hw : l.window.Hosted) {n : Nat}
    (hn : l.window.session.instanceId = n) (hd : l.window.exchange.isDisposed n = true)
    {ops : List Op} {m : Settlement Note} (hm : m ∈ (l.run ops).applied ++ (l.run ops).window.inbox)
    (hid : m.callId ∉ l.window.exchange.idsOf n) :
    ∃ made op rest, ops = made ++ op :: rest ∧
      m.callId ∉ (l.run made).window.exchange.idsOf n ∧
      m.callId ∈ ((l.run made).step op).window.exchange.idsOf n ∧
      ∃ tool, m.outcome = .error
        (if (l.run made).window.exchange.background then .disposed tool else .notStarted tool) := by
  induction ops generalizing l with
  | nil =>
    obtain ⟨c, hc, hcaller, hcid, -⟩ := hb.exists_call hm
    exact absurd (hcid ▸ mem_idsOf hc (hcaller.trans hn)) hid
  | cons op ops ih =>
    obtain ⟨hw', hn'⟩ := hw.step op
    have hn' : (l.step op).window.session.instanceId = n := hn'.trans hn
    have hd' : (l.step op).window.exchange.isDisposed n = true :=
      hw.step_exchange (P := (·.isDisposed n = true))
        (fun x m h => by rw [Exchange.isDisposed_move, h, Bool.true_or]) (fun _ _ h => h) hd
        fun _ _ => hd
    by_cases hnew : m.callId ∈ (l.step op).window.exchange.idsOf n
    · refine ⟨[], op, ops, rfl, hid, hnew, ?_⟩
      obtain ⟨c, hc, hcid⟩ := List.mem_map.mp hnew
      obtain ⟨hc, hcaller⟩ := List.mem_filter.mp hc
      obtain ⟨k, hk⟩ := List.getElem?_of_mem hc
      have hcaller : c.caller = n := of_decide_eq_true hcaller
      have hmade : (l.step op).window.exchange.RefusesCall n m.callId
          l.window.exchange.background :=
        ⟨hd', k, c, hk, hcaller, hcid, refused_step hw hd op hk hcaller (hcid ▸ hid)⟩
      have hkept : ((l.step op).run ops).window.exchange.RefusesCall n m.callId
          l.window.exchange.background :=
        run_exchange hw' (P := (·.RefusesCall n m.callId l.window.exchange.background))
          (fun _ m h => h.move m) (fun _ _ h => ⟨h.disposed, h.call⟩)
          (fun _ _ _ h => ⟨h.disposed, h.call⟩) hmade
      obtain ⟨-, k', e, he, hecaller, heid, hrefused⟩ := hkept
      -- Ids tell the calls of a caller apart, so this is the one the message comes from.
      have hlater : ((l.step op).run ops).Balanced := (hb.step op).run ops
      obtain ⟨e', he', hcaller', hid', hnote, ho⟩ := hlater.exists_call hm
      have hcaller' : e'.caller = n := hcaller'.trans ((hosted_run hw' ops).2.trans hn')
      obtain rfl : e' = e :=
        List.inj_on_of_nodup_map (hlater.sound.ids_nodup n)
          (List.mem_filter.mpr ⟨he', decide_eq_true hcaller'⟩)
          (List.mem_filter.mpr ⟨List.mem_of_getElem? he, decide_eq_true hecaller⟩)
          (hid'.trans heid.symm)
      refine ⟨e'.invocation.tool, (hrefused.outcome _ ho).trans ?_⟩
      rw [Call.refusal, hnote, run_nil]
      cases l.window.exchange.background <;> rfl
    · obtain ⟨made, op', rest, rfl, hbefore, hafter, ho⟩ := ih (hb.step op) hw' hn' hd' hm hnew
      exact ⟨op :: made, op', rest, rfl, hbefore, hafter, ho⟩

/-- However an exchange has been used, in the background or not: a call that is awaited where it is
made comes to nothing but an end as disposed once its caller is cleaned up, and so does one that is
made in the background, for whoever awaits it and in its message. Where there is no background such
a call fails at once because it is not started. So what a session writes for a call it makes after
its caller was cleaned up is nothing, or that failure if there was no background when it was made.
-/
theorem disposed_caller_refused :
    (∀ {x : Exchange ρ}, x.Used → ∀ n, x.isDisposed n = true → ∀ (background : Bool)
      (i : Invocation),
      let y := { x with background }
      let k := y.calls.length
      (∀ more, ((y.move (.execute n i)).moves more).ComesTo k n i none
        (.error (.disposed i.tool))) ∧
      (y.callNow n i).1.outcome? (y.callNow n i).2 = some (.error (.disposed i.tool)) ∧
      ∀ note,
        (∀ more, ((y.move (.submit n i note)).moves more).ComesTo k n i (some note)
          (.error (if background then .disposed i.tool else .notStarted i.tool))) ∧
        (background = false →
          (y.move (.submit n i note)).outcome? k = some (.error (.notStarted i.tool)))) ∧
    ∀ {x : Exchange Note}, x.Reached → ∀ timeout app spec before after,
      let l := (Ledger.opening x timeout app spec).run before
      let later := l.run after
      let n := l.window.session.instanceId
      l.window.exchange.isDisposed n = true →
      ∀ m ∈ later.applied ++ later.window.inbox, m.callId ∉ l.window.exchange.idsOf n →
        ∃ made op rest, after = made ++ op :: rest ∧
          m.callId ∉ (l.run made).window.exchange.idsOf n ∧
          m.callId ∈ ((l.run made).step op).window.exchange.idsOf n ∧
          m.output? = if (l.run made).window.exchange.background then none else
            some (Window.errorKey m.note.component, .record [("code", .string "INTERNAL"),
              ("message", .string "no async runtime to run the call on")]) := by
  constructor
  · intro x hx n hd background i y k
    have hy : y.Used := hx.enter background
    have hdy : y.isDisposed n = true := hd
    have hexecute : ∀ more, ((y.move (.execute n i)).moves more).ComesTo k n i none
        (.error (.disposed i.tool)) :=
      Exchange.comesTo_of_enlists (m := .execute n i) hy hdy rfl
    refine ⟨hexecute, ?_, fun note => ⟨fun more => ?_, ?_⟩⟩
    · rw [Exchange.callNow_eq_move hdy]
      exact Exchange.outcome?_of_enlists (m := .execute n i) rfl hdy rfl
    · have hends := Exchange.comesTo_of_enlists (m := .submit n i note) hy hdy rfl more
      have hb : y.background = background := rfl
      rw [hb] at hends
      cases background <;> exact hends
    · rintro rfl
      exact Exchange.outcome?_of_enlists (m := .submit n i note) rfl hdy rfl
  · intro x hx timeout app spec before after l later n hd m hm hid
    have hb : l.Balanced :=
      (show (Ledger.opening x timeout app spec).Balanced from
        Window.Balanced.opening hx timeout app spec).run before
    have hw : l.window.Hosted :=
      (hosted_run (l := .opening x timeout app spec)
        (Window.opening_hosted hx timeout app spec) before).1
    obtain ⟨made, op, rest, hafter, hbefore, hmade, tool, ho⟩ := refused_message hb hw rfl hd hm hid
    refine ⟨made, op, rest, hafter, hbefore, hmade, ?_⟩
    rw [Settlement.output?, ho]
    cases (l.run made).window.exchange.background <;> rfl

/-- A caller without an app is cleaned up while a call of it is queued, and what it calls then comes
to nothing. So does the click on a button whose session was cleaned up after it was rendered. -/
theorem refused_after_cleanup :
    let x : Exchange Unit :=
      (Exchange.ofBackend .empty true).moves [.join none, .submit 0 (.ofTool "early") (), .retire 0]
    let button : Node :=
      .leaf { Component.plain "b" "button" with events := [("click", .ofTool "late")] }
    let l := (Ledger.opening (.ofBackend .empty true) none "app"
      { Spec.untitled with roots := [button] }).run
        [.render (.standard .standard), .elsewhere (.retire 0)]
    let later := l.run [.interact "b" "click" none, .elsewhere (.proceed 0), .pump]
    x.Used ∧ x.isDisposed 0 = true ∧
      (x.callNow 0 (.ofTool "late")).1.outcome? 1 = some (.error (.disposed "late")) ∧
      ((x.move (.submit 0 (.ofTool "late") ())).await 1).outcome? 1 =
        some (.error (.disposed "late")) ∧
      l.window.exchange.isDisposed l.window.session.instanceId = true ∧
      later.applied.length = 1 ∧ ∀ m ∈ later.applied, m.output? = none := by
  intro x button l later
  have hx : x.Used := .moves (.start _ true) _
  have hrefused := disposed_caller_refused.1 hx 0 rfl true (.ofTool "late")
  refine ⟨hx, rfl, hrefused.2.1, ((hrefused.2.2 ()).1 []).awaited, rfl, by decide +kernel,
    fun m hm => ?_⟩
  have hids : l.window.exchange.idsOf l.window.session.instanceId = [] := rfl
  obtain ⟨made, op, rest, hafter, -, -, ho⟩ := (disposed_caller_refused (ρ := Unit)).2
    (.start _ true) none "app" _ _ _ rfl m (List.mem_append_left _ hm) (hids ▸ List.not_mem_nil)
  have hmade : ∀ background, .enter background ∉ made := by
    intro background hmem
    have hmem := List.mem_append_left (op :: rest) hmem
    rw [← hafter] at hmem
    simp at hmem
  have hw : l.window.Hosted :=
    (hosted_run (l := .opening _ none "app" _)
      (Window.opening_hosted (.start _ true) none "app" _) _).1
  have hb : (l.run made).window.exchange.background = true := background_run hw hmade
  exact ho.trans (if_pos hb)

/-- Where there is no background, a call of a caller that is cleaned up is not started instead of
disposed, and a session records that. -/
theorem unstarted_although_disposed :
    let x : Exchange Unit :=
      (Exchange.ofBackend .empty false).moves [.join none, .bindApp 0 "app", .retire 0]
    let button : Node :=
      .leaf { Component.plain "b" "button" with events := [("click", .ofTool "late")] }
    let l := (Ledger.opening (.ofBackend .empty false) none "app"
      { Spec.untitled with roots := [button] }).run
        [.render (.standard .standard), .elsewhere (.retire 0), .interact "b" "click" none, .pump]
    x.isDisposed 0 = true ∧
      (x.move (.submit 0 (.ofTool "late") ())).outcome? 0 ≠ some (.error (.disposed "late")) ∧
      (l.window.store.get? "b:error").isSome := by
  refine ⟨rfl, fun h => ?_, rfl⟩
  have hstarted : some (Except.error (CallError.notStarted "late")) =
      (some (.error (.disposed "late")) : Option Outcome) := h
  simp [CallError.notStarted] at hstarted

end Ledger

end DynamicUi
