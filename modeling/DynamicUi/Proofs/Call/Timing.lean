import Mathlib.Data.List.Induction
import DynamicUi.Proofs.Call.Reply

/-! # When calls settle

In the course of time a call settles as the backend replied when it was run first, and as late after
that as the reply took, or else fails when its timeout was over. The calls around it, and how the
time is split, make no difference. Every call that finds an app is one request to the backend.
-/

namespace DynamicUi.Exchange

variable {ρ : Type} {b : Backend} {x : Exchange ρ} {ms : List (Move ρ)} {m : Move ρ} {c : Call ρ}
variable {r : Reply} {o : Outcome} {k n start t : Nat}

/-! ## What has become of a call in a run -/

def SettlesAt (x : Exchange ρ) (ms : List (Move ρ)) (k t : Nat) (o : Outcome) : Prop :=
  ∃ pre m post, ms = pre ++ m :: post ∧ (x.moves pre).outcome? k = none ∧
    ((x.moves pre).move m).outcome? k = some o ∧ ((x.moves pre).move m).clock = t

/-- The moves settle the call so at this moment, or have not come past it. -/
def EndsAt (x : Exchange ρ) (ms : List (Move ρ)) (k t : Nat) (o : Outcome) : Prop :=
  match (x.moves ms).outcome? k with
  | none => (x.moves ms).clock ≤ t
  | some o' => o' = o ∧ x.SettlesAt ms k t o

theorem SettlesAt.append (h : x.SettlesAt ms k t o) (more : List (Move ρ)) :
    x.SettlesAt (ms ++ more) k t o := by
  obtain ⟨pre, m, post, rfl, h⟩ := h
  exact ⟨pre, m, post ++ more, by rw [List.append_assoc, List.cons_append], h⟩

/-- The call has kept to its reply, and if it is settled, then since the moment that was due. -/
structure Holds (x : Exchange ρ) (ms : List (Move ρ)) (start : Nat) (r : Reply) (k : Nat) :
    Prop where
  course : (x.moves ms).OnCourse start r k
  settled : ∀ o, (x.moves ms).outcome? k = some o → x.SettlesAt ms k (start + r.delay) o

theorem Proceeds.holds (h : Proceeds start r k (x.moves ms) ((x.moves ms).move m))
    (hsettled : ∀ o, (x.moves ms).outcome? k = some o → x.SettlesAt ms k (start + r.delay) o) :
    x.Holds (ms ++ [m]) start r k := by
  constructor
  case course => exact moves_concat x ms m ▸ h.course
  case settled =>
    intro o ho
    rw [moves_concat] at ho
    cases hn : (x.moves ms).outcome? k with
    | none => exact ⟨ms, m, [], rfl, hn, ho, h.due hn o ho⟩
    | some e =>
      obtain rfl : e = o := Option.some.inj ((outcome?_moves [m] hn).symm.trans ho)
      exact (hsettled e hn).append [m]

theorem Holds.append {more : List (Move ρ)} (h : (ofBackend b true).Holds ms start r k)
    (hms : (ofBackend b true : Exchange ρ).Timely (ms ++ more)) :
    (ofBackend b true).Holds (ms ++ more) start r k := by
  induction more using List.reverseRecOn with
  | nil => rwa [List.append_nil]
  | append_singleton more m ih =>
    rw [← List.append_assoc] at hms ⊢
    obtain ⟨hms, hm⟩ := timely_concat.mp hms
    have hh := ih hms
    exact (hh.course.move hms.live hm).holds hh.settled

theorem Holds.endsAt (h : x.Holds ms start r k) (hs : Scheduled (x.moves ms)) :
    x.EndsAt ms k (start + r.delay) r.outcome := by
  obtain ⟨⟨c, hc, ha⟩, hsettled⟩ := h
  have ho : (x.moves ms).outcome? k = c.outcome? := by rw [outcome?, hc, Option.bind_some]
  rw [EndsAt, ho]
  cases hstage : c.stage with
  | queued =>
    rw [hstage] at ha
    exact ha.elim
  | waiting due o =>
    rw [hstage] at ha
    have hlt := hs.due k c due hc (by simp only [Call.due?, hstage])
    simp only [Call.outcome?, hstage]
    exact ha.1 ▸ Nat.le_of_lt hlt
  | woken o =>
    rw [hstage] at ha
    simp only [Call.outcome?, hstage]
    exact Nat.le_of_eq ha.1
  | settled o =>
    rw [hstage] at ha
    obtain rfl : o = r.outcome := ha
    have he : c.outcome? = some r.outcome := by simp only [Call.outcome?, hstage]
    rw [he]
    exact ⟨rfl, hsettled _ (ho.trans he)⟩

theorem begins_of_begun (hx : ∀ e, ¬x.Begun k e) (h : (x.moves ms).Begun k c) :
    ∃ pre m post, ms = pre ++ m :: post ∧ (x.moves pre).Begins m k c := by
  induction ms using List.reverseRecOn with
  | nil => exact absurd h (hx c)
  | append_singleton ms m ih =>
    rw [moves_concat] at h
    by_cases hb : ∃ e, (x.moves ms).Begun k e
    · obtain ⟨e, he⟩ := hb
      obtain ⟨pre, m', post, rfl, hbegins⟩ := ih (he.of_move h)
      exact ⟨pre, m', post ++ [m], by rw [List.append_assoc, List.cons_append], hbegins⟩
    · exact ⟨ms, m, [], rfl, not_exists.mp hb, h⟩

theorem logged_moves (hms : (ofBackend b true : Exchange ρ).Timely ms) :
    ∃ log, ((ofBackend b true).moves ms).Logged b.received log ∧
      ∀ pre m post k c app, ms = pre ++ m :: post → ((ofBackend b true).moves pre).Begins m k c →
        ((ofBackend b true).moves pre).target? c = some app → (k, c.request app) ∈ log := by
  induction ms using List.reverseRecOn with
  | nil =>
    refine ⟨[], ⟨(List.append_nil _).symm, List.nodup_nil, nofun⟩, ?_⟩
    intro pre m post k c app h
    exact absurd (congrArg List.length h) (by simp)
  | append_singleton ms m ih =>
    obtain ⟨hms, hm⟩ := timely_concat.mp hms
    obtain ⟨log, hlog, hall⟩ := ih hms
    obtain ⟨new, hnew, hreceived, hbegins⟩ := hlog.move m
    rw [moves_concat]
    refine ⟨log ++ new, hnew, fun pre m' post k c app h hc happ => ?_⟩
    rcases List.eq_nil_or_concat post with rfl | ⟨post, m'', rfl⟩
    · obtain ⟨rfl, he⟩ := List.append_inj' h rfl
      obtain rfl := List.singleton_inj.mp he
      obtain ⟨d, -, hfirst⟩ := hc.proceeds hms.live hm
      -- the last move adds one request, and this call is the only one that it runs first
      have hrequest : new.map Prod.snd = [c.request app] :=
        List.append_cancel_left (hreceived.symm.trans (hfirst app happ _ rfl).1)
      obtain ⟨⟨j, request⟩, rfl, rfl⟩ := List.map_eq_singleton_iff.mp hrequest
      obtain ⟨e, he⟩ := hbegins _ List.mem_cons_self
      obtain ⟨-, -, -, -, honly⟩ := hm.begins hms.live.background hc
      obtain rfl := honly j e he
      exact List.mem_append_right _ List.mem_cons_self
    · rw [List.concat_eq_append, ← List.cons_append, ← List.append_assoc] at h
      exact List.mem_append_left _ (hall pre m' post k c app (List.append_inj' h rfl).1 hc happ)

theorem enlist_fresh (hx : Sound x) (hn : n < x.callers.length) (i : Invocation)
    (note? : Option ρ) : ∃ c, (x.enlist n i note?).1.call? x.calls.length = some c ∧
      c.caller = n ∧ c.invocation = i ∧ c.id ∉ x.idsOf n := by
  have hnodup := (hx.enlist hn i note?).ids_nodup n
  rw [idsOf_enlist, if_pos rfl] at hnodup
  refine ⟨⟨n, (x.callers[n]?.map Caller.nextCall).getD 0, i, note?, .queued⟩, ?_, rfl, rfl, ?_⟩
  · simp [enlist, call?, onCaller]
  · intro hid
    exact (List.nodup_append.mp hnodup).2.2 _ hid _ List.mem_cons_self rfl

def Move.made? : Move ρ → Option (Nat × Invocation)
  | .submit n i _ | .execute n i => some (n, i)
  | _ => none

theorem move_fresh (hx : Live b x) (hn : n < x.callers.length) {i : Invocation}
    (hm : m.made? = some (n, i)) :
    ∃ c, (x.move m).call? x.calls.length = some c ∧ c.caller = n ∧ c.invocation = i ∧
      c.id ∉ x.idsOf n := by
  cases m with
  | submit n' i' note =>
    cases hm
    obtain ⟨c, hc, hfresh⟩ := enlist_fresh hx.sound hn i (some note)
    refine ⟨c, ?_, hfresh⟩
    rw [← hc]
    simp only [move, if_pos hn, enqueue, enlist, onCaller, hx.background, if_true]
    rfl
  | execute n' i' =>
    cases hm
    obtain ⟨c, hc, hcaller, hinv, hid⟩ := enlist_fresh hx.sound hn i none
    obtain ⟨c', hc', hf⟩ := follows_run x.calls.length hc
    refine ⟨c', ?_, hf.caller.trans hcaller, hf.invocation.trans hinv, hf.id ▸ hid⟩
    simp only [move, if_pos hn]
    exact hc'
  | join | bindApp | proceed | answer | elapse | retire => cases hm

/-- From its first run on, a call keeps to its reply to the end of the run. -/
theorem Begins.endsAt {pre post : List (Move ρ)}
    (h : ((ofBackend b true).moves pre).Begins m k c)
    (hms : (ofBackend b true : Exchange ρ).Timely (pre ++ m :: post))
    (hp : Proceeds start r k ((ofBackend b true).moves pre)
      (((ofBackend b true).moves pre).move m)) :
    (ofBackend b true).EndsAt (pre ++ m :: post) k (start + r.delay) r.outcome := by
  have hnone := outcome?_of_not_begun h.1
  have hfirst : (ofBackend b true).Holds (pre ++ [m]) start r k := by
    refine hp.holds fun o ho => ?_
    cases hnone.symm.trans ho
  rw [List.append_cons] at hms ⊢
  exact (hfirst.append hms).endsAt hms.live.scheduled

/-- Whatever is done, and in whatever portions time goes by, comes to moves in the course of time.
In any such run each call that is made is a call of its own, and the backend receives one request
of each that is run and finds an app. That call ends as the backend replies to this request, at the
moment the reply is there, or as timed out, at the moment its caller's timeout is over; it is not
open past that moment. -/
theorem calls_keep_time (b : Backend) (ms : List (Move ρ)) (h : (ofBackend b true).Timely ms) :
    let x₀ : Exchange ρ := ofBackend b true
    let y := x₀.moves ms
    (∀ ts, ∃ more, x₀.Timely (ms ++ more) ∧ y.turns ts = x₀.moves (ms ++ more)) ∧
    (∀ m n i, m.made? = some (n, i) → n < y.callers.length →
      ∃ c, (y.move m).call? y.calls.length = some c ∧ c.caller = n ∧ c.invocation = i ∧
        c.id ∉ y.idsOf n) ∧
    ∃ log : List (Nat × Request),
      y.backend.received = b.received ++ log.map Prod.snd ∧ (log.map Prod.fst).Nodup ∧
      (∀ e ∈ log, y.Sent e) ∧
      ∀ k c, y.Begun k c → ∃ pre m post d, ms = pre ++ m :: post ∧
        let x := x₀.moves pre
        x.Begins m k c ∧ x.callers[c.caller]? = some d ∧ ∀ app, x.target? c = some app →
          let reply := b.respond (c.request app)
          (k, c.request app) ∈ log ∧
          (b.serves c.invocation.tool = false →
            (x.move m).outcome? k = some (.error (.unknownTool c.invocation.tool))) ∧
          ((∀ limit, d.timeout = some limit → reply.delay ≤ limit) →
            x₀.EndsAt ms k (x.clock + reply.delay) reply.outcome) ∧
          ∀ limit, d.timeout = some limit → limit < reply.delay →
            x₀.EndsAt ms k (x.clock + limit) (.error (.timeout c.invocation.tool limit)) := by
  intro x₀ y
  refine ⟨fun ts => ?_, fun m n i hm hn => move_fresh h.live hn hm, ?_⟩
  · obtain ⟨more, hmore, he⟩ := becomes_turns h.live.sound h.live.scheduled ts
    exact ⟨more, timely_append.mpr ⟨h, hmore⟩, by rw [moves_append, he]⟩
  obtain ⟨log, hlog, hall⟩ := logged_moves h
  refine ⟨log, hlog.received, hlog.nodup, hlog.sent, fun k c hbegun => ?_⟩
  have hnone : ∀ e, ¬x₀.Begun k e := by
    rintro e ⟨d, hd, -⟩
    cases hd
  obtain ⟨pre, m, post, hsplit, hbegins⟩ := begins_of_begun hnone hbegun
  obtain ⟨hpre, hm, -⟩ := timely_append.mp (hsplit ▸ h)
  obtain ⟨d, hd, hfirst⟩ := hbegins.proceeds hpre.live hm
  refine ⟨pre, m, post, d, hsplit, hbegins, hd, fun app happ => ?_⟩
  have hends : ∀ r, d.bounded c.invocation.tool (b.respond (c.request app)) = r →
      x₀.EndsAt ms k ((x₀.moves pre).clock + r.delay) r.outcome := by
    intro r hr
    subst hsplit
    exact hbegins.endsAt h (hfirst app happ r hr).2.1
  refine ⟨hall pre m post k c app hsplit hbegins happ, fun hserves => ?_, fun hle => ?_, ?_⟩
  · have hrespond := respond_of_not_serves (r := c.request app) hserves
    have hat := (hfirst app happ _ (Caller.bounded_of_le fun limit _ => by
      rw [hrespond]
      exact Nat.zero_le limit)).2.2
    rw [hrespond] at hat
    exact hat rfl
  · exact hends _ (Caller.bounded_of_le hle)
  · intro limit hlimit hlt
    exact hends _ (Caller.bounded_of_lt hlimit hlt)

def slowBackend : Backend := Backend.empty.register "slow" fun _ => ⟨5, .ok .null⟩

def twoSlowCalls : List (Move Unit) :=
  [.join (some 3), .bindApp 0 "app", .submit 0 (.ofTool "slow") (), .proceed 0, .elapse 1,
    .submit 0 (.ofTool "slow") (), .proceed 1, .elapse 2, .proceed 0, .elapse 1]

/-- Both calls are sent, and each has its own timeout. -/
theorem two_slow_calls_keep_time :
    let x₀ : Exchange Unit := ofBackend slowBackend true
    let y := x₀.moves twoSlowCalls
    x₀.Timely twoSlowCalls ∧ y.outcome? 0 = some (.error (.timeout "slow" 3)) ∧
      y.outcome? 1 = none ∧
      ∃ log : List (Nat × Request), y.backend.received = log.map Prod.snd ∧
        (log.map Prod.fst).Nodup ∧ log.length = 2 := by
  have h : (ofBackend slowBackend true).Timely twoSlowCalls := by decide +kernel
  obtain ⟨log, hreceived, hnodup, -⟩ := (calls_keep_time slowBackend twoSlowCalls h).2.2
  refine ⟨h, rfl, rfl, log, hreceived, hnodup, ?_⟩
  have hlength : 2 = (log.map Prod.snd).length := congrArg List.length hreceived
  rw [hlength, List.length_map]

end DynamicUi.Exchange
