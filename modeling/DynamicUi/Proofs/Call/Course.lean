import DynamicUi.Proofs.Call.Retirement

/-! # The course of time

Calls go on before the clock does. So time goes by only while no call is ready, and no further than
to the next moment at which one is due. Whatever is done with an exchange, be it that calls are
made, that what is ready is run, that time passes or that a result is waited for, comes to moves
that keep to this.
-/

namespace DynamicUi.Exchange

variable {ρ : Type} {x y z : Exchange ρ}

/-- A move in the course of time: nobody answers but the backend, and no caller is cleaned up. -/
def Fits (x : Exchange ρ) : Move ρ → Prop
  | .answer .. | .retire _ => False
  | .elapse ms => x.ready = [] ∧ ∀ c ∈ x.calls, ∀ due ∈ c.due?, x.clock + ms ≤ due
  | _ => True

instance (x : Exchange ρ) : (m : Move ρ) → Decidable (x.Fits m)
  | .answer .. | .retire _ => .isFalse id
  | .elapse ms => inferInstanceAs <| Decidable
      (x.ready = [] ∧ ∀ c ∈ x.calls, ∀ due ∈ c.due?, x.clock + ms ≤ due)
  | .join _ | .bindApp .. | .submit .. | .execute .. | .proceed _ => .isTrue trivial

def Timely (x : Exchange ρ) : List (Move ρ) → Prop
  | [] => True
  | m :: ms => x.Fits m ∧ (x.move m).Timely ms

instance decidableTimely (x : Exchange ρ) : (ms : List (Move ρ)) → Decidable (x.Timely ms)
  | [] => .isTrue trivial
  | m :: ms => @instDecidableAnd _ _ inferInstance (decidableTimely (x.move m) ms)

theorem timely_append {ms ms' : List (Move ρ)} :
    x.Timely (ms ++ ms') ↔ x.Timely ms ∧ (x.moves ms).Timely ms' := by
  induction ms generalizing x with
  | nil => exact (and_iff_right trivial).symm
  | cons m ms ih =>
    rw [List.cons_append, Timely, Timely, ih, and_assoc]
    rfl

theorem timely_concat {ms : List (Move ρ)} {m : Move ρ} :
    x.Timely (ms ++ [m]) ↔ x.Timely ms ∧ (x.moves ms).Fits m := by
  rw [timely_append, Timely, Timely, and_true]

theorem Timely.not_retire {ms : List (Move ρ)} (h : x.Timely ms) (n : Nat) : .retire n ∉ ms := by
  intro hn
  obtain ⟨pre, post, rfl⟩ := List.append_of_mem hn
  exact (timely_append.mp h).2.1

def Becomes (x y : Exchange ρ) : Prop := ∃ ms, x.Timely ms ∧ x.moves ms = y

namespace Becomes

theorem refl (x : Exchange ρ) : x.Becomes x := ⟨[], trivial, rfl⟩

theorem trans (h : x.Becomes y) (h' : y.Becomes z) : x.Becomes z := by
  obtain ⟨ms, hms, rfl⟩ := h
  obtain ⟨ms', hms', rfl⟩ := h'
  exact ⟨ms ++ ms', timely_append.mpr ⟨hms, hms'⟩, moves_append x ms ms'⟩

theorem move {m : Move ρ} (h : x.Fits m) : x.Becomes (x.move m) := ⟨[m], ⟨h, trivial⟩, rfl⟩

theorem scheduled (h : x.Becomes y) (hx : Sound x) (hs : Scheduled x) : Sound y ∧ Scheduled y := by
  obtain ⟨ms, -, rfl⟩ := h
  exact moves_scheduled hx hs ms

end Becomes

/-! ## The next moment -/

theorem earlier_le {a b : Option Nat} {due : Nat} (h : earlier a b = some due) :
    (∀ d, a = some d → due ≤ d) ∧ ∀ d, b = some d → due ≤ d := by
  match a, b with
  | none, b =>
    refine ⟨nofun, ?_⟩
    rintro d rfl
    obtain rfl := Option.some.inj h
    exact Nat.le_refl _
  | some a, none =>
    refine ⟨?_, nofun⟩
    rintro d ⟨⟩
    obtain rfl := Option.some.inj h
    exact Nat.le_refl _
  | some a, some b =>
    simp only [earlier, Option.some.injEq] at h
    constructor <;> rintro d ⟨⟩ <;> split at h <;> omega

theorem foldl_earlier_le {l : List (Call ρ)} {best : Option Nat} {due : Nat}
    (h : l.foldl (fun best c => earlier best c.due?) best = some due) :
    (∀ d, best = some d → due ≤ d) ∧ ∀ c ∈ l, ∀ d, c.due? = some d → due ≤ d := by
  induction l generalizing best with
  | nil =>
    refine ⟨?_, nofun⟩
    rintro d rfl
    obtain rfl := Option.some.inj h
    exact Nat.le_refl _
  | cons c l ih =>
    obtain ⟨hbest, hl⟩ := ih h
    cases he : earlier best c.due? with
    | none =>
      have hnone := (foldl_earlier_none [c] best).mp he
      rw [List.forall_mem_cons]
      refine ⟨fun d hd => ?_, fun d hd => ?_, hl⟩
      · cases hnone.1.symm.trans hd
      · cases (hnone.2 c List.mem_cons_self).symm.trans hd
    | some e =>
      have hle := hbest e he
      obtain ⟨ha, hb⟩ := earlier_le he
      refine ⟨fun d hd => Nat.le_trans hle (ha d hd), ?_⟩
      rw [List.forall_mem_cons]
      exact ⟨fun d hd => Nat.le_trans hle (hb d hd), hl⟩

theorem nextDue?_le {due : Nat} (h : x.nextDue? = some due) {c : Call ρ} (hc : c ∈ x.calls)
    {d : Nat} (hd : c.due? = some d) : due ≤ d := (foldl_earlier_le h).2 c hc d hd

theorem fits_jump (hready : x.ready = []) {due : Nat} (hdue : x.nextDue? = some due)
    (hlt : x.clock ≤ due) : x.Fits (.elapse (due - x.clock)) := by
  refine ⟨hready, fun c hc d hd => ?_⟩
  have hle := nextDue?_le hdue hc hd
  omega

/-! ## What is done comes to moves in the course of time -/

theorem run_clock (x : Exchange ρ) (k : Nat) : (x.run k).clock = x.clock := by
  rcases run_cases x k with ⟨he, -⟩ | ⟨c, d, -, -, hgo⟩
  · rw [he]
  · rcases hgo.settles_or_waits with ⟨b, o, -, he, -⟩ | ⟨b, due, o, -, -, -, he⟩ <;> rw [he] <;> rfl

theorem runReady_clock (x : Exchange ρ) : x.runReady.clock = x.clock := by
  have hfold : ∀ (ks : List Nat) (y : Exchange ρ), (ks.foldl run y).clock = y.clock := by
    intro ks
    induction ks with
    | nil => exact fun _ => rfl
    | cons k ks ih => exact fun y => (ih (y.run k)).trans (run_clock y k)
  exact hfold x.ready { x with ready := [] }

theorem becomes_runReady (x : Exchange ρ) : x.Becomes x.runReady := by
  have hproceed : ∀ (ks : List Nat) (y : Exchange ρ), y.Timely (ks.map .proceed) := by
    intro ks
    induction ks with
    | nil => exact fun _ => trivial
    | cons k ks ih => exact fun y => ⟨trivial, ih _⟩
  exact ⟨_, hproceed x.ready x, (runReady_moves x).symm⟩

theorem becomes_wakeAt {moment : Nat} (hready : x.ready = []) (hclock : x.clock ≤ moment)
    (hdue : ∀ c ∈ x.calls, ∀ due, c.due? = some due → moment ≤ due) :
    x.Becomes (x.wakeAt moment) := by
  rw [wakeAt_move hclock]
  refine .move ⟨hready, fun c hc due hd => ?_⟩
  have hle := hdue c hc due hd
  omega

/-- The jumps suffice, since each wakes a call that cannot wait again. -/
theorem becomes_passWithin {moment jumps : Nat} (hx : Sound x) (hs : Scheduled x)
    (hclock : x.clock ≤ moment) (hjumps : x.calls.countP Call.mayWait ≤ jumps) :
    x.Becomes (passWithin moment jumps x) := by
  induction jumps generalizing x with
  | zero =>
    refine (becomes_runReady x).trans (becomes_wakeAt (runReady_ready x) ?_ ?_)
    · rwa [runReady_clock]
    · -- the jumps are used up, so no call can be waiting
      intro c hc due hd
      have hle := mayWait_foldl_run x.ready { x with ready := [] }
      have hzero : x.runReady.calls.countP Call.mayWait = 0 :=
        Nat.le_zero.mp (Nat.le_trans hle hjumps)
      have hwait := List.countP_eq_zero.mp hzero c hc
      cases hstage : c.stage <;> simp_all [Call.mayWait, Call.due?]
  | succ jumps ih =>
    have hrun := becomes_runReady x
    obtain ⟨hx', hs'⟩ := hrun.scheduled hx hs
    have hclock' : x.runReady.clock ≤ moment := by rwa [runReady_clock]
    refine hrun.trans ?_
    rw [passWithin]
    cases hnext : x.runReady.nextDue? with
    | none =>
      refine becomes_wakeAt (runReady_ready x) hclock' fun c hc due hd => ?_
      cases (nextDue?_eq_none.mp hnext c hc).symm.trans hd
    | some due =>
      obtain ⟨c, hc, hdue⟩ := nextDue?_eq_some hnext
      obtain ⟨k, hk⟩ := List.getElem?_of_mem hc
      have hlt := hs'.due k c due hk hdue
      have hleast : ∀ c ∈ x.runReady.calls, ∀ d, c.due? = some d → due ≤ d :=
        fun c hc d hd => nextDue?_le hnext hc hd
      dsimp only
      split
      · next hmoment =>
        have hjump : x.runReady.Becomes (x.runReady.wakeAt due) :=
          becomes_wakeAt (runReady_ready x) (Nat.le_of_lt hlt) hleast
        obtain ⟨hx'', hs''⟩ := hjump.scheduled hx' hs'
        have hfewer := mayWait_wakeAt hnext
        have hle := mayWait_foldl_run x.ready { x with ready := [] }
        have hle : x.runReady.calls.countP Call.mayWait ≤ x.calls.countP Call.mayWait := hle
        exact hjump.trans (ih hx'' hs'' (Nat.le_of_lt hmoment) (by omega))
      · next hmoment =>
        refine becomes_wakeAt (runReady_ready x) hclock' fun c hc d hd => ?_
        exact Nat.le_trans (Nat.le_of_not_lt hmoment) (hleast c hc d hd)

theorem becomes_passUntil {moment : Nat} (hx : Sound x) (hs : Scheduled x)
    (hclock : x.clock ≤ moment) : x.Becomes (x.passUntil moment) :=
  becomes_passWithin hx hs hclock List.countP_le_length

theorem becomes_advance (hx : Sound x) (hs : Scheduled x) (ms : Nat) : x.Becomes (x.advance ms) :=
  (becomes_passUntil hx hs (Nat.le_add_right _ ms)).trans (becomes_runReady _)

theorem becomes_waitWithin (hx : Sound x) (hs : Scheduled x) (done : Exchange ρ → Bool)
    (rounds : Nat) : x.Becomes (waitWithin done rounds x) := by
  induction rounds generalizing x with
  | zero => exact .refl x
  | succ rounds ih =>
    rcases waitWithin_succ hs done rounds with ⟨-, he⟩ | ⟨-, -, he⟩ | ⟨ms, hms, he⟩
    · rw [he]
      exact .refl x
    · rw [he]
      exact .refl x
    · have hround : x.Becomes (x.moves ms) := by
        cases hms with
        | run h =>
          rw [← runReady_moves]
          exact becomes_runReady x
        | jump h hdue hlt => exact .move (fits_jump h hdue (Nat.le_of_lt hlt))
      obtain ⟨hx', hs'⟩ := hround.scheduled hx hs
      rw [he]
      exact hround.trans (ih hx' hs')

theorem becomes_callNow (hx : Sound x) (hs : Scheduled x) {n : Nat} (hn : n < x.callers.length)
    (i : Invocation) : x.Becomes (x.callNow n i).1 := by
  have hexecute : x.Becomes (x.move (.execute n i)) := .move trivial
  have hmove : x.move (.execute n i) = (x.enlist n i none).1.run x.calls.length := if_pos hn
  obtain ⟨hx', hs'⟩ := hexecute.scheduled hx hs
  rw [hmove] at hexecute hx' hs'
  unfold callNow
  have hk : (x.enlist n i none).2 = x.calls.length := rfl
  simp only [hk]
  split
  · exact hexecute
  · next due hdue =>
    obtain ⟨c, hc, hdue⟩ := Option.bind_eq_some_iff.mp hdue
    have hlt := hs'.due _ c due hc hdue
    have hpass := becomes_passUntil hx' hs' (Nat.le_of_lt hlt)
    have hproceed : ∀ y : Exchange ρ, y.Becomes (y.runFirst x.calls.length) :=
      fun y => .move (m := .proceed x.calls.length) trivial
    exact hexecute.trans (hpass.trans (hproceed _))

/-- What may be done with an exchange, one thing after the other. -/
inductive Turn (ρ : Type) where
  | join (timeout : Option Nat)
  | bindApp (n : Nat) (app : String)
  | submit (n : Nat) (i : Invocation) (note : ρ)
  | callNow (n : Nat) (i : Invocation)
  | run
  | advance (ms : Nat)
  | wait (done : Exchange ρ → Bool)

def turn (x : Exchange ρ) : Turn ρ → Exchange ρ
  | .join timeout => x.move (.join timeout)
  | .bindApp n app => x.move (.bindApp n app)
  | .submit n i note => x.move (.submit n i note)
  | .callNow n i => if n < x.callers.length then (x.callNow n i).1 else x
  | .run => x.runReady
  | .advance ms => x.advance ms
  | .wait done => x.waitUntil done

theorem becomes_turn (hx : Sound x) (hs : Scheduled x) (t : Turn ρ) : x.Becomes (x.turn t) := by
  cases t with
  | join timeout => exact .move (m := .join timeout) trivial
  | bindApp n app => exact .move (m := .bindApp n app) trivial
  | submit n i note => exact .move (m := .submit n i note) trivial
  | callNow n i =>
    rw [turn]
    split
    · next hn => exact becomes_callNow hx hs hn i
    · exact .refl x
  | run => exact becomes_runReady x
  | advance ms => exact becomes_advance hx hs ms
  | wait done => exact becomes_waitWithin hx hs done _

def turns (x : Exchange ρ) (ts : List (Turn ρ)) : Exchange ρ := ts.foldl turn x

theorem becomes_turns (hx : Sound x) (hs : Scheduled x) (ts : List (Turn ρ)) :
    x.Becomes (x.turns ts) := by
  induction ts generalizing x with
  | nil => exact .refl x
  | cons t ts ih =>
    have ht := becomes_turn hx hs t
    obtain ⟨hx', hs'⟩ := ht.scheduled hx hs
    exact ht.trans (ih hx' hs')

end DynamicUi.Exchange
