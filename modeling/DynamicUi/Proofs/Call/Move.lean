import DynamicUi.Call.Schedule

/-! # The moves of an exchange

Everything that happens to an exchange is a sequence of moves, in any order: callers join, are
bound and are cleaned up, calls are made, the clock goes on, and one call at a time goes on until
it waits or is settled. The backend may also answer a waiting call at any moment and in any way,
so that nothing rests on what it would have replied.
-/

namespace DynamicUi.Exchange

variable {ρ : Type}

def answer (x : Exchange ρ) (k : Nat) (o : Outcome) : Exchange ρ :=
  match (x.call? k).map Call.stage with
  | some (.waiting ..) | some (.woken _) => { x.setStage k (.woken o) with ready := x.ready ++ [k] }
  | _ => x

def takeOldest (x : Exchange ρ) (n : Nat) : Exchange ρ :=
  { x with posted := x.posted.eraseP (·.caller = n) }

inductive Move (ρ : Type) where
  | join (timeout : Option Nat)
  | bindApp (n : Nat) (app : String)
  | submit (n : Nat) (i : Invocation) (note : ρ)
  /-- A call that is awaited where it is made: it goes on at once. -/
  | execute (n : Nat) (i : Invocation)
  | proceed (k : Nat)
  | answer (k : Nat) (o : Outcome)
  | elapse (ms : Nat)
  | retire (n : Nat)

/-- Calls are only made by callers that are there. -/
def move (x : Exchange ρ) : Move ρ → Exchange ρ
  | .join timeout => (x.addCaller (.unbound timeout)).1
  | .bindApp n app => x.onCaller n fun d => (d.bindApp app).toOption.getD d
  | .submit n i note => if n < x.callers.length then (x.enqueue n i note).1 else x
  | .execute n i =>
    if n < x.callers.length then (x.enlist n i none).1.run x.calls.length else x
  | .proceed k => x.runFirst k
  | .answer k o => x.answer k o
  | .elapse ms => x.wakeAt (x.clock + ms)
  | .retire n => x.retire n

def moves (x : Exchange ρ) (ms : List (Move ρ)) : Exchange ρ := ms.foldl move x

@[simp] theorem moves_nil (x : Exchange ρ) : x.moves [] = x := rfl

@[simp] theorem moves_cons (x : Exchange ρ) (m : Move ρ) (ms : List (Move ρ)) :
    x.moves (m :: ms) = (x.move m).moves ms := rfl

theorem moves_append (x : Exchange ρ) (ms ms' : List (Move ρ)) :
    x.moves (ms ++ ms') = (x.moves ms).moves ms' := List.foldl_append

theorem moves_concat (x : Exchange ρ) (ms : List (Move ρ)) (m : Move ρ) :
    x.moves (ms ++ [m]) = (x.moves ms).move m := moves_append x ms [m]

theorem moves_induction {P : Exchange ρ → Prop} (h : ∀ x m, P x → P (x.move m)) {x : Exchange ρ}
    (hx : P x) (ms : List (Move ρ)) : P (x.moves ms) := by
  induction ms generalizing x with
  | nil => exact hx
  | cons m ms ih => exact ih (h x m hx)

/-! ## One call goes on -/

theorem removePending_addPending (d : Caller) (id : Nat) :
    (d.addPending id).removePending id = d.removePending id := by
  simp [Caller.addPending, Caller.removePending]

/-- A call that settles at once leaves no trace among the pending ones. -/
theorem settle_addPending (x : Exchange ρ) (k : Nat) (c : Call ρ) (o : Outcome) :
    (x.onCaller c.caller (·.addPending c.id)).settle k c o = x.settle k c o := by
  have h : (Caller.removePending · c.id) ∘ (Caller.addPending · c.id) =
      (Caller.removePending · c.id) := by
    funext d
    exact removePending_addPending d c.id
  simp only [settle, onCaller, setStage, List.modify_modify_eq, h]

/-- What becomes of a call of caller `d` that goes on, by its stage. -/
inductive Go (x : Exchange ρ) (k : Nat) (c : Call ρ) (d : Caller) : Exchange ρ → Prop
  | refused (e : CallError) : c.stage = .queued → d.accept c.invocation = .error e →
      Go x k c d (x.settle k c (.error e))
  | replied (app : String) (b : Backend) (o : Outcome) : c.stage = .queued →
      d.accept c.invocation = .ok app → Go x k c d ({ x with backend := b }.settle k c o)
  | waits (app : String) (b : Backend) (due : Nat) (o : Outcome) : c.stage = .queued →
      d.accept c.invocation = .ok app → x.clock < due →
      Go x k c d
        (({ x with backend := b }.onCaller c.caller (·.addPending c.id)).setStage k
          (.waiting due o))
  | finished (o : Outcome) : c.stage = .woken o →
      Go x k c d (x.settle k c (finalOutcome d c.invocation o))

theorem go_start {x : Exchange ρ} {k : Nat} {c : Call ρ} {d : Caller} (h : c.stage = .queued) :
    Go x k c d (x.start k c d) := by
  simp only [start]
  cases ha : d.accept c.invocation with
  | error e => exact .refused e h ha
  | ok app =>
    simp only [send]
    split
    · rw [settle_addPending]
      exact .replied app _ _ h ha
    · next hd => exact .waits app _ _ _ h ha (Nat.lt_add_of_pos_right (Nat.pos_of_ne_zero hd))

theorem run_go {x : Exchange ρ} {k : Nat} {c : Call ρ} {d : Caller} (hc : x.call? k = some c)
    (hd : x.callers[c.caller]? = some d) (ho : c.outcome? = none) (hn : c.due? = none) :
    Go x k c d (x.run k) := by
  cases hs : c.stage with
  | queued =>
    have he : x.run k = x.start k c d := by simp only [run, hc, hd, hs]
    exact he ▸ go_start hs
  | woken o =>
    have he : x.run k = x.settle k c (finalOutcome d c.invocation o) := by
      simp only [run, hc, hd, hs]
    exact he ▸ .finished o hs
  | waiting due o => simp [Call.due?, hs] at hn
  | settled o => simp [Call.outcome?, hs] at ho

theorem run_cases (x : Exchange ρ) (k : Nat) :
    (x.run k = x ∧ ∀ c d, x.call? k = some c → x.callers[c.caller]? = some d →
      c.outcome? = none → c.due? ≠ none) ∨
    ∃ c d, x.call? k = some c ∧ x.callers[c.caller]? = some d ∧ Go x k c d (x.run k) := by
  cases hc : x.call? k with
  | none => exact .inl ⟨by simp only [run, hc], nofun⟩
  | some c =>
    cases hd : x.callers[c.caller]? with
    | none =>
      left
      constructor
      · simp only [run, hc, hd]
      · intro e d he hd'
        cases he
        rw [hd] at hd'
        cases hd'
    | some d =>
      cases ho : c.outcome? with
      | none =>
        cases hn : c.due? with
        | none => exact .inr ⟨c, d, rfl, hd, run_go hc hd ho hn⟩
        | some due =>
          have hs : ∃ o, c.stage = .waiting due o := by
            cases hs : c.stage <;> simp_all [Call.due?]
          obtain ⟨o, hs⟩ := hs
          left
          constructor
          · simp only [run, hc, hd, hs]
          · intro e d he _ _ h
            cases he
            rw [hn] at h
            cases h
      | some o =>
        have hs : c.stage = .settled o := by
          cases hs : c.stage <;> simp_all [Call.outcome?]
        left
        constructor
        · simp only [run, hc, hd, hs]
        · intro e d he _ h
          cases he
          rw [ho] at h
          cases h

theorem accept_of_disposed {d : Caller} {i : Invocation} (h : d.disposed = true) :
    d.accept i = .error (.disposed i.tool) := by
  simp only [Caller.accept, h, if_true]

/-- A call that goes on settles, as disposed if its caller is, or is sent and waits. -/
theorem Go.settles_or_waits {x y : Exchange ρ} {k : Nat} {c : Call ρ} {d : Caller}
    (h : Go x k c d y) :
    (∃ b o, c.outcome? = none ∧ y = { x with backend := b }.settle k c o ∧
      (d.disposed = true → b = x.backend ∧ o = .error (.disposed c.invocation.tool))) ∨
    ∃ b due o, c.stage = .queued ∧ d.disposed = false ∧ x.clock < due ∧
      y = ({ x with backend := b }.onCaller c.caller (·.addPending c.id)).setStage k
        (.waiting due o) := by
  cases h with
  | refused e hs ha =>
    refine .inl ⟨x.backend, .error e, by simp only [Call.outcome?, hs], rfl, ?_⟩
    intro hd
    rw [accept_of_disposed hd] at ha
    cases ha
    constructor <;> rfl
  | replied app b o hs ha =>
    refine .inl ⟨b, o, by simp only [Call.outcome?, hs], rfl, ?_⟩
    intro hd
    rw [accept_of_disposed hd] at ha
    cases ha
  | waits app b due o hs ha hdue =>
    refine .inr ⟨b, due, o, hs, ?_, hdue, rfl⟩
    apply Bool.eq_false_iff.mpr
    intro hd
    rw [accept_of_disposed hd] at ha
    cases ha
  | finished o hs =>
    refine .inl ⟨x.backend, _, by simp only [Call.outcome?, hs], rfl, ?_⟩
    intro hd
    constructor
    · rfl
    · simp only [finalOutcome, hd, if_true]

end DynamicUi.Exchange
