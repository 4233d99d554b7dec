import Mathlib.Logic.Relation
import DynamicUi.Proofs.Call.Move

/-! # What moves come to

A move may first put a call on the list or clean a caller up. All it does after that is made of a
few deeds: a caller joins or is bound, an open call settles, a queued call is sent and waits, or
nothing changes but the clock, the queue and what calls wait for.
-/

namespace DynamicUi

open Relation

variable {ρ : Type}

namespace Call

/-- A call that has reached the backend and is not settled. -/
def inTransit (c : Call ρ) : Bool :=
  match c.stage with
  | .waiting .. | .woken _ => true
  | _ => false

def settlement? (c : Call ρ) : Option (Settlement ρ) := c.outcome?.bind c.message?

/-- A call but for what it waits for. -/
def skeleton (c : Call ρ) : Call ρ :=
  if c.inTransit then { c with stage := .woken (.ok .null) } else c

variable (c : Call ρ)

@[simp] theorem skeleton_caller : c.skeleton.caller = c.caller := by
  simp only [skeleton]; split <;> rfl

@[simp] theorem skeleton_id : c.skeleton.id = c.id := by
  simp only [skeleton]; split <;> rfl

@[simp] theorem skeleton_invocation : c.skeleton.invocation = c.invocation := by
  simp only [skeleton]; split <;> rfl

@[simp] theorem skeleton_note? : c.skeleton.note? = c.note? := by
  simp only [skeleton]; split <;> rfl

@[simp] theorem skeleton_inTransit : c.skeleton.inTransit = c.inTransit := by
  simp only [skeleton]; split
  · next h => exact h.symm
  · rfl

@[simp] theorem skeleton_outcome? : c.skeleton.outcome? = c.outcome? := by
  cases hs : c.stage <;> simp [skeleton, inTransit, outcome?, hs]

@[simp] theorem skeleton_settlement? : c.skeleton.settlement? = c.settlement? := by
  have h : c.skeleton.message? = c.message? := by funext o; simp [message?]
  rw [settlement?, settlement?, skeleton_outcome?, h]

theorem message?_eq {c : Call ρ} {o : Outcome} {m : Settlement ρ} (h : c.message? o = some m) :
    m.caller = c.caller ∧ m.callId = c.id := by
  obtain ⟨note, -, rfl⟩ := Option.map_eq_some_iff.mp h
  exact ⟨rfl, rfl⟩

theorem settlement?_eq {c : Call ρ} {m : Settlement ρ} (h : c.settlement? = some m) :
    m.caller = c.caller ∧ m.callId = c.id := by
  obtain ⟨o, -, ho⟩ := Option.bind_eq_some_iff.mp h
  exact message?_eq ho

theorem skeleton_wake : c.wake.skeleton = c.skeleton := by
  cases hs : c.stage <;> simp [wake, skeleton, inTransit, hs]

end Call

namespace Exchange

variable {x y : Exchange ρ}

/-- Exchanges that differ only in the clock, the queue and what calls wait for. -/
structure Alike (x y : Exchange ρ) : Prop where
  backend : y.backend = x.backend
  background : y.background = x.background
  callers : y.callers = x.callers
  calls : y.calls.map Call.skeleton = x.calls.map Call.skeleton
  posted : y.posted = x.posted
  waiting : ∀ (k : Nat) (c : Call ρ), y.call? k = some c → c.due? ≠ none → x.call? k = some c

inductive Deed (x : Exchange ρ) : Exchange ρ → Prop
  | alike {y : Exchange ρ} (h : Alike x y) : Deed x y
  | join (timeout : Option Nat) : Deed x (x.addCaller (.unbound timeout)).1
  | bindApp (n : Nat) (app : String) :
      Deed x (x.onCaller n fun d => (d.bindApp app).toOption.getD d)
  /-- Calls of callers that are cleaned up settle as disposed, without the backend. -/
  | settle {k : Nat} {c : Call ρ} {d : Caller} (b : Backend) (o : Outcome)
      (hc : x.call? k = some c) (hd : x.callers[c.caller]? = some d) (hs : c.outcome? = none)
      (h : x.background = true → d.disposed = true →
        b = x.backend ∧ o = .error (.disposed c.invocation.tool)) :
      Deed x ({ x with backend := b }.settle k c o)
  | wait {k : Nat} {c : Call ρ} {d : Caller} (b : Backend) (due : Nat) (o : Outcome)
      (hc : x.call? k = some c) (hd : x.callers[c.caller]? = some d) (hs : c.stage = .queued)
      (h : d.disposed = false) :
      Deed x (({ x with backend := b }.onCaller c.caller (·.addPending c.id)).setStage k
        (.waiting due o))

theorem setStage_split {k : Nat} {c : Call ρ} (h : x.call? k = some c) (s : Stage) :
    ∃ pre post, x.calls = pre ++ c :: post ∧
      (x.setStage k s).calls = pre ++ { c with stage := s } :: post := by
  obtain ⟨hk, rfl⟩ := List.getElem?_eq_some_iff.mp (show x.calls[k]? = some c from h)
  refine ⟨x.calls.take k, x.calls.drop (k + 1), by simp, ?_⟩
  simp [setStage, List.modify_eq_take_cons_drop hk]

theorem Alike.of_calls {y : Exchange ρ} (backend : y.backend = x.backend)
    (background : y.background = x.background) (callers : y.callers = x.callers)
    (calls : y.calls = x.calls) (posted : y.posted = x.posted) : Alike x y := by
  refine ⟨backend, background, callers, by rw [calls], posted, ?_⟩
  intro k c hc _
  rwa [call?, calls] at hc

theorem wake_due? (c : Call ρ) : c.wake.due? = none := by
  cases hs : c.stage <;> simp [Call.wake, Call.due?, hs]

theorem wakeWhere_alike (x : Exchange ρ) (p : Call ρ → Nat → Bool) : Alike x (x.wakeWhere p) := by
  refine ⟨rfl, rfl, rfl, ?_, rfl, ?_⟩
  · simp only [wakeWhere, List.map_map]
    apply List.map_congr_left
    intro c _
    simp only [Function.comp_apply]
    split
    · exact c.skeleton_wake
    · rfl
  · intro k c hc hdue
    simp only [call?, wakeWhere, List.getElem?_map, Option.map_eq_some_iff] at hc
    obtain ⟨d, hd, rfl⟩ := hc
    split at hdue
    · exact absurd (wake_due? d) hdue
    · next h => rwa [if_neg h]

theorem setStage_call? (x : Exchange ρ) (k : Nat) (s : Stage) (j : Nat) :
    (x.setStage k s).call? j =
      (x.call? j).map fun c => if k = j then { c with stage := s } else c :=
  List.getElem?_modify ..

theorem answer_alike (x : Exchange ρ) (k : Nat) (o : Outcome) : Alike x (x.answer k o) := by
  have hset : ∀ c, x.call? k = some c → c.inTransit = true →
      Alike x { x.setStage k (.woken o) with ready := x.ready ++ [k] } := by
    intro c hc ht
    refine ⟨rfl, rfl, rfl, ?_, rfl, ?_⟩
    · obtain ⟨pre, post, hx, hy⟩ := setStage_split hc (.woken o)
      have hw : Call.inTransit { c with stage := .woken o } = true := rfl
      simp [hx, hy, Call.skeleton, ht, hw]
    · intro j d hd hdue
      have hd' := (setStage_call? x k (.woken o) j).symm.trans hd
      obtain ⟨e, he, rfl⟩ := Option.map_eq_some_iff.mp hd'
      split at hdue
      · exact absurd rfl hdue
      · next h => rwa [if_neg h]
  simp only [answer]
  split
  · next h =>
    obtain ⟨c, hc, hs⟩ := Option.map_eq_some_iff.mp h
    exact hset c hc (by simp only [Call.inTransit, hs])
  · next h =>
    obtain ⟨c, hc, hs⟩ := Option.map_eq_some_iff.mp h
    exact hset c hc (by simp only [Call.inTransit, hs])
  · exact .of_calls rfl rfl rfl rfl rfl

theorem Go.deed {k : Nat} {c : Call ρ} {d : Caller} (hc : x.call? k = some c)
    (hd : x.callers[c.caller]? = some d) (h : Go x k c d y) : Deed x y := by
  rcases h.settles_or_waits with ⟨b, o, hs, rfl, hb⟩ | ⟨b, due, o, hs, hb, -, rfl⟩
  · exact .settle b o hc hd hs fun _ => hb
  · exact .wait b due o hc hd hs hb

theorem run_deeds (x : Exchange ρ) (k : Nat) : ReflTransGen Deed x (x.run k) := by
  rcases run_cases x k with ⟨h, -⟩ | ⟨c, d, hc, hd, h⟩
  · rw [h]
  · exact .single (h.deed hc hd)

def begin (x : Exchange ρ) : Move ρ → Exchange ρ
  | .submit n i note => if n < x.callers.length then (x.enlist n i (some note)).1 else x
  | .execute n i => if n < x.callers.length then (x.enlist n i none).1 else x
  | .retire n => x.onCaller n Caller.retire
  | _ => x

theorem enlist_call (x : Exchange ρ) (n : Nat) (i : Invocation) (note? : Option ρ) :
    ∃ id, (x.enlist n i note?).1.call? x.calls.length = some ⟨n, id, i, note?, .queued⟩ := by
  refine ⟨(x.callers[n]?.map Caller.nextCall).getD 0, ?_⟩
  simp [enlist, call?, onCaller]

theorem enqueue_deeds {n : Nat} (hn : n < x.callers.length) (i : Invocation) (note : ρ) :
    ReflTransGen Deed (x.enlist n i (some note)).1 (x.enqueue n i note).1 := by
  obtain ⟨id, hc⟩ := enlist_call x n i (some note)
  cases hb : x.background with
  | true =>
    have he : (x.enqueue n i note).1 = { (x.enlist n i (some note)).1 with
        ready := x.ready ++ [x.calls.length] } := by
      simp [enqueue, enlist, onCaller, hb]
    rw [he]
    exact .single (.alike (.of_calls rfl rfl rfl rfl rfl))
  | false =>
    have he : (x.enqueue n i note).1 = (x.enlist n i (some note)).1.settle x.calls.length
        ⟨n, id, i, some note, .queued⟩ (.error (.notStarted i.tool)) := by
      have hb' : (x.enlist n i (some note)).1.background = false := hb
      have hk : (x.enlist n i (some note)).2 = x.calls.length := rfl
      simp only [enqueue, hb', Bool.false_eq_true, if_false, hk, hc]
    rw [he]
    have hd : ∃ d, (x.enlist n i (some note)).1.callers[n]? = some d := by
      simp [enlist, onCaller, hn]
    obtain ⟨d, hd⟩ := hd
    refine .single (.settle _ _ hc hd rfl ?_)
    intro h
    have hb' : (x.enlist n i (some note)).1.background = false := hb
    rw [hb'] at h
    cases h

theorem begin_deeds (x : Exchange ρ) (m : Move ρ) : ReflTransGen Deed (x.begin m) (x.move m) := by
  cases m with
  | join timeout => exact .single (.join timeout)
  | bindApp n app => exact .single (.bindApp n app)
  | submit n i note =>
    simp only [begin, move]
    split
    · next hn => exact enqueue_deeds hn i note
    · exact .refl
  | execute n i =>
    simp only [begin, move]
    split
    · exact run_deeds _ _
    · exact .refl
  | proceed k =>
    exact .head (b := { x with ready := x.ready.filter (· ≠ k) })
      (.alike (.of_calls rfl rfl rfl rfl rfl)) (run_deeds _ k)
  | answer k o => exact .single (.alike (answer_alike x k o))
  | elapse ms =>
    have h := wakeWhere_alike x fun _ due => due ≤ x.clock + ms
    exact .single (.alike ⟨h.backend, h.background, h.callers, h.calls, h.posted, h.waiting⟩)
  | retire n => exact .single (.alike (wakeWhere_alike (x.onCaller n Caller.retire) _))

theorem deeds_induction {P : Exchange ρ → Prop} (hd : ∀ x y, Deed x y → P x → P y)
    (h : ReflTransGen Deed x y) (hx : P x) : P y := by
  induction h with
  | refl => exact hx
  | tail _ h ih => exact hd _ _ h ih

/-- What is kept by deeds, by putting calls on the list and by cleaning callers up, every move
keeps. -/
theorem move_induction {P : Exchange ρ → Prop} (hd : ∀ x y, Deed x y → P x → P y)
    (hn : ∀ x n i note?, n < x.callers.length → P x → P (x.enlist n i note?).1)
    (hr : ∀ x n, P x → P (x.onCaller n Caller.retire)) (x : Exchange ρ) (m : Move ρ) (hx : P x) :
    P (x.move m) := by
  have hb : P (x.begin m) := by
    cases m with
    | submit n i note =>
      simp only [begin]
      split
      · next h => exact hn x n i _ h hx
      · exact hx
    | execute n i =>
      simp only [begin]
      split
      · next h => exact hn x n i _ h hx
      · exact hx
    | retire n => exact hr x n hx
    | join | bindApp | proceed | answer | elapse => exact hx
  exact deeds_induction hd (begin_deeds x m) hb

end Exchange

end DynamicUi
