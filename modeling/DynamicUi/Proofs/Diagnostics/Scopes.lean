import DynamicUi.Diagnostics.ActiveWindow
import Mathlib.Data.List.Induction

/-! # Windows inside windows

A guard remembers only the window that it displaced. If the guards of a thread are given up from the
newest to the oldest, those that are held form a chain: each remembers the window of the guard below
it, and the lowest what was current before all of them. So the newest guard always tells the window
at work, and a span keeps the one that it was opened in.
-/

namespace DynamicUi

/-- What is done on a thread. A name stands for the newest guard that goes by it. -/
inductive LogAction where
  | enter (guard : Nat) (c : ActiveWindow)
  | leave (guard : Nat)
  | openSpan
deriving DecidableEq

/-- A thread with the guards that are held, the newest first, and its spans, the oldest first. -/
structure LogScene where
  thread : LogThread
  held : List (Nat × Displaced)
  spans : List LogSpan

namespace LogScene

def step (s : LogScene) : LogAction → LogScene
  | .enter n c =>
    let (thread, g) := s.thread.enter c
    { s with thread, held := (n, g) :: s.held }
  | .leave n =>
    match s.held.find? (·.1 = n) with
    | some (_, g) => { s with thread := s.thread.leave g, held := s.held.eraseP (·.1 = n) }
    | none => s
  | .openSpan => { s with spans := s.spans ++ [s.thread.openSpan] }

def after (t : LogThread) (acts : List LogAction) : LogScene := acts.foldl step ⟨t, [], []⟩

variable (t : LogThread)

theorem after_concat (acts : List LogAction) (a : LogAction) :
    after t (acts ++ [a]) = (after t acts).step a :=
  List.foldl_append

end LogScene

namespace LogAction

/-! ## Sequences of actions -/

/-- The guards that are live, the newest first, with the windows that they were made for. -/
def track (live : List (Nat × ActiveWindow)) : LogAction → List (Nat × ActiveWindow)
  | enter n c => (n, c) :: live
  | leave n => live.eraseP (·.1 = n)
  | openSpan => live

def live (acts : List LogAction) : List (Nat × ActiveWindow) := acts.foldl track []

def KeepsOrder (live : List (Nat × ActiveWindow)) : LogAction → Prop
  | leave n => live.head?.map Prod.fst = some n
  | _ => True

instance (live : List (Nat × ActiveWindow)) : DecidablePred (KeepsOrder live)
  | enter .. | openSpan => .isTrue trivial
  | leave n => inferInstanceAs (Decidable (live.head?.map Prod.fst = some n))

def WellNested (acts : List LogAction) : Prop :=
  ∀ i (h : i < acts.length), KeepsOrder (live (acts.take i)) acts[i]

instance (acts : List LogAction) : Decidable (WellNested acts) :=
  inferInstanceAs (Decidable (∀ i (_ : i < acts.length), _))

def innermost (base : Option ActiveWindow) (live : List (Nat × ActiveWindow)) :
    Option ActiveWindow :=
  (live.head?.map Prod.snd).or base

theorem live_concat (acts : List LogAction) (a : LogAction) :
    live (acts ++ [a]) = track (live acts) a :=
  List.foldl_append

namespace WellNested

variable {acts : List LogAction}

theorem of_append {acts' : List LogAction} (h : WellNested (acts ++ acts')) : WellNested acts := by
  intro i hi
  have hstep := h i (by rw [List.length_append]; omega)
  rwa [List.take_append_of_le_length (Nat.le_of_lt hi), List.getElem_append_left hi] at hstep

theorem last {a : LogAction} (h : WellNested (acts ++ [a])) : KeepsOrder (live acts) a := by
  have hstep := h acts.length (by simp)
  rwa [List.take_left, List.getElem_concat_length rfl] at hstep

end WellNested

end LogAction

namespace LogScene

open LogAction

variable {t : LogThread} {acts : List LogAction}

/-! ## The chain of guards -/

/-- Each guard remembers the window of the guard below it, and the lowest one the base. -/
inductive Chain (base : Option ActiveWindow) :
    List (Nat × ActiveWindow) → List (Nat × Displaced) → Option ActiveWindow → Prop
  | base : Chain base [] [] base
  | guard (n : Nat) (c : ActiveWindow) {live : List (Nat × ActiveWindow)}
    {held : List (Nat × Displaced)} {current : Option ActiveWindow}
    (below : Chain base live held current) :
    Chain base ((n, c) :: live) ((n, ⟨current⟩) :: held) (some c)

theorem Chain.current_eq {base current : Option ActiveWindow} {live : List (Nat × ActiveWindow)}
    {held : List (Nat × Displaced)} (h : Chain base live held current) :
    current = innermost base live := by
  cases h <;> rfl

theorem Chain.step {base : Option ActiveWindow} {live : List (Nat × ActiveWindow)} {s : LogScene}
    {a : LogAction} (h : Chain base live s.held s.thread.current) (ha : KeepsOrder live a) :
    Chain base (track live a) (s.step a).held (s.step a).thread.current := by
  obtain ⟨⟨current⟩, held, spans⟩ := s
  cases a with
  | enter n c => exact .guard n c h
  | openSpan => exact h
  | leave n =>
    cases h with
    | base => cases ha
    | guard m c below =>
      obtain rfl : m = n := Option.some.inj ha
      simpa [track, LogScene.step, LogThread.leave] using below

theorem chain_after (h : WellNested acts) :
    Chain t.current (live acts) (after t acts).held (after t acts).thread.current := by
  induction acts using List.reverseRecOn with
  | nil => exact .base
  | append_singleton acts a ih =>
    rw [after_concat, live_concat]
    exact (ih h.of_append).step h.last

theorem current_after (h : WellNested acts) :
    (after t acts).thread.current = innermost t.current (live acts) :=
  (chain_after h).current_eq

/-! ## Spans -/

def opened (s : LogScene) : LogAction → List LogSpan
  | .openSpan => [s.thread.openSpan]
  | _ => []

theorem spans_step (s : LogScene) (a : LogAction) : (s.step a).spans = s.spans ++ s.opened a := by
  cases a with
  | enter | openSpan => simp [step, opened]
  | leave n =>
    simp only [step, opened, List.append_nil]
    split <;> rfl

theorem length_spans_after : (after t acts).spans.length = acts.count .openSpan := by
  induction acts using List.reverseRecOn with
  | nil => rfl
  | append_singleton acts a ih =>
    have hopened : (opened (after t acts) a).length = [a].count .openSpan := by cases a <;> rfl
    rw [after_concat, spans_step, List.length_append, ih, hopened, List.count_append]

theorem spans_prefix (acts acts' : List LogAction) :
    (after t acts).spans <+: (after t (acts ++ acts')).spans := by
  induction acts' using List.reverseRecOn with
  | nil => exact (List.append_nil acts).symm ▸ List.prefix_rfl
  | append_singleton acts' a ih =>
    rw [← List.append_assoc, after_concat, spans_step]
    exact ih.trans (List.prefix_append ..)

theorem span_opened (before rest : List LogAction) :
    (after t (before ++ .openSpan :: rest)).spans[before.count .openSpan]? =
      some (after t before).thread.openSpan := by
  obtain ⟨later, hlater⟩ := spans_prefix (t := t) (before ++ [.openSpan]) rest
  rw [List.append_assoc, List.singleton_append, after_concat, spans_step] at hlater
  rw [← hlater, List.append_assoc, ← length_spans_after (t := t),
    List.getElem?_append_right (Nat.le_refl _), Nat.sub_self]
  rfl

/-! ## Nesting -/

/-- On a thread whose guards are given up from the newest to the oldest, the window at work is at
any moment that of the newest live guard, or what was current before the sequence. Every span has
what was current when it was opened, and still has it when the sequence is over. When no guard is
left, the thread is as it was before. -/
theorem windows_nest (t : LogThread) {acts : List LogAction} (h : WellNested acts) :
    (∀ before rest, acts = before ++ rest →
      (after t before).thread.current = innermost t.current (live before)) ∧
    (∀ before rest, acts = before ++ .openSpan :: rest →
      (after t acts).spans[before.count .openSpan]? =
        some ⟨innermost t.current (live before)⟩) ∧
    (live acts = [] → (after t acts).thread = t) := by
  refine ⟨?_, ?_, ?_⟩
  · rintro before rest rfl
    exact current_after h.of_append
  · rintro before rest rfl
    rw [span_opened, ← current_after (t := t) h.of_append]
    rfl
  · intro hnone
    have hcurrent := current_after (t := t) h
    rw [hnone] at hcurrent
    exact congrArg LogThread.mk hcurrent

theorem nested_thrice :
    let a : ActiveWindow := ⟨"W1", "calc", .ofNat 1⟩
    let b : ActiveWindow := ⟨"W2", "notes", .ofNat 2⟩
    let acts : List LogAction := [.openSpan, .enter 0 a, .enter 1 b, .openSpan, .enter 2 a,
      .openSpan, .leave 2, .openSpan, .leave 1, .leave 0]
    WellNested acts ∧ live acts = [] ∧ (after .idle acts).thread = .idle ∧
      (after .idle acts).spans = [⟨none⟩, ⟨some b⟩, ⟨some a⟩, ⟨some b⟩] := by
  intro a b acts
  have hnested : WellNested acts := by decide
  have hnone : live acts = [] := rfl
  exact ⟨hnested, hnone, (windows_nest .idle hnested).2.2 hnone, by decide⟩

end LogScene

end DynamicUi
