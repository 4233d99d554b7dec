import DynamicUi.Proofs.Call.Accounts

/-! # Waiting comes to an end

Every call that can go on is in the queue, and the clock is behind every moment at which a call is
due. So as long as some call is open, either a call is run or the clock jumps; each call is sent
and woken at most once, which is what the bound on the rounds allows for.
-/

namespace DynamicUi

variable {ρ : Type}

def Call.mayWait (c : Call ρ) : Bool :=
  match c.stage with
  | .queued | .waiting .. => true
  | _ => false

namespace Exchange

variable {x y : Exchange ρ} {k n : Nat} {c : Call ρ}

/-- Calls that can go on are in the queue, and no waiting call is due. -/
structure Scheduled (x : Exchange ρ) : Prop where
  ready : ∀ (k : Nat) (c : Call ρ), x.call? k = some c → c.outcome? = none → c.due? = none →
    k ∈ x.ready
  due : ∀ (k : Nat) (c : Call ρ) (due : Nat), x.call? k = some c → c.due? = some due →
    x.clock < due

theorem ofBackend_scheduled (b : Backend) (background : Bool) :
    Scheduled (ofBackend b background : Exchange ρ) where
  ready := by
    intro k c hc
    simp [ofBackend, call?] at hc
  due := by
    intro k c due hc
    simp [ofBackend, call?] at hc

/-- What is to hold before a call is run: it may have been taken out of the queue. -/
structure ScheduledBut (k : Nat) (x : Exchange ρ) : Prop where
  ready : ∀ (j : Nat) (c : Call ρ), j ≠ k → x.call? j = some c → c.outcome? = none →
    c.due? = none → j ∈ x.ready
  due : ∀ (j : Nat) (c : Call ρ) (due : Nat), x.call? j = some c → c.due? = some due →
    x.clock < due

theorem ScheduledBut.setStage (hx : ScheduledBut k x) {s : Stage}
    (hopen : ∀ c : Call ρ, Call.outcome? { c with stage := s } = none →
      Call.due? { c with stage := s } = none → k ∈ y.ready)
    (hlate : ∀ (c : Call ρ) (due : Nat), Call.due? { c with stage := s } = some due → x.clock < due)
    (hcall : ∀ j, y.call? j = (x.setStage k s).call? j) (hready : ∀ j ∈ x.ready, j ∈ y.ready)
    (hclock : y.clock = x.clock) : Scheduled y := by
  constructor
  case ready =>
    intro j c hc ho hd
    rw [hcall, setStage_call?] at hc
    obtain ⟨e, he, rfl⟩ := Option.map_eq_some_iff.mp hc
    by_cases h : k = j
    · rw [if_pos h] at ho hd
      exact h ▸ hopen e ho hd
    · rw [if_neg h] at ho hd
      exact hready j (hx.ready j e (Ne.symm h) he ho hd)
  case due =>
    intro j c due hc hd
    rw [hcall, setStage_call?] at hc
    obtain ⟨e, he, rfl⟩ := Option.map_eq_some_iff.mp hc
    rw [hclock]
    by_cases h : k = j
    · rw [if_pos h] at hd
      exact hlate e due hd
    · rw [if_neg h] at hd
      exact hx.due j e due he hd

theorem ScheduledBut.settle (hx : ScheduledBut k x) (c : Call ρ) (o : Outcome) :
    Scheduled (x.settle k c o) :=
  hx.setStage (s := .settled o) (fun _ h => by cases h) (fun _ _ h => by cases h) (fun _ => rfl)
    (fun _ h => h) rfl

theorem ScheduledBut.run (hx : Sound x) (hs : ScheduledBut k x) : Scheduled (x.run k) := by
  rcases run_cases x k with ⟨he, hk⟩ | ⟨c, d, hc, hd, hgo⟩
  · rw [he]
    refine ⟨?_, hs.due⟩
    intro j c hc ho hn
    by_cases hj : j = k
    · subst hj
      have hd := List.getElem?_eq_getElem (hx.caller_lt c (List.mem_of_getElem? hc))
      exact absurd hn (hk c _ hc hd ho)
    · exact hs.ready j c hj hc ho hn
  · rcases hgo.settles_or_waits with ⟨b, o, -, he, -⟩ | ⟨b, due, o, -, -, hlt, he⟩
    · rw [he]
      exact ScheduledBut.settle (x := { x with backend := b }) ⟨hs.ready, hs.due⟩ c o
    · rw [he]
      exact hs.setStage (s := .waiting due o) (fun _ _ h => by cases h)
        (fun _ _ h => by cases h; exact hlt) (fun _ => rfl) (fun _ h => h) rfl

theorem Scheduled.wakeWhere (hs : Scheduled x) (p : Call ρ → Nat → Bool) (clock : Nat)
    (hclock : ∀ (k : Nat) (c : Call ρ) (due : Nat), x.call? k = some c → c.due? = some due →
      p c due = false → clock < due) : Scheduled { x.wakeWhere p with clock } := by
  have hcall : ∀ k c, (x.wakeWhere p).call? k = some c →
      ∃ e, x.call? k = some e ∧ c = if e.due?.any (p e) then e.wake else e := by
    intro k c hc
    simp only [call?, Exchange.wakeWhere, List.getElem?_map, Option.map_eq_some_iff] at hc
    obtain ⟨e, he, rfl⟩ := hc
    exact ⟨e, he, rfl⟩
  constructor
  case ready =>
    intro k c hc ho hn
    obtain ⟨e, he, rfl⟩ := hcall k c hc
    apply List.mem_append.mpr
    by_cases h : e.due?.any (p e)
    · refine .inr (List.mem_map.mpr ⟨(e, k), List.mem_filter.mpr ⟨?_, h⟩, rfl⟩)
      exact List.mem_zipIdx_iff_getElem?.mpr he
    · rw [if_neg h] at ho hn
      exact .inl (hs.ready k e he ho hn)
  case due =>
    intro k c due hc hd
    obtain ⟨e, he, rfl⟩ := hcall k c hc
    by_cases h : e.due?.any (p e)
    · rw [if_pos h, wake_due?] at hd
      cases hd
    · rw [if_neg h] at hd
      rw [hd] at h
      exact hclock k e due he hd (Bool.eq_false_iff.mpr h)

theorem Scheduled.of_ready (hs : Scheduled x) (hcalls : y.calls = x.calls)
    (hready : ∀ k ∈ x.ready, k ∈ y.ready) (hclock : y.clock = x.clock) : Scheduled y where
  ready := by
    intro k c hc ho hn
    rw [call?, hcalls] at hc
    exact hready k (hs.ready k c hc ho hn)
  due := by
    intro k c due hc hd
    rw [call?, hcalls] at hc
    rw [hclock]
    exact hs.due k c due hc hd

theorem Scheduled.enlist (hs : Scheduled x) (n : Nat) (i : Invocation) (note? : Option ρ) :
    ScheduledBut x.calls.length (x.enlist n i note?).1 := by
  have hcall : ∀ j c, j ≠ x.calls.length → (x.enlist n i note?).1.call? j = some c →
      x.call? j = some c := by
    intro j c hj hc
    have hlt : j < x.calls.length + 1 := by
      simpa [Exchange.enlist, onCaller] using (List.getElem?_eq_some_iff.mp hc).1
    exact (List.getElem?_append_left (by omega)).symm.trans hc
  obtain ⟨id, he⟩ := enlist_call x n i note?
  constructor
  case ready =>
    intro j c hj hc
    exact hs.ready j c (hcall j c hj hc)
  case due =>
    intro j c due hc hd
    by_cases hj : j = x.calls.length
    · subst hj
      obtain rfl := Option.some.inj (he.symm.trans hc)
      cases hd
    · exact hs.due j c due (hcall j c hj hc) hd

theorem Scheduled.enqueue (hs : Scheduled x) (n : Nat) (i : Invocation) (note : ρ) :
    Scheduled (x.enqueue n i note).1 := by
  have hb := hs.enlist n i (some note)
  obtain ⟨id, hc⟩ := enlist_call x n i (some note)
  have hk : (x.enlist n i (some note)).2 = x.calls.length := rfl
  simp only [Exchange.enqueue, hk, hc]
  split
  · refine ⟨?_, hb.due⟩
    intro j c hj ho hn
    by_cases h : j = x.calls.length
    · exact List.mem_append_right _ (List.mem_singleton.mpr h)
    · exact List.mem_append_left _ (hb.ready j c h hj ho hn)
  · exact hb.settle _ _

theorem Scheduled.move (hx : Sound x) (hs : Scheduled x) (m : Move ρ) : Scheduled (x.move m) := by
  cases m with
  | join | bindApp => exact hs.of_ready rfl (fun _ h => h) rfl
  | submit n i note =>
    simp only [Exchange.move]
    split
    · exact hs.enqueue n i note
    · exact hs
  | execute n i =>
    simp only [Exchange.move]
    split
    · next hn => exact (hs.enlist n i none).run (hx.enlist hn i none)
    · exact hs
  | proceed k =>
    have hk : Sound { x with ready := x.ready.filter (· ≠ k) } :=
      Alike.sound (x := x) (.of_calls rfl rfl rfl rfl rfl) hx
    refine ScheduledBut.run hk ⟨?_, hs.due⟩
    intro j c hj hc ho hn
    exact List.mem_filter.mpr ⟨hs.ready j c hc ho hn, decide_eq_true hj⟩
  | answer k o =>
    have hb : ScheduledBut k x := ⟨fun j c _ => hs.ready j c, hs.due⟩
    have hw : Scheduled { x.setStage k (.woken o) with ready := x.ready ++ [k] } :=
      hb.setStage (s := .woken o) (fun _ _ _ => List.mem_append_right _ (List.mem_singleton_self k))
        (fun _ _ h => by cases h) (fun _ => rfl) (fun _ h => List.mem_append_left _ h) rfl
    simp only [Exchange.move, answer]
    split
    · exact hw
    · exact hw
    · exact hs
  | elapse ms =>
    apply hs.wakeWhere (fun _ due => due ≤ x.clock + ms)
    intro k c due _ _ h
    exact Nat.lt_of_not_le (of_decide_eq_false h)
  | retire n =>
    have h := hs.wakeWhere (fun c _ => c.caller = n) x.clock fun k c due hc hd _ =>
      hs.due k c due hc hd
    exact h.of_ready rfl (fun _ h => h) rfl

/-! ## Waiting -/

def Move.isIdle : Move ρ → Bool
  | .proceed _ | .elapse _ => true
  | _ => false

theorem run_withReady (x : Exchange ρ) (k : Nat) (r : List Nat) :
    Exchange.run { x with ready := r } k = { x.run k with ready := r } := by
  simp only [run, call?]
  split
  · rfl
  · split
    · simp only [start]
      split
      · rfl
      · simp only [send]
        split <;> rfl
    · rfl
    · rfl

theorem run_ready (x : Exchange ρ) (k : Nat) : (x.run k).ready = x.ready := by
  have h := congrArg ready (run_withReady x k x.ready)
  exact h

theorem moves_proceed (x : Exchange ρ) (ks : List Nat) :
    x.moves (ks.map .proceed) =
      { ks.foldl run { x with ready := [] } with ready := x.ready.filter (· ∉ ks) } := by
  induction ks generalizing x with
  | nil =>
    have hr : x.ready.filter (· ∉ []) = x.ready := List.filter_eq_self.mpr fun k _ => by simp
    rw [hr]
    rfl
  | cons k ks ih =>
    rw [List.map_cons, moves_cons, ih, List.foldl_cons]
    simp only [move, runFirst, run_withReady, List.filter_filter]
    congr 1
    refine List.filter_congr fun j _ => ?_
    simp [Bool.and_comm]

theorem foldl_run_ready (ks : List Nat) (x : Exchange ρ) : (ks.foldl run x).ready = x.ready := by
  induction ks generalizing x with
  | nil => rfl
  | cons k ks ih => exact (ih (x.run k)).trans (run_ready x k)

theorem runReady_ready (x : Exchange ρ) : x.runReady.ready = [] := foldl_run_ready _ _

theorem runReady_moves (x : Exchange ρ) : x.runReady = x.moves (x.ready.map .proceed) := by
  have hr : x.ready.filter (· ∉ x.ready) = [] :=
    List.filter_eq_nil_iff.mpr fun k hk => by simpa using hk
  rw [moves_proceed, hr]
  exact congrArg (fun r => { x.runReady with ready := r }) (runReady_ready x)

theorem wakeAt_move {due : Nat} (h : x.clock ≤ due) :
    x.wakeAt due = x.move (.elapse (due - x.clock)) := by
  rw [move, Nat.add_sub_cancel' h]

theorem foldl_earlier_none (l : List (Call ρ)) (best : Option Nat) :
    l.foldl (fun best c => earlier best c.due?) best = none ↔
      best = none ∧ ∀ c ∈ l, c.due? = none := by
  induction l generalizing best with
  | nil => simp
  | cons c l ih =>
    rw [List.foldl_cons, ih, List.forall_mem_cons, ← and_assoc]
    refine and_congr_left fun _ => ?_
    cases best <;> cases c.due? <;> simp [earlier]

theorem earlier_eq_some {a b : Option Nat} {due : Nat} (h : earlier a b = some due) :
    a = some due ∨ b = some due := by
  match a, b with
  | none, _ => exact .inr h
  | some _, none => exact .inl h
  | some a, some b =>
    simp only [earlier] at h
    split at h
    · exact .inl h
    · exact .inr h

theorem foldl_earlier_some {l : List (Call ρ)} {best : Option Nat} {due : Nat}
    (h : l.foldl (fun best c => earlier best c.due?) best = some due) :
    best = some due ∨ ∃ c ∈ l, c.due? = some due := by
  induction l generalizing best with
  | nil => exact .inl h
  | cons c l ih =>
    rcases ih h with he | ⟨d, hd, hdue⟩
    · exact (earlier_eq_some he).imp_right fun h => ⟨c, List.mem_cons_self, h⟩
    · exact .inr ⟨d, List.mem_cons_of_mem _ hd, hdue⟩

theorem nextDue?_eq_none : x.nextDue? = none ↔ ∀ c ∈ x.calls, c.due? = none :=
  (foldl_earlier_none x.calls none).trans (and_iff_right rfl)

theorem nextDue?_eq_some {due : Nat} (h : x.nextDue? = some due) :
    ∃ c ∈ x.calls, c.due? = some due :=
  (foldl_earlier_some h).resolve_left nofun

theorem moves_scheduled (hx : Sound x) (hs : Scheduled x) (ms : List (Move ρ)) :
    Sound (x.moves ms) ∧ Scheduled (x.moves ms) :=
  moves_induction (P := fun x => Sound x ∧ Scheduled x)
    (fun _ m h => ⟨h.1.move m, h.2.move h.1 m⟩) ⟨hx, hs⟩ ms

/-- A round of waiting, made of moves: calls go on, or time goes by. -/
inductive Round (x : Exchange ρ) : List (Move ρ) → Prop
  | run (h : x.ready ≠ []) : Round x (x.ready.map .proceed)
  | jump {due : Nat} (h : x.ready = []) (hdue : x.nextDue? = some due) (hlt : x.clock < due) :
      Round x [.elapse (due - x.clock)]

theorem Round.isIdle {ms : List (Move ρ)} (h : Round x ms) : ∀ m ∈ ms, m.isIdle = true := by
  intro m hm
  cases h with
  | run h =>
    obtain ⟨k, -, rfl⟩ := List.mem_map.mp hm
    rfl
  | jump h hdue hlt =>
    rw [List.mem_singleton.mp hm]
    rfl

theorem waitWithin_succ (hs : Scheduled x) (done : Exchange ρ → Bool) (rounds : Nat) :
    (done x = true ∧ waitWithin done (rounds + 1) x = x) ∨
    (x.ready = [] ∧ x.nextDue? = none ∧ waitWithin done (rounds + 1) x = x) ∨
    ∃ ms, Round x ms ∧ waitWithin done (rounds + 1) x = waitWithin done rounds (x.moves ms) := by
  rw [waitWithin]
  by_cases hd : done x = true
  · exact .inl ⟨hd, if_pos hd⟩
  rw [if_neg hd]
  by_cases hr : x.ready = []
  · have he : ¬(!x.ready.isEmpty) = true := by simp [hr]
    rw [if_neg he]
    cases hn : x.nextDue? with
    | none => exact .inr (.inl ⟨hr, rfl, rfl⟩)
    | some due =>
      obtain ⟨c, hc, hdue⟩ := nextDue?_eq_some hn
      obtain ⟨k, hk⟩ := List.getElem?_of_mem hc
      have hlt := hs.due k c due hk hdue
      refine .inr (.inr ⟨_, .jump hr hn hlt, ?_⟩)
      rw [moves_cons, moves_nil, ← wakeAt_move (Nat.le_of_lt hlt)]
  · have he : (!x.ready.isEmpty) = true := by simpa using hr
    rw [if_pos he]
    refine .inr (.inr ⟨_, .run hr, ?_⟩)
    rw [← runReady_moves]

theorem waitWithin_moves (hx : Sound x) (hs : Scheduled x) (done : Exchange ρ → Bool)
    (rounds : Nat) :
    ∃ ms : List (Move ρ), (∀ m ∈ ms, m.isIdle = true) ∧ waitWithin done rounds x = x.moves ms := by
  induction rounds generalizing x with
  | zero => exact ⟨[], nofun, rfl⟩
  | succ rounds ih =>
    rcases waitWithin_succ hs done rounds with ⟨-, he⟩ | ⟨-, -, he⟩ | ⟨ms, hms, he⟩
    · exact ⟨[], nofun, he⟩
    · exact ⟨[], nofun, he⟩
    · obtain ⟨hx', hs'⟩ := moves_scheduled hx hs ms
      obtain ⟨ms', hms', he'⟩ := ih hx' hs'
      refine ⟨ms ++ ms', ?_, ?_⟩
      · exact List.forall_mem_append.mpr ⟨hms.isIdle, hms'⟩
      · rw [he, he', moves_append]

/-! ## The bound on the rounds -/

/-- The calls that can still be woken count twice, and one more if some call is ready. -/
def roundsLeft (x : Exchange ρ) : Nat :=
  2 * x.calls.countP Call.mayWait + if x.ready = [] then 0 else 1

theorem mayWait_setStage {s : Stage} (hc : x.call? k = some c)
    (h : Call.mayWait { c with stage := s } = true → c.mayWait = true) :
    (x.setStage k s).calls.countP Call.mayWait ≤ x.calls.countP Call.mayWait := by
  obtain ⟨pre, post, hx, hy⟩ := setStage_split hc s
  rw [hx, hy, List.countP_append, List.countP_append, List.countP_cons, List.countP_cons]
  have hle : (if Call.mayWait { c with stage := s } = true then 1 else 0) ≤
      if c.mayWait = true then 1 else 0 := by
    split
    · next hs => exact Nat.le_of_eq (if_pos (h hs)).symm
    · exact Nat.zero_le _
  omega

theorem mayWait_run (x : Exchange ρ) (k : Nat) :
    (x.run k).calls.countP Call.mayWait ≤ x.calls.countP Call.mayWait := by
  rcases run_cases x k with ⟨he, -⟩ | ⟨c, d, hc, hd, hgo⟩
  · exact Nat.le_of_eq (by rw [he])
  · rcases hgo.settles_or_waits with ⟨b, o, -, he, -⟩ | ⟨b, due, o, hs, -, -, he⟩
    · rw [he]
      exact mayWait_setStage (s := .settled o) hc nofun
    · rw [he]
      refine mayWait_setStage (s := .waiting due o) hc fun _ => ?_
      simp only [Call.mayWait, hs]

theorem mayWait_foldl_run (ks : List Nat) (x : Exchange ρ) :
    (ks.foldl run x).calls.countP Call.mayWait ≤ x.calls.countP Call.mayWait := by
  induction ks generalizing x with
  | nil => exact Nat.le_refl _
  | cons k ks ih => exact Nat.le_trans (ih (x.run k)) (mayWait_run x k)

theorem mayWait_wake (c : Call ρ) (h : c.wake.mayWait = true) : c.mayWait = true := by
  cases hs : c.stage <;> simp_all [Call.wake, Call.mayWait]

theorem mayWait_wakeAt {due : Nat} (h : x.nextDue? = some due) :
    (x.wakeAt due).calls.countP Call.mayWait < x.calls.countP Call.mayWait := by
  obtain ⟨c, hc, hd⟩ := nextDue?_eq_some h
  obtain ⟨pre, post, hx⟩ := List.append_of_mem hc
  let f : Call ρ → Call ρ := fun c => if c.due?.any fun due' => due' ≤ due then c.wake else c
  have hf : ∀ e : Call ρ, (f e).mayWait = true → e.mayWait = true := by
    intro e he
    simp only [f] at he
    split at he
    · exact mayWait_wake e he
    · exact he
  have hle : ∀ l : List (Call ρ), (l.map f).countP Call.mayWait ≤ l.countP Call.mayWait := by
    intro l
    rw [List.countP_map]
    exact List.countP_mono_left fun e _ he => hf e he
  have hcalls : (x.wakeAt due).calls = x.calls.map f := rfl
  have hstage : ∃ o, c.stage = .waiting due o := by
    cases hs : c.stage <;> simp_all [Call.due?]
  obtain ⟨o, hs⟩ := hstage
  have hfc : (f c).mayWait = false := by simp [f, hd, Call.wake, Call.mayWait, hs]
  have hcm : c.mayWait = true := by simp only [Call.mayWait, hs]
  rw [hcalls, hx, List.map_append, List.map_cons, List.countP_append, List.countP_append,
    List.countP_cons, List.countP_cons, hfc, hcm]
  have h₁ := hle pre
  have h₂ := hle post
  simp only [Bool.false_eq_true, if_false, if_true]
  omega

theorem Round.roundsLeft {ms : List (Move ρ)} (h : Round x ms) :
    (x.moves ms).roundsLeft < x.roundsLeft := by
  cases h with
  | run h =>
    rw [← runReady_moves, Exchange.roundsLeft, Exchange.roundsLeft, runReady_ready, if_pos rfl,
      if_neg h]
    have hle := mayWait_foldl_run x.ready { x with ready := [] }
    have he : x.runReady.calls.countP Call.mayWait ≤ x.calls.countP Call.mayWait := hle
    omega
  | jump h hdue hlt =>
    rw [moves_cons, moves_nil, ← wakeAt_move (Nat.le_of_lt hlt), Exchange.roundsLeft,
      Exchange.roundsLeft, if_pos h]
    have hw := mayWait_wakeAt hdue
    split <;> omega

theorem roundsLeft_le (x : Exchange ρ) : x.roundsLeft ≤ 2 * x.calls.length + 1 := by
  have h := x.calls.countP_le_length (p := Call.mayWait)
  unfold roundsLeft
  split <;> omega

theorem settled_of_stuck (hs : Scheduled x) (hr : x.ready = []) (hn : x.nextDue? = none) :
    ∀ c ∈ x.calls, c.outcome? ≠ none := by
  intro c hc ho
  obtain ⟨k, hk⟩ := List.getElem?_of_mem hc
  have hmem := hs.ready k c hk ho (nextDue?_eq_none.mp hn c hc)
  rw [hr] at hmem
  cases hmem

theorem waitWithin_done (hx : Sound x) (hs : Scheduled x) {done : Exchange ρ → Bool}
    (hdone : ∀ ms : List (Move ρ), (∀ m ∈ ms, m.isIdle = true) →
      (∀ c ∈ (x.moves ms).calls, c.outcome? ≠ none) → done (x.moves ms) = true) {rounds : Nat}
    (h : x.roundsLeft < rounds) : done (waitWithin done rounds x) = true := by
  induction rounds generalizing x with
  | zero => exact absurd h (Nat.not_lt_zero _)
  | succ rounds ih =>
    rcases waitWithin_succ hs done rounds with ⟨hd, he⟩ | ⟨hr, hn, he⟩ | ⟨ms, hms, he⟩
    · rw [he]
      exact hd
    · rw [he]
      exact hdone [] nofun (settled_of_stuck hs hr hn)
    · obtain ⟨hx', hs'⟩ := moves_scheduled hx hs ms
      rw [he]
      apply ih hx' hs' _ (Nat.lt_of_lt_of_le hms.roundsLeft (Nat.le_of_lt_succ h))
      intro ms' hms' hset
      rw [← moves_append] at hset ⊢
      exact hdone _ (List.forall_mem_append.mpr ⟨hms.isIdle, hms'⟩) hset

/-- Waiting for what holds once every call is settled succeeds, by idle moves only. -/
theorem waitUntil_done (hx : Sound x) (hs : Scheduled x) (done : Exchange ρ → Bool)
    (hdone : ∀ ms : List (Move ρ), (∀ m ∈ ms, m.isIdle = true) →
      (∀ c ∈ (x.moves ms).calls, c.outcome? ≠ none) → done (x.moves ms) = true) :
    ∃ ms : List (Move ρ), (∀ m ∈ ms, m.isIdle = true) ∧ x.waitUntil done = x.moves ms ∧
      done (x.moves ms) = true := by
  obtain ⟨ms, hms, he⟩ := waitWithin_moves hx hs done (2 * x.calls.length + 2)
  refine ⟨ms, hms, he, ?_⟩
  rw [← he]
  exact waitWithin_done hx hs hdone (Nat.lt_succ_of_le (roundsLeft_le x))

end Exchange

end DynamicUi
