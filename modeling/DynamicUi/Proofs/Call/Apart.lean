import Mathlib.Data.List.Forall2
import DynamicUi.Proofs.Call.Progress
import DynamicUi.Proofs.Call.Retirement

/-! # Callers keep apart

All callers share the backend, the clock and the queue. A move that is made for one caller, or for
a call of that caller, leaves the others untouched. When calls go on and time goes by, the calls of
any caller may advance, and nothing else of it changes but what is pending for it and which messages
wait.
-/

namespace DynamicUi

variable {ρ : Type}

namespace Exchange

variable {x y z : Exchange ρ} {k m n : Nat} {c : Call ρ}

theorem follow_trans {cs cs' cs'' : List (Call ρ)} (h : List.Forall₂ (Call.Follows False) cs cs')
    (h' : List.Forall₂ (Call.Follows False) cs' cs'') :
    List.Forall₂ (Call.Follows False) cs cs'' := by
  induction h generalizing cs'' with
  | nil => exact h'
  | cons hc _ ih =>
    cases h' with
    | cons hc' h' => exact .cons (hc.trans id hc') (ih h')

structure Untouched (n : Nat) (x y : Exchange ρ) : Prop where
  caller : y.callers[n]? = x.callers[n]?
  calls : y.callsOf n = x.callsOf n
  inbox : y.inbox n = x.inbox n

/-- The calls of a caller have gone on. None is new, each keeps what it is and its outcome, and the
messages that have come in are those of the calls that have settled. -/
structure Advances (n : Nat) (x y : Exchange ρ) : Prop where
  caller : ∀ d, x.callers[n]? = some d → ∃ pending, y.callers[n]? = some { d with pending }
  calls : List.Forall₂ (Call.Follows False) (x.callsOf n) (y.callsOf n)
  inbox : ∃ new, y.inbox n = x.inbox n ++ new ∧ (x.messagesOf n ++ new).Perm (y.messagesOf n)

namespace Untouched

theorem refl (n : Nat) (x : Exchange ρ) : Untouched n x x := ⟨rfl, rfl, rfl⟩

theorem trans (h : Untouched n x y) (h' : Untouched n y z) : Untouched n x z :=
  ⟨h'.caller.trans h.caller, h'.calls.trans h.calls, h'.inbox.trans h.inbox⟩

theorem advances (h : Untouched n x y) : Advances n x y where
  caller := fun d hd => ⟨d.pending, h.caller.trans hd⟩
  calls := h.calls ▸ List.forall₂_same.mpr fun c _ => .refl False c
  inbox := by
    refine ⟨[], by rw [h.inbox, List.append_nil], ?_⟩
    rw [List.append_nil, messagesOf, messagesOf, h.calls]

end Untouched

namespace Advances

theorem refl (n : Nat) (x : Exchange ρ) : Advances n x x := (Untouched.refl n x).advances

theorem trans (h : Advances n x y) (h' : Advances n y z) : Advances n x z where
  caller := by
    intro d hd
    obtain ⟨pending, hy⟩ := h.caller d hd
    obtain ⟨pending', hz⟩ := h'.caller _ hy
    exact ⟨pending', hz⟩
  calls := follow_trans h.calls h'.calls
  inbox := by
    obtain ⟨new, hi, hp⟩ := h.inbox
    obtain ⟨new', hi', hp'⟩ := h'.inbox
    refine ⟨new ++ new', by rw [hi', hi, List.append_assoc], ?_⟩
    rw [← List.append_assoc]
    exact (hp.append_right new').trans hp'

theorem notesOf (h : Advances n x y) : y.notesOf n = x.notesOf n := by
  unfold Exchange.notesOf
  have hcalls := h.calls
  generalize x.callsOf n = cs at hcalls
  generalize y.callsOf n = cs' at hcalls
  induction hcalls with
  | nil => rfl
  | cons hc _ ih => rw [List.filterMap_cons, List.filterMap_cons, ih, hc.note]

theorem delivered (h : Advances n x y) {taken : List (Settlement ρ)}
    (hx : Delivered n taken x) : Delivered n taken y := by
  obtain ⟨new, hi, hp⟩ := h.inbox
  rw [Delivered, hi, ← List.append_assoc]
  exact (hx.append_right new).trans hp

end Advances

/-! ## Moves for one caller -/

def Move.touches (x : Exchange ρ) (n : Nat) : Move ρ → Bool
  | .join _ => x.callers.length = n
  | .bindApp m _ | .submit m .. | .execute m _ | .retire m => m = n
  | .proceed k | .answer k _ => (x.call? k).any (·.caller = n)
  | .elapse _ => true

theorem untouched_onCaller (x : Exchange ρ) (h : m ≠ n) (f : Caller → Caller) :
    Untouched n x (x.onCaller m f) := by
  exact ⟨List.getElem?_modify_ne f _ h, rfl, rfl⟩

theorem callsOf_setStage_of_ne (hc : x.call? k = some c) (h : c.caller ≠ n) (s : Stage) :
    (x.setStage k s).callsOf n = x.callsOf n := by
  obtain ⟨pre, post, hx, hy⟩ := setStage_split hc s
  simp [callsOf, hx, hy, h]

theorem inbox_message_of_ne (h : c.caller ≠ n) (o : Outcome) :
    (c.message? o).toList.filter (·.caller = n) = [] := by
  apply List.filter_eq_nil_iff.mpr
  intro m hm he
  have hcaller := (Call.message?_eq (Option.mem_toList.mp hm)).1
  exact h (hcaller ▸ of_decide_eq_true he)

theorem untouched_settle (hc : x.call? k = some c) (h : c.caller ≠ n) (b : Backend)
    (o : Outcome) : Untouched n x ({ x with backend := b }.settle k c o) where
  caller := (untouched_onCaller x h (·.removePending c.id)).caller
  calls := callsOf_setStage_of_ne hc h _
  inbox := by
    simp only [inbox, settle, onCaller, setStage, List.filter_append]
    rw [inbox_message_of_ne h, List.append_nil]

theorem untouched_wait (hc : x.call? k = some c) (h : c.caller ≠ n) (b : Backend) (due : Nat)
    (o : Outcome) : Untouched n x
      (({ x with backend := b }.onCaller c.caller (·.addPending c.id)).setStage k
        (.waiting due o)) where
  caller := (untouched_onCaller x h (·.addPending c.id)).caller
  calls := callsOf_setStage_of_ne hc h _
  inbox := rfl

theorem untouched_run (h : ∀ c, x.call? k = some c → c.caller ≠ n) : Untouched n x (x.run k) := by
  rcases run_cases x k with ⟨he, -⟩ | ⟨c, d, hc, -, hgo⟩
  · rw [he]
    exact .refl n x
  · rcases hgo.settles_or_waits with ⟨b, o, -, he, -⟩ | ⟨b, due, o, -, -, -, he⟩
    · rw [he]
      exact untouched_settle hc (h c hc) b o
    · rw [he]
      exact untouched_wait hc (h c hc) b due o

theorem untouched_enlist (x : Exchange ρ) (h : m ≠ n) (i : Invocation) (note? : Option ρ) :
    Untouched n x (x.enlist m i note?).1 where
  caller := (untouched_onCaller x h Caller.countCall).caller
  calls := by rw [callsOf_enlist, if_neg h, List.append_nil]
  inbox := rfl

theorem untouched_enqueue (x : Exchange ρ) (h : m ≠ n) (i : Invocation) (note : ρ) :
    Untouched n x (x.enqueue m i note).1 := by
  have he := untouched_enlist x h i (some note)
  obtain ⟨id, hc⟩ := enlist_call x m i (some note)
  have hk : (x.enlist m i (some note)).2 = x.calls.length := rfl
  simp only [enqueue, hk, hc]
  split
  · exact ⟨he.caller, he.calls, he.inbox⟩
  · exact he.trans (untouched_settle hc h _ _)

theorem untouched_answer (h : ∀ c, x.call? k = some c → c.caller ≠ n) (o : Outcome) :
    Untouched n x (x.answer k o) := by
  have hset : ∀ c, x.call? k = some c →
      Untouched n x { x.setStage k (.woken o) with ready := x.ready ++ [k] } :=
    fun c hc => ⟨rfl, callsOf_setStage_of_ne hc (h c hc) _, rfl⟩
  simp only [answer]
  split
  · next hs =>
    obtain ⟨c, hc, -⟩ := Option.map_eq_some_iff.mp hs
    exact hset c hc
  · next hs =>
    obtain ⟨c, hc, -⟩ := Option.map_eq_some_iff.mp hs
    exact hset c hc
  · exact .refl n x

theorem callsOf_wakeWhere (x : Exchange ρ) (p : Call ρ → Nat → Bool) (n : Nat) :
    (x.wakeWhere p).callsOf n =
      (x.callsOf n).map fun c => if c.due?.any (p c) then c.wake else c := by
  simp only [callsOf, wakeWhere, List.filter_map]
  congr 2
  funext c
  have hw : c.wake.caller = c.caller := by
    rw [← c.wake.skeleton_caller, c.skeleton_wake, c.skeleton_caller]
  simp only [Function.comp_apply]
  split
  · rw [hw]
  · rfl

theorem untouched_retire (x : Exchange ρ) (h : m ≠ n) : Untouched n x (x.retire m) := by
  refine .trans (y := x.wakeWhere fun c _ => c.caller = m) ?_ (untouched_onCaller _ h _)
  refine ⟨rfl, ?_, rfl⟩
  rw [callsOf_wakeWhere]
  refine (List.map_congr_left fun c hc => ?_).trans (List.map_id _)
  have hn : c.caller = n := of_decide_eq_true (List.mem_filter.mp hc).2
  cases hd : c.due? <;> simp [hn, Ne.symm h]

theorem untouched_addCaller (x : Exchange ρ) (h : x.callers.length ≠ n) (d : Caller) :
    Untouched n x (x.addCaller d).1 := by
  refine ⟨?_, rfl, rfl⟩
  rcases Nat.lt_or_gt_of_ne h with hlt | hgt
  · have hle : (x.callers ++ [d]).length ≤ n := by
      rw [List.length_append]
      exact hlt
    exact (List.getElem?_eq_none hle).trans (List.getElem?_eq_none (Nat.le_of_lt hlt)).symm
  · exact List.getElem?_append_left hgt

theorem untouched_takeOldest (x : Exchange ρ) (h : m ≠ n) : Untouched n x (x.takeOldest m) := by
  refine ⟨rfl, rfl, ?_⟩
  rw [inbox_takeOldest, if_neg h]

theorem untouched_move {m : Move ρ} (h : m.touches x n = false) :
    Untouched n x (x.move m) := by
  have hcall : ∀ k, ((x.call? k).any fun c => c.caller = n) = false →
      ∀ c, x.call? k = some c → c.caller ≠ n := by
    intro k hk c hc
    simpa [hc] using hk
  cases m with
  | join timeout => exact untouched_addCaller x (of_decide_eq_false h) _
  | bindApp m app => exact untouched_onCaller x (of_decide_eq_false h) _
  | submit m i note =>
    simp only [move]
    split
    · exact untouched_enqueue x (of_decide_eq_false h) i note
    · exact .refl n x
  | execute m i =>
    have hm : m ≠ n := of_decide_eq_false h
    simp only [move]
    split
    · refine (untouched_enlist x hm i none).trans (untouched_run fun c hc => ?_)
      obtain ⟨id, he⟩ := enlist_call x m i none
      cases he.symm.trans hc
      exact hm
    · exact .refl n x
  | proceed k =>
    obtain ⟨h₁, h₂, h₃⟩ :=
      untouched_run (x := { x with ready := x.ready.filter (· ≠ k) }) (hcall k h)
    exact ⟨h₁, h₂, h₃⟩
  | answer k o => exact untouched_answer (hcall k h) o
  | elapse ms => cases h
  | retire m => exact untouched_retire x (of_decide_eq_false h)

/-! ## The scheduler goes on -/

theorem advances_setStage (hc : x.call? k = some c) {s : Stage}
    (hs : c.Follows False { c with stage := s }) (n : Nat) :
    List.Forall₂ (Call.Follows False) (x.callsOf n) ((x.setStage k s).callsOf n) := by
  obtain ⟨pre, post, hx, hy⟩ := setStage_split hc s
  have hrefl : ∀ cs : List (Call ρ), List.Forall₂ (Call.Follows False) cs cs :=
    fun cs => List.forall₂_same.mpr fun c _ => .refl False c
  simp only [callsOf, hx, hy, List.filter_append, List.filter_cons]
  apply List.rel_append (hrefl _)
  split
  · exact .cons hs (hrefl _)
  · exact hrefl _

theorem Alike.advances (h : Alike x y) (n : Nat) : Advances n x y where
  caller := by
    intro d hd
    exact ⟨d.pending, by rw [h.callers, hd]⟩
  calls := by
    have he : List.Forall₂ Eq ((x.callsOf n).map Call.skeleton)
        ((y.callsOf n).map Call.skeleton) := by
      rw [List.forall₂_eq_eq_eq]
      exact (callsOf_congr h.calls n).symm
    rw [List.forall₂_map_left_iff, List.forall₂_map_right_iff] at he
    exact he.imp fun c c' hs => .of_skeleton hs.symm False.elim
  inbox := by
    refine ⟨[], by rw [inbox, inbox, h.posted, List.append_nil], ?_⟩
    rw [List.append_nil, messagesOf_congr h.calls]

theorem advances_settle (hc : x.call? k = some c) (hs : c.outcome? = none) (b : Backend)
    (o : Outcome) (n : Nat) : Advances n x ({ x with backend := b }.settle k c o) where
  caller := by
    intro d hd
    by_cases h : c.caller = n
    · exact ⟨(d.removePending c.id).pending,
        by simp [settle, onCaller, setStage, h, hd, Caller.removePending]⟩
    · exact ⟨d.pending, by simp [settle, onCaller, setStage, h, hd]⟩
  calls := by
    apply advances_setStage hc
    refine ⟨rfl, rfl, rfl, rfl, ?_, False.elim, False.elim⟩
    intro o' h
    rw [hs] at h
    cases h
  inbox := by
    refine ⟨(c.message? o).toList.filter (·.caller = n), ?_, ?_⟩
    · simp only [inbox, settle, onCaller, setStage, List.filter_append]
    · exact (messagesOf_setStage_settled hc hs o n).symm

theorem advances_wait (hc : x.call? k = some c) (hs : c.stage = .queued) (b : Backend)
    (due : Nat) (o : Outcome) (n : Nat) : Advances n x
      (({ x with backend := b }.onCaller c.caller (·.addPending c.id)).setStage k
        (.waiting due o)) where
  caller := by
    intro d hd
    by_cases h : c.caller = n
    · exact ⟨(d.addPending c.id).pending, by simp [onCaller, setStage, h, hd, Caller.addPending]⟩
    · exact ⟨d.pending, by simp [onCaller, setStage, h, hd]⟩
  calls := by
    apply advances_setStage hc
    refine ⟨rfl, rfl, rfl, rfl, ?_, False.elim, False.elim⟩
    intro o' h
    simp only [Call.outcome?, hs] at h
    cases h
  inbox := by
    refine ⟨[], (List.append_nil _).symm, ?_⟩
    rw [List.append_nil]
    exact .of_eq (messagesOf_setStage_waiting hc hs due o n).symm

theorem advances_run (x : Exchange ρ) (k n : Nat) : Advances n x (x.run k) := by
  rcases run_cases x k with ⟨he, -⟩ | ⟨c, d, hc, -, hgo⟩
  · rw [he]
    exact .refl n x
  · rcases hgo.settles_or_waits with ⟨b, o, hs, he, -⟩ | ⟨b, due, o, hs, -, -, he⟩
    · rw [he]
      exact advances_settle hc hs b o n
    · rw [he]
      exact advances_wait hc hs b due o n

/-- When calls go on and time goes by, the calls of each caller advance. -/
theorem advances_idle (x : Exchange ρ) {m : Move ρ} (h : m.isIdle = true) (n : Nat) :
    Advances n x (x.move m) := by
  cases m with
  | proceed k =>
    have hready : Alike x { x with ready := x.ready.filter (· ≠ k) } :=
      .of_calls rfl rfl rfl rfl rfl
    exact (hready.advances n).trans (advances_run _ k n)
  | elapse ms =>
    have hw := wakeWhere_alike x fun _ due => due ≤ x.clock + ms
    have ha : Alike x (x.wakeAt (x.clock + ms)) :=
      ⟨hw.backend, hw.background, hw.callers, hw.calls, hw.posted, hw.waiting⟩
    exact ha.advances n
  | join | bindApp | submit | execute | answer | retire => cases h

end Exchange

end DynamicUi
