import DynamicUi.Proofs.Call.Progress

/-! # Cleaning up is final

Outcomes last, and each call with a note posts its one message when it settles. After a caller has
been cleaned up nothing is pending for it, its calls no longer reach the backend, and those that
were open settle as disposed whenever they go on, whatever they were waiting for.
-/

namespace DynamicUi

variable {ρ : Type}

/-- What becomes of a call: it keeps what it is and its outcome. If its caller is gone it does not
wait, and an outcome it gets is that it was abandoned. -/
structure Call.Follows (gone : Prop) (c c' : Call ρ) : Prop where
  caller : c'.caller = c.caller
  id : c'.id = c.id
  invocation : c'.invocation = c.invocation
  note : c'.note? = c.note?
  outcome : ∀ o, c.outcome? = some o → c'.outcome? = some o
  abandoned : gone → c.outcome? = none → ∀ o, c'.outcome? = some o →
    o = .error (.disposed c.invocation.tool)
  due : gone → c.due? = none → c'.due? = none

namespace Call

variable {gone gone' : Prop} {c c' c'' : Call ρ}

theorem Follows.refl (gone : Prop) (c : Call ρ) : Follows gone c c := by
  refine ⟨rfl, rfl, rfl, rfl, fun _ h => h, ?_, fun _ h => h⟩
  intro _ h o h'
  rw [h] at h'
  cases h'

theorem Follows.trans (hg : gone → gone') (h : Follows gone c c') (h' : Follows gone' c' c'') :
    Follows gone c c'' where
  caller := h'.caller.trans h.caller
  id := h'.id.trans h.id
  invocation := h'.invocation.trans h.invocation
  note := h'.note.trans h.note
  outcome := fun o ho => h'.outcome o (h.outcome o ho)
  abandoned := by
    intro g hc o ho
    cases hc' : c'.outcome? with
    | none => exact h.invocation ▸ h'.abandoned (hg g) hc' o ho
    | some o' =>
      obtain rfl : o' = o := Option.some.inj ((h'.outcome o' hc').symm.trans ho)
      exact h.abandoned g hc o' hc'
  due := fun g hd => h'.due (hg g) (h.due g hd)

theorem Follows.mono (h : Follows gone' c c') (hg : gone → gone') : Follows gone c c' :=
  ⟨h.caller, h.id, h.invocation, h.note, h.outcome, fun g => h.abandoned (hg g),
    fun g => h.due (hg g)⟩

theorem Follows.of_skeleton (h : c'.skeleton = c.skeleton)
    (hdue : gone → c.due? = none → c'.due? = none) : Follows gone c c' := by
  have ho : c'.outcome? = c.outcome? := by
    rw [← c'.skeleton_outcome?, h, c.skeleton_outcome?]
  constructor
  case caller => rw [← c'.skeleton_caller, h, c.skeleton_caller]
  case id => rw [← c'.skeleton_id, h, c.skeleton_id]
  case invocation => rw [← c'.skeleton_invocation, h, c.skeleton_invocation]
  case note => rw [← c'.skeleton_note?, h, c.skeleton_note?]
  case outcome =>
    intro o h
    rwa [ho]
  case abandoned =>
    intro _ hn o h
    rw [ho, hn] at h
    cases h
  case due => exact hdue

end Call

namespace Exchange

variable {x y : Exchange ρ} {k n : Nat} {c : Call ρ}

def isDisposed (x : Exchange ρ) (n : Nat) : Bool := x.callers[n]?.any Caller.disposed

theorem isDisposed_modify {m : Nat} {f : Caller → Caller} (h : y.callers = x.callers.modify m f)
    (n : Nat) : y.isDisposed n =
      x.callers[n]?.any fun d => if m = n then (f d).disposed else d.disposed := by
  simp only [isDisposed, h, List.getElem?_modify]
  cases x.callers[n]? with
  | none => rfl
  | some d => by_cases h : m = n <;> simp [h]

theorem isDisposed_of_modify {m : Nat} {f : Caller → Caller} (h : y.callers = x.callers.modify m f)
    (hf : ∀ d, (f d).disposed = d.disposed) (n : Nat) : y.isDisposed n = x.isDisposed n := by
  simp only [isDisposed_modify h, hf, ite_self]
  rfl

theorem isDisposed_join (timeout : Option Nat) (n : Nat) :
    (x.addCaller (.unbound timeout)).1.isDisposed n = x.isDisposed n := by
  simp only [isDisposed, addCaller]
  rcases Nat.lt_trichotomy n x.callers.length with h | rfl | h
  · rw [List.getElem?_append_left h]
  · rw [List.getElem?_concat_length, List.getElem?_eq_none (Nat.le_refl _)]
    rfl
  · rw [List.getElem?_eq_none (by simpa using Nat.succ_le_of_lt h),
      List.getElem?_eq_none (Nat.le_of_lt h)]

theorem Deed.isDisposed (h : Deed x y) (n : Nat) : y.isDisposed n = x.isDisposed n := by
  cases h with
  | alike h => simp only [Exchange.isDisposed, h.callers]
  | join timeout => exact isDisposed_join timeout n
  | bindApp m app =>
    apply isDisposed_of_modify rfl
    intro d
    obtain ⟨app?, he⟩ := bindApp_caller d app
    rw [he]
  | @settle k c d b o hc hd hs h =>
    exact isDisposed_of_modify (m := c.caller) (f := (·.removePending c.id)) rfl (fun _ => rfl) n
  | @wait k c d b due o hc hd hs h =>
    exact isDisposed_of_modify (m := c.caller) (f := (·.addPending c.id)) rfl (fun _ => rfl) n

theorem Deed.background (h : Deed x y) : y.background = x.background := by
  cases h with
  | alike h => exact h.background
  | join | bindApp | settle | wait => rfl

theorem isDisposed_retire (x : Exchange ρ) (m n : Nat) :
    (x.onCaller m Caller.retire).isDisposed n =
      (x.isDisposed n || m = n && n < x.callers.length) := by
  rw [isDisposed_modify (x := x) rfl]
  by_cases hn : n < x.callers.length
  · by_cases h : m = n <;> simp [isDisposed, Caller.retire, h, hn]
  · simp [isDisposed, hn]

def Move.retires (n : Nat) : Move ρ → Bool
  | .retire m => m = n
  | _ => false

theorem isDisposed_begin (x : Exchange ρ) (m : Move ρ) (n : Nat) : (x.begin m).isDisposed n =
    (x.isDisposed n || m.retires n && n < x.callers.length) := by
  have he : ∀ i inv note?, (x.enlist i inv note?).1.isDisposed n = x.isDisposed n := by
    intro i inv note?
    exact isDisposed_of_modify (m := i) (f := Caller.countCall) rfl (fun _ => rfl) n
  cases m with
  | submit i inv note => simp only [begin]; split <;> simp [he, Move.retires]
  | execute i inv => simp only [begin]; split <;> simp [he, Move.retires]
  | retire i => exact isDisposed_retire x i n
  | join | bindApp | proceed | answer | elapse => exact (Bool.or_false _).symm

/-- Only being cleaned up makes a caller disposed, and forever. -/
theorem isDisposed_move (x : Exchange ρ) (m : Move ρ) (n : Nat) : (x.move m).isDisposed n =
    (x.isDisposed n || m.retires n && n < x.callers.length) :=
  deeds_induction (P := fun y => y.isDisposed n = _) (fun _ _ h hx => (h.isDisposed n).trans hx)
    (begin_deeds x m) (isDisposed_begin x m n)

theorem not_isDisposed_moves (h : x.isDisposed n = false) {ms : List (Move ρ)}
    (hms : .retire n ∉ ms) : (x.moves ms).isDisposed n = false := by
  induction ms generalizing x with
  | nil => exact h
  | cons m ms ih =>
    rw [List.mem_cons, not_or] at hms
    have hm : m.retires n = false := by
      cases m with
      | retire i =>
        apply decide_eq_false
        rintro rfl
        exact hms.1 rfl
      | join | bindApp | submit | execute | proceed | answer | elapse => rfl
    refine ih ?_ hms.2
    rw [isDisposed_move, h, hm, Bool.false_and, Bool.or_false]

/-! ## What becomes of a call -/

def gone (x : Exchange ρ) (n : Nat) : Prop := x.background = true ∧ x.isDisposed n = true

theorem Alike.follows (h : Alike x y) (hc : x.call? k = some c) (g : Prop) :
    ∃ c', y.call? k = some c' ∧ c.Follows g c' := by
  have hk : (y.call? k).map Call.skeleton = some c.skeleton := by
    have hcalls := congrArg (·[k]?) h.calls
    simp only [List.getElem?_map] at hcalls
    exact hcalls.trans (congrArg (Option.map Call.skeleton) hc)
  obtain ⟨c', hc', hs⟩ := Option.map_eq_some_iff.mp hk
  refine ⟨c', hc', .of_skeleton hs fun _ hn => ?_⟩
  by_cases hdue : c'.due? = none
  · exact hdue
  · obtain rfl : c' = c := Option.some.inj ((h.waiting k c' hc' hdue).symm.trans hc)
    exact hn

theorem follows_setStage {g : Nat → Prop} {i : Nat} {e : Call ρ} {s : Stage}
    (he : x.call? i = some e) (hs : e.Follows (g e.caller) { e with stage := s })
    (hc : x.call? k = some c) :
    ∃ c', (x.setStage i s).call? k = some c' ∧ c.Follows (g c.caller) c' := by
  rw [setStage_call?, hc]
  by_cases h : i = k
  · subst h
    obtain rfl : e = c := Option.some.inj (he.symm.trans hc)
    exact ⟨_, rfl, by simpa using hs⟩
  · exact ⟨c, by simp [h], .refl _ c⟩

theorem isDisposed_eq {d : Caller} (h : x.callers[n]? = some d) : x.isDisposed n = d.disposed := by
  simp only [isDisposed, h, Option.any_some]

theorem follows_run (i : Nat) (hc : x.call? k = some c) :
    ∃ c', (x.run i).call? k = some c' ∧ c.Follows (x.isDisposed c.caller = true) c' := by
  rcases run_cases x i with ⟨he, -⟩ | ⟨e, d, he, hd, hgo⟩
  · rw [he]
    exact ⟨c, hc, .refl _ c⟩
  rcases hgo.settles_or_waits with ⟨b, o, hs, hy, h⟩ | ⟨b, due, o, hs, h, -, hy⟩
  · rw [hy]
    refine follows_setStage (g := (x.isDisposed · = true)) (s := .settled o) he ?_ hc
    refine ⟨rfl, rfl, rfl, rfl, ?_, ?_, fun _ _ => rfl⟩
    · intro o' h'
      rw [hs] at h'
      cases h'
    · intro g _ o' ho'
      cases ho'
      exact (h (isDisposed_eq hd ▸ g)).2
  · rw [hy]
    refine follows_setStage (g := (x.isDisposed · = true)) (s := .waiting due o) he ?_ hc
    have hn : ¬x.isDisposed e.caller = true := by
      rw [isDisposed_eq hd, h]
      exact Bool.false_ne_true
    refine ⟨rfl, rfl, rfl, rfl, ?_, fun g => absurd g hn, fun g => absurd g hn⟩
    intro o' h'
    simp only [Call.outcome?, hs] at h'
    cases h'

theorem enlist_call? (n : Nat) (i : Invocation) (note? : Option ρ) (hc : x.call? k = some c) :
    (x.enlist n i note?).1.call? k = some c := by
  have hk : k < x.calls.length := (List.getElem?_eq_some_iff.mp hc).1
  exact (List.getElem?_append_left hk).trans hc

theorem enqueue_call? (n : Nat) (i : Invocation) (note : ρ) (hc : x.call? k = some c) :
    (x.enqueue n i note).1.call? k = some c := by
  obtain ⟨id, he⟩ := enlist_call x n i (some note)
  have hk : (x.enlist n i (some note)).2 = x.calls.length := rfl
  simp only [enqueue, hk, he]
  split
  · exact enlist_call? n i (some note) hc
  · have hne : x.calls.length ≠ k := Nat.ne_of_gt (List.getElem?_eq_some_iff.mp hc).1
    refine (setStage_call? _ _ _ k).trans ?_
    rw [enlist_call? n i (some note) hc, Option.map_some, if_neg hne]

theorem begin_background (x : Exchange ρ) (m : Move ρ) : (x.begin m).background = x.background := by
  cases m with
  | submit n i note => simp only [begin]; split <;> rfl
  | execute n i => simp only [begin]; split <;> rfl
  | join | bindApp | proceed | answer | elapse | retire => rfl

theorem background_moves (x : Exchange ρ) (ms : List (Move ρ)) :
    (x.moves ms).background = x.background := by
  apply moves_induction (P := fun y => y.background = x.background) _ rfl ms
  intro y m hy
  apply deeds_induction (P := fun z => z.background = x.background) _ (begin_deeds y m)
  · exact (begin_background y m).trans hy
  · intro z z' h hz
    exact h.background.trans hz

theorem gone_begin (m : Move ρ) (h : x.gone n) : (x.begin m).gone n := by
  refine ⟨(begin_background x m).trans h.1, ?_⟩
  rw [isDisposed_begin, h.2, Bool.true_or]

theorem Deed.gone (h : Deed x y) (hx : x.gone n) : y.gone n :=
  ⟨h.background.trans hx.1, (h.isDisposed n).trans hx.2⟩

theorem gone_move (m : Move ρ) (h : x.gone n) : (x.move m).gone n :=
  deeds_induction (P := (·.gone n)) (fun _ _ h hx => h.gone hx) (begin_deeds x m) (gone_begin m h)

theorem follows_move (m : Move ρ) (hc : x.call? k = some c) :
    ∃ c', (x.move m).call? k = some c' ∧ c.Follows (x.isDisposed c.caller = true) c' := by
  cases m with
  | join | bindApp => exact ⟨c, hc, .refl _ c⟩
  | submit n i note =>
    simp only [move]
    split
    · exact ⟨c, enqueue_call? n i note hc, .refl _ c⟩
    · exact ⟨c, hc, .refl _ c⟩
  | execute n i =>
    simp only [move]
    split
    · obtain ⟨c', hc', hf⟩ := follows_run x.calls.length (enlist_call? n i none hc)
      refine ⟨c', hc', hf.mono fun h => ?_⟩
      rw [isDisposed_of_modify (x := x) (f := Caller.countCall) rfl fun _ => rfl]
      exact h
    · exact ⟨c, hc, .refl _ c⟩
  | proceed i =>
    exact follows_run (x := { x with ready := x.ready.filter (· ≠ i) }) i hc
  | answer i o => exact (answer_alike x i o).follows hc _
  | elapse ms => exact (wakeWhere_alike x _).follows hc _
  | retire n => exact (wakeWhere_alike (x.onCaller n Caller.retire) _).follows hc _

theorem calls_follow_moves (ms : List (Move ρ)) (hc : x.call? k = some c) :
    ∃ c', (x.moves ms).call? k = some c' ∧ c.Follows (x.isDisposed c.caller = true) c' := by
  induction ms generalizing x c with
  | nil => exact ⟨c, hc, .refl _ c⟩
  | cons m ms ih =>
    obtain ⟨c', hc', hf⟩ := follows_move m hc
    obtain ⟨c'', hc'', hf'⟩ := ih hc'
    refine ⟨c'', hc'', hf.trans (fun g => ?_) hf'⟩
    rw [hf.caller, isDisposed_move, g, Bool.true_or]

theorem follows_moves (ms : List (Move ρ)) (hc : x.call? k = some c) :
    ∃ c', (x.moves ms).call? k = some c' ∧ c.Follows (x.gone c.caller) c' := by
  obtain ⟨c', hc', hf⟩ := calls_follow_moves ms hc
  exact ⟨c', hc', hf.mono And.right⟩

theorem outcome?_moves {o : Outcome} (ms : List (Move ρ)) (h : x.outcome? k = some o) :
    (x.moves ms).outcome? k = some o := by
  obtain ⟨c, hc, ho⟩ := Option.bind_eq_some_iff.mp h
  obtain ⟨c', hc', hf⟩ := follows_moves ms hc
  rw [outcome?, hc']
  exact hf.outcome o ho

theorem run_disposed (hlt : c.caller < x.callers.length) (hc : x.call? k = some c)
    (hg : x.isDisposed c.caller = true) (ho : c.outcome? = none) (hdue : c.due? = none) :
    (x.run k).outcome? k = some (.error (.disposed c.invocation.tool)) := by
  have hd := List.getElem?_eq_getElem hlt
  have hdis := (isDisposed_eq hd).symm.trans hg
  rcases (run_go hc hd ho hdue).settles_or_waits with ⟨b, o, -, he, hb⟩ | ⟨b, due, o, -, hb, -⟩
  · have hcall : (x.run k).call? k = some { c with stage := .settled o } := by
      rw [he]
      refine (setStage_call? x k (.settled o) k).trans ?_
      rw [hc]
      simp
    rw [outcome?, hcall, (hb hdis).2]
    rfl
  · rw [hb] at hdis
    cases hdis

theorem proceed_disposed (hx : Sound x) (hc : x.call? k = some c)
    (hg : x.isDisposed c.caller = true) (ho : c.outcome? = none) (hdue : c.due? = none) :
    (x.move (.proceed k)).outcome? k = some (.error (.disposed c.invocation.tool)) :=
  run_disposed (x := { x with ready := x.ready.filter (· ≠ k) })
    (hx.caller_lt c (List.mem_of_getElem? hc)) hc hg ho hdue

theorem proceed_gone (hx : Sound x) (hc : x.call? k = some c) (hg : x.gone c.caller)
    (ho : c.outcome? = none) (hdue : c.due? = none) :
    (x.move (.proceed k)).outcome? k = some (.error (.disposed c.invocation.tool)) :=
  proceed_disposed hx hc hg.2 ho hdue

/-! ## Messages, pending calls and requests -/

theorem posted_of_call (hx : Sound x) (hm : Delivered c.caller [] x) (hc : c ∈ x.calls) :
    x.posted.filter (fun m => m.caller = c.caller ∧ m.callId = c.id) = c.settlement?.toList := by
  obtain ⟨pre, post, hsplit⟩ := List.append_of_mem hc
  have hn := hx.ids_nodup c.caller
  rw [idsOf, callsOf, hsplit] at hn
  obtain ⟨hpre, hpost⟩ := ids_ne hn
  have hother : ∀ l : List (Call ρ), (∀ d ∈ l, d.id ≠ c.id) →
      (l.filterMap Call.settlement?).filter (fun m => m.callId = c.id) = [] := by
    intro l hl
    apply List.filter_eq_nil_iff.mpr
    intro m hm he
    obtain ⟨d, hd, hdm⟩ := List.mem_filterMap.mp hm
    exact hl d hd ((Call.settlement?_eq hdm).2.symm.trans (of_decide_eq_true he))
  have hown : c.settlement?.toList.filter (fun m => m.callId = c.id) = c.settlement?.toList := by
    apply List.filter_eq_self.mpr
    intro m hm
    exact decide_eq_true (Call.settlement?_eq (Option.mem_toList.mp hm)).2
  have hmessages : (x.messagesOf c.caller).filter (fun m => m.callId = c.id) =
      c.settlement?.toList := by
    have he : x.messagesOf c.caller = (pre.filter fun d => d.caller = c.caller).filterMap
        Call.settlement? ++ c.settlement?.toList ++
          (post.filter fun d => d.caller = c.caller).filterMap Call.settlement? := by
      cases hs : c.settlement? <;>
        simp [messagesOf, callsOf, hsplit, List.filterMap_append, hs]
    rw [he, List.filter_append, List.filter_append, hother _ hpre, hother _ hpost, hown,
      List.nil_append, List.append_nil]
  have hp := hm.filter fun m => m.callId = c.id
  rw [List.nil_append, hmessages, inbox, List.filter_filter] at hp
  have hf : (fun m : Settlement ρ => decide (m.caller = c.caller ∧ m.callId = c.id)) =
      fun m => decide (m.callId = c.id) && decide (m.caller = c.caller) := by
    funext m
    rw [Bool.decide_and, Bool.and_comm]
  rw [hf]
  cases hs : c.settlement? with
  | none => exact (hs ▸ hp).eq_nil
  | some m => exact (hs ▸ hp).eq_singleton

theorem pending_length (hx : Sound x) {d : Caller} (hd : x.callers[n]? = some d)
    (h : x.isDisposed n = false) :
    d.pending.length = (x.calls.filter fun c => c.caller = n ∧ c.inTransit).length := by
  have hp := hx.pending n d hd
  rw [← isDisposed_eq hd, h] at hp
  have hl : d.pending.length = ((x.callsOf n).filter Call.inTransit).length := by
    simpa [transit] using hp.length_eq
  rw [hl, callsOf, List.filter_filter]
  congr 2
  funext c
  simp [Bool.and_comm]

theorem pending_disposed (hx : Sound x) {d : Caller} (hd : x.callers[n]? = some d)
    (h : x.isDisposed n = true) : d.pending = [] := by
  have hp := hx.pending n d hd
  rw [← isDisposed_eq hd, h] at hp
  exact hp.eq_nil

theorem run_backend (h : ∀ c, x.call? k = some c → x.isDisposed c.caller = true) :
    (x.run k).backend = x.backend := by
  rcases run_cases x k with ⟨he, -⟩ | ⟨c, d, hc, hd, hgo⟩
  · rw [he]
  · have hdis := (isDisposed_eq hd).symm.trans (h c hc)
    rcases hgo.settles_or_waits with ⟨b, o, -, he, hb⟩ | ⟨b, due, o, -, hb, -⟩
    · rw [he]
      exact (hb hdis).1
    · rw [hb] at hdis
      cases hdis

def Move.actor? (x : Exchange ρ) : Move ρ → Option Nat
  | .execute n _ => some n
  | .proceed k => (x.call? k).map Call.caller
  | _ => none

/-- The backend hears of nothing but the calls of callers that are not cleaned up. -/
theorem move_backend (m : Move ρ) (h : ∀ i, m.actor? x = some i → x.isDisposed i = true) :
    (x.move m).backend = x.backend := by
  cases m with
  | join | bindApp | elapse | retire => rfl
  | submit n i note =>
    simp only [move, enqueue]
    split
    · split
      · rfl
      · split <;> rfl
    · rfl
  | execute n i =>
    simp only [move]
    split
    · refine (run_backend fun c hc => ?_).trans rfl
      obtain ⟨id, he⟩ := enlist_call x n i none
      obtain rfl := Option.some.inj (he.symm.trans hc)
      exact (isDisposed_of_modify (m := n) (f := Caller.countCall) rfl (fun _ => rfl) n).trans
        (h n rfl)
    · rfl
  | proceed k =>
    refine (run_backend (x := { x with ready := x.ready.filter (· ≠ k) }) fun c hc => ?_).trans rfl
    exact h c.caller (congrArg (Option.map Call.caller) hc)
  | answer k o =>
    simp only [move, answer]
    split <;> rfl

theorem retire_call? (x : Exchange ρ) (n k : Nat) : (x.retire n).call? k =
    (x.call? k).map fun c => if c.due?.any fun _ => c.caller = n then c.wake else c := by
  simp [call?, retire, wakeWhere, onCaller]

theorem call?_retire (hc : x.call? k = some c) (hn : c.caller = n) (ho : c.outcome? = none) :
    ∃ c', (x.retire n).call? k = some c' ∧ c'.caller = n ∧ c'.invocation = c.invocation ∧
      c'.outcome? = none ∧ c'.due? = none := by
  rw [retire_call?, hc, Option.map_some]
  refine ⟨_, rfl, ?_⟩
  cases hs : c.stage with
  | waiting due o => simp [Call.due?, hs, hn, Call.wake, Call.outcome?]
  | queued => simp [Call.due?, hs, hn, Call.outcome?]
  | woken o => simp [Call.due?, hs, hn, Call.outcome?]
  | settled o => simp [Call.outcome?, hs] at ho

/-- A call whose caller is cleaned up: it does not wait, and came to nothing if it is settled. -/
def Abandoned (x : Exchange ρ) (k : Nat) (tool : String) : Prop :=
  ∃ c, x.call? k = some c ∧ c.invocation.tool = tool ∧ x.isDisposed c.caller = true ∧
    c.due? = none ∧ ∀ o, c.outcome? = some o → o = .error (.disposed tool)

section

variable {tool : String}

theorem Abandoned.move (h : x.Abandoned k tool) (m : Move ρ) : (x.move m).Abandoned k tool := by
  obtain ⟨c, hc, rfl, hd, hdue, ho⟩ := h
  obtain ⟨c', hc', hf⟩ := follows_move m hc
  refine ⟨c', hc', congrArg Invocation.tool hf.invocation, ?_, hf.due hd hdue, ?_⟩
  · rw [hf.caller, isDisposed_move, hd, Bool.true_or]
  · intro o ho'
    cases h : c.outcome? with
    | none => exact hf.abandoned hd h o ho'
    | some e =>
      cases (hf.outcome e h).symm.trans ho'
      exact ho o h

theorem Abandoned.takeOldest (h : x.Abandoned k tool) (n : Nat) :
    (x.takeOldest n).Abandoned k tool := h

theorem Abandoned.outcome? (h : x.Abandoned k tool) {o : Outcome} (ho : x.outcome? k = some o) :
    o = .error (.disposed tool) := by
  obtain ⟨c, hc, -, -, -, h⟩ := h
  rw [Exchange.outcome?, hc] at ho
  exact h o ho

theorem Abandoned.ready (h : x.Abandoned k tool) (hs : Scheduled x) (ho : x.outcome? k = none) :
    k ∈ x.ready := by
  obtain ⟨c, hc, -, -, hdue, -⟩ := h
  rw [Exchange.outcome?, hc] at ho
  exact hs.ready k c hc ho hdue

theorem Abandoned.proceed (h : x.Abandoned k tool) (hx : Sound x) :
    (x.move (.proceed k)).outcome? k = some (.error (.disposed tool)) := by
  cases ho : x.outcome? k with
  | some o => exact outcome?_moves [.proceed k] (h.outcome? ho ▸ ho)
  | none =>
    obtain ⟨c, hc, rfl, hd, hdue, -⟩ := h
    rw [Exchange.outcome?, hc] at ho
    exact proceed_disposed hx hc hd ho hdue

theorem abandoned_of_retires (hx : Sound x) (hc : x.call? k = some c) (ho : c.outcome? = none)
    {ns : List Nat} (hn : c.caller ∈ ns) :
    (x.moves (ns.map .retire)).Abandoned k c.invocation.tool := by
  induction ns generalizing x with
  | nil => cases hn
  | cons n ns ih =>
    by_cases h : c.caller = n
    · have hfirst : (x.retire n).Abandoned k c.invocation.tool := by
        obtain ⟨c', hc', hcaller, hi, ho', hdue⟩ := call?_retire hc h ho
        refine ⟨c', hc', congrArg Invocation.tool hi, ?_, hdue, ?_⟩
        · have hlt := hx.caller_lt c (List.mem_of_getElem? hc)
          refine (isDisposed_move x (.retire n) c'.caller).trans ?_
          simp [hcaller, Move.retires, h ▸ hlt]
        · intro o h
          rw [ho'] at h
          cases h
      exact moves_induction (P := (·.Abandoned k c.invocation.tool)) (fun _ m h => h.move m)
        hfirst _
    · have hc' : (x.retire n).call? k = some c := by
        rw [retire_call?, hc]
        cases hd : c.due? <;> simp [h]
      exact ih (hx.move (.retire n)) hc' ((List.mem_cons.mp hn).resolve_left h)

end

theorem moves_sound (b : Backend) (background : Bool) (ms : List (Move ρ)) :
    Sound ((ofBackend b background).moves ms) :=
  moves_induction (fun _ m hx => hx.move m) (ofBackend_sound b background) ms

/-- Where calls go on in the background, outcomes last, messages are posted once, and the pending
calls of a caller are those in transit until it is cleaned up. From then on nothing is pending for
it, its calls do not reach the backend, and those that were open can only settle as disposed. -/
theorem cleanup_final (b : Backend) (ms more : List (Move ρ)) (n : Nat)
    (hn : n < ((ofBackend b true : Exchange ρ).moves ms).callers.length) :
    let x := (ofBackend b true : Exchange ρ).moves ms
    let y := (x.retire n).moves more
    (∀ k o, x.outcome? k = some o → (x.moves more).outcome? k = some o) ∧
    (∀ k c, x.call? k = some c →
      x.posted.filter (fun m => m.caller = c.caller ∧ m.callId = c.id) =
        (c.outcome?.bind c.message?).toList) ∧
    (.retire n ∉ ms → ∀ d, x.callers[n]? = some d →
      d.pending.length = (x.calls.filter fun c => c.caller = n ∧ c.inTransit).length) ∧
    (∀ d, y.callers[n]? = some d → d.pending = []) ∧
    (∀ m : Move ρ, (∀ i, m.actor? y = some i → i = n) → (y.move m).backend = y.backend) ∧
    ∀ k c, x.call? k = some c → c.caller = n → c.outcome? = none →
      (∀ o, y.outcome? k = some o → o = .error (.disposed c.invocation.tool)) ∧
      (y.move (.proceed k)).outcome? k = some (.error (.disposed c.invocation.tool)) := by
  intro x y
  have hx : Sound x := moves_sound b true ms
  have hy : Sound y := moves_induction (fun _ m h => h.move m) (hx.move (.retire n)) more
  have hgone : (x.retire n).gone n := by
    refine ⟨background_moves (ofBackend b true : Exchange ρ) ms, ?_⟩
    have hlt : n < x.callers.length := hn
    refine (isDisposed_move x (.retire n) n).trans ?_
    simp only [Move.retires, decide_true, hlt, Bool.and_true, Bool.or_true]
  have hgone' : y.gone n :=
    moves_induction (P := (·.gone n)) (fun _ m h => gone_move m h) hgone more
  refine ⟨fun k o h => outcome?_moves more h, ?_, ?_, ?_, ?_, ?_⟩
  · intro k c hc
    have hm : Delivered c.caller [] x :=
      moves_induction (fun _ m h => h.move m) (ofBackend_delivered b true c.caller) ms
    exact posted_of_call hx hm (List.mem_of_getElem? hc)
  · intro hms d hd
    have h : (ofBackend b true : Exchange ρ).isDisposed n = false := rfl
    exact pending_length hx hd (not_isDisposed_moves h hms)
  · intro d hd
    exact pending_disposed hy hd hgone'.2
  · intro m hm
    apply move_backend m
    intro i hi
    rw [hm i hi]
    exact hgone'.2
  · intro k c hc hcn ho
    obtain ⟨c', hc', rfl, hi, ho', hdue⟩ := call?_retire hc hcn ho
    obtain ⟨c'', hc'', hf⟩ := follows_moves more hc'
    have hg := hf.caller ▸ hgone'
    have hend : ∀ o, y.outcome? k = some o → o = .error (.disposed c.invocation.tool) := by
      intro o h
      rw [outcome?, hc''] at h
      rw [← hi]
      exact hf.abandoned hgone ho' o h
    refine ⟨hend, ?_⟩
    cases h : c''.outcome? with
    | some o =>
      have hy : y.outcome? k = some o := by rwa [outcome?, hc'']
      obtain rfl := hend o hy
      exact outcome?_moves [.proceed k] hy
    | none =>
      rw [← hi, ← hf.invocation]
      exact proceed_gone hy hc'' hg h (hf.due hgone hdue)

/-- A call that is caught while it waits is abandoned, though its result and its timeout are due. -/
theorem cleanup_final_slow_call :
    let b := Backend.empty.register "slow" fun _ => ⟨5, .ok .null⟩
    let ms : List (Move Unit) :=
      [.join (some 5), .bindApp 0 "app", .submit 0 (.ofTool "slow") (), .proceed 0]
    let x := (ofBackend b true).moves ms
    0 < x.callers.length ∧ x.outcome? 0 = none ∧
      (((x.retire 0).moves [.elapse 5]).move (.proceed 0)).outcome? 0 =
        some (.error (.disposed "slow")) := by
  intro b ms x
  have hn : 0 < x.callers.length := by decide
  have hc : x.call? 0 = some ⟨0, 1, .ofTool "slow", some (), .waiting 5 (.ok .null)⟩ := rfl
  exact ⟨hn, rfl, ((cleanup_final b ms [.elapse 5] 0 hn).2.2.2.2.2 0 _ hc rfl rfl).2⟩

end Exchange

end DynamicUi
