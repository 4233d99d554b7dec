import DynamicUi.Proofs.Call.Deed

/-! # The records of a caller

What the calls of one caller say: their ids, their notes, the ids of those in transit, and the
messages of those that are settled. Each changes in a simple way when a call is put on the list,
is sent or settles, and none depends on what calls wait for.
-/

namespace DynamicUi

variable {ρ : Type}

namespace Exchange

variable {x y : Exchange ρ}

def callsOf (x : Exchange ρ) (n : Nat) : List (Call ρ) := x.calls.filter fun c => c.caller = n

/-- The ids of a caller's calls that have reached the backend and are not settled. -/
def transit (x : Exchange ρ) (n : Nat) : List Nat :=
  ((x.callsOf n).filter Call.inTransit).map Call.id

def idsOf (x : Exchange ρ) (n : Nat) : List Nat := (x.callsOf n).map Call.id

def notesOf (x : Exchange ρ) (n : Nat) : List ρ := (x.callsOf n).filterMap Call.note?

def messagesOf (x : Exchange ρ) (n : Nat) : List (Settlement ρ) :=
  (x.callsOf n).filterMap Call.settlement?

/-! ## Calls that change one at a time -/

theorem idsOf_setStage {k : Nat} {c : Call ρ} (h : x.call? k = some c) (s : Stage) (n : Nat) :
    (x.setStage k s).idsOf n = x.idsOf n := by
  obtain ⟨pre, post, hx, hy⟩ := setStage_split h s
  simp only [idsOf, callsOf, hx, hy, List.filter_append, List.map_append, List.filter_cons]
  split <;> rfl

theorem notesOf_setStage {k : Nat} {c : Call ρ} (h : x.call? k = some c) (s : Stage) (n : Nat) :
    (x.setStage k s).notesOf n = x.notesOf n := by
  obtain ⟨pre, post, hx, hy⟩ := setStage_split h s
  simp only [notesOf, callsOf, hx, hy, List.filter_append, List.filterMap_append, List.filter_cons]
  split <;> rfl

theorem mem_setStage {k : Nat} {c d : Call ρ} (h : x.call? k = some c) {s : Stage}
    (hd : d ∈ (x.setStage k s).calls) : ∃ e ∈ x.calls, e.caller = d.caller ∧ e.id = d.id := by
  obtain ⟨pre, post, hx, hy⟩ := setStage_split h s
  rw [hy] at hd
  rw [hx]
  rcases List.mem_append.mp hd with hd | hd
  · exact ⟨d, List.mem_append_left _ hd, rfl, rfl⟩
  · rcases List.mem_cons.mp hd with rfl | hd
    · exact ⟨c, by simp, rfl, rfl⟩
    · exact ⟨d, by simp [hd], rfl, rfl⟩

theorem ids_ne {pre post : List (Call ρ)} {c : Call ρ}
    (hn : (((pre ++ c :: post).filter fun d => d.caller = c.caller).map Call.id).Nodup) :
    (∀ d ∈ pre.filter (fun d => d.caller = c.caller), d.id ≠ c.id) ∧
      ∀ d ∈ post.filter (fun d => d.caller = c.caller), d.id ≠ c.id := by
  simp only [List.filter_append, List.filter_cons, decide_true, if_true, List.map_append,
    List.map_cons] at hn
  have hc := (List.nodup_cons.mp (List.nodup_append.mp hn).2.1).1
  have hpre := (List.nodup_append.mp hn).2.2
  constructor
  · intro d hd he
    exact hpre d.id (List.mem_map_of_mem hd) c.id List.mem_cons_self he
  · intro d hd he
    exact hc (he ▸ List.mem_map_of_mem hd)

theorem transit_setStage_settled {k : Nat} {c : Call ρ} (h : x.call? k = some c)
    (hn : (x.idsOf c.caller).Nodup) (o : Outcome) (n : Nat) :
    (x.setStage k (.settled o)).transit n =
      if c.caller = n then (x.transit n).filter (· != c.id) else x.transit n := by
  obtain ⟨pre, post, hx, hy⟩ := setStage_split h (.settled o)
  simp only [idsOf, callsOf, hx] at hn
  obtain ⟨hpre, hpost⟩ := ids_ne hn
  have hfilter : ∀ l : List (Call ρ), (∀ d ∈ l, d.id ≠ c.id) →
      ((l.filter Call.inTransit).map Call.id).filter (· != c.id) =
        (l.filter Call.inTransit).map Call.id := by
    intro l hl
    apply List.filter_eq_self.mpr
    intro i hi
    obtain ⟨d, hd, rfl⟩ := List.mem_map.mp hi
    exact bne_iff_ne.mpr (hl d (List.mem_filter.mp hd).1)
  simp only [transit, callsOf, hx, hy, List.filter_append, List.filter_cons]
  by_cases hc : c.caller = n
  · subst hc
    have hs : Call.inTransit { c with stage := .settled o } = false := rfl
    simp only [decide_true, if_true, List.filter_cons, hs, Bool.false_eq_true, if_false,
      List.map_append, List.filter_append, hfilter _ hpre]
    cases ht : c.inTransit with
    | false => simp only [Bool.false_eq_true, if_false, hfilter _ hpost]
    | true =>
      simp only [if_true, List.map_cons, List.filter_cons, bne_self_eq_false, Bool.false_eq_true,
        if_false, hfilter _ hpost]
  · simp [hc]

theorem transit_setStage_waiting {k : Nat} {c : Call ρ} (h : x.call? k = some c)
    (hc : c.stage = .queued) (due : Nat) (o : Outcome) (n : Nat) :
    ((x.setStage k (.waiting due o)).transit n).Perm
      (if c.caller = n then x.transit n ++ [c.id] else x.transit n) := by
  obtain ⟨pre, post, hx, hy⟩ := setStage_split h (.waiting due o)
  simp only [transit, callsOf, hx, hy, List.filter_append, List.filter_cons]
  by_cases hn : c.caller = n
  · simp only [hn, decide_true, if_true, List.filter_cons, Call.inTransit, hc, Bool.false_eq_true,
      if_false, List.map_append, List.map_cons]
    exact List.perm_middle.trans (List.perm_append_singleton _ _).symm
  · simp [hn]

theorem messagesOf_setStage_waiting {k : Nat} {c : Call ρ} (h : x.call? k = some c)
    (hc : c.stage = .queued) (due : Nat) (o : Outcome) (n : Nat) :
    (x.setStage k (.waiting due o)).messagesOf n = x.messagesOf n := by
  obtain ⟨pre, post, hx, hy⟩ := setStage_split h (.waiting due o)
  have hs : c.settlement? = none := by
    simp only [Call.settlement?, Call.outcome?, hc, Option.bind_none]
  have hs' : Call.settlement? { c with stage := .waiting due o } = none := rfl
  simp only [messagesOf, callsOf, hx, hy, List.filter_append, List.filter_cons,
    List.filterMap_append]
  split
  · simp only [List.filterMap_cons, hs, hs']
  · rfl

theorem messagesOf_setStage_settled {k : Nat} {c : Call ρ} (h : x.call? k = some c)
    (hc : c.outcome? = none) (o : Outcome) (n : Nat) :
    ((x.setStage k (.settled o)).messagesOf n).Perm
      (x.messagesOf n ++ (c.message? o).toList.filter fun m => m.caller = n) := by
  obtain ⟨pre, post, hx, hy⟩ := setStage_split h (.settled o)
  have hm : ∀ m, c.message? o = some m → m.caller = c.caller := by
    intro m h
    exact (Call.message?_eq h).1
  have hs : c.settlement? = none := by simp only [Call.settlement?, hc, Option.bind_none]
  have hs' : Call.settlement? { c with stage := .settled o } = c.message? o := rfl
  simp only [messagesOf, callsOf, hx, hy, List.filter_append, List.filter_cons,
    List.filterMap_append]
  by_cases hn : c.caller = n
  · subst hn
    simp only [decide_true, if_true, List.filterMap_cons, hs, hs']
    cases hmo : c.message? o with
    | none => simp
    | some m =>
      simp only [Option.toList_some, List.filter_cons, hm m hmo, decide_true, if_true,
        List.filter_nil]
      exact List.perm_middle.trans (List.perm_append_singleton _ _).symm
  · cases hmo : c.message? o with
    | none => simp [hn]
    | some m => simp [hn, (hm m hmo)]

/-! ## Calls that change only in what they wait for -/

theorem callsOf_skeleton (x : Exchange ρ) (n : Nat) :
    (x.callsOf n).map Call.skeleton = (x.calls.map Call.skeleton).filter fun c => c.caller = n := by
  simp only [callsOf, List.filter_map]
  congr 2
  funext c
  simp

theorem callsOf_congr (h : y.calls.map Call.skeleton = x.calls.map Call.skeleton) (n : Nat) :
    (y.callsOf n).map Call.skeleton = (x.callsOf n).map Call.skeleton := by
  rw [callsOf_skeleton, callsOf_skeleton, h]

theorem filterMap_congr {α : Type} (h : y.calls.map Call.skeleton = x.calls.map Call.skeleton)
    {f : Call ρ → Option α} (hf : ∀ c, f c.skeleton = f c) (n : Nat) :
    (y.callsOf n).filterMap f = (x.callsOf n).filterMap f := by
  have hcomp : f ∘ Call.skeleton = f := funext hf
  have he := congrArg (List.filterMap f) (callsOf_congr h n)
  rwa [List.filterMap_map, List.filterMap_map, hcomp] at he

theorem idsOf_congr (h : y.calls.map Call.skeleton = x.calls.map Call.skeleton) (n : Nat) :
    y.idsOf n = x.idsOf n := by
  have he := filterMap_congr h (f := fun c => some c.id) (fun c => congrArg some c.skeleton_id) n
  rwa [List.filterMap_eq_map'] at he

theorem notesOf_congr (h : y.calls.map Call.skeleton = x.calls.map Call.skeleton) (n : Nat) :
    y.notesOf n = x.notesOf n := filterMap_congr h Call.skeleton_note? n

theorem messagesOf_congr (h : y.calls.map Call.skeleton = x.calls.map Call.skeleton) (n : Nat) :
    y.messagesOf n = x.messagesOf n := filterMap_congr h Call.skeleton_settlement? n

theorem transit_congr (h : y.calls.map Call.skeleton = x.calls.map Call.skeleton) (n : Nat) :
    y.transit n = x.transit n := by
  have he : ∀ z : Exchange ρ, z.transit n =
      (z.callsOf n).filterMap fun c => if c.inTransit then some c.id else none := by
    intro z
    unfold transit
    induction z.callsOf n with
    | nil => rfl
    | cons c cs ih => cases ht : c.inTransit <;> simp [ht, ih]
  rw [he, he]
  exact filterMap_congr h (fun c => by simp) n

theorem mem_congr (h : y.calls.map Call.skeleton = x.calls.map Call.skeleton) {c : Call ρ}
    (hc : c ∈ y.calls) : ∃ e ∈ x.calls, e.caller = c.caller ∧ e.id = c.id := by
  have hs : c.skeleton ∈ x.calls.map Call.skeleton := h ▸ List.mem_map_of_mem hc
  obtain ⟨e, he, hec⟩ := List.mem_map.mp hs
  exact ⟨e, he, by rw [← e.skeleton_caller, hec, c.skeleton_caller],
    by rw [← e.skeleton_id, hec, c.skeleton_id]⟩

/-! ## Calls that are put on the list -/

theorem callsOf_enlist (x : Exchange ρ) (m : Nat) (i : Invocation) (note? : Option ρ) (n : Nat) :
    (x.enlist m i note?).1.callsOf n = x.callsOf n ++
      if m = n then [⟨m, (x.callers[m]?.map Caller.nextCall).getD 0, i, note?, .queued⟩]
      else [] := by
  simp [callsOf, enlist, onCaller, List.filter_cons]

theorem idsOf_enlist (x : Exchange ρ) (m : Nat) (i : Invocation) (note? : Option ρ) (n : Nat) :
    (x.enlist m i note?).1.idsOf n = x.idsOf n ++
      if m = n then [(x.callers[m]?.map Caller.nextCall).getD 0] else [] := by
  simp only [idsOf, callsOf_enlist, List.map_append]
  split <;> rfl

theorem notesOf_enlist (x : Exchange ρ) (m : Nat) (i : Invocation) (note? : Option ρ) (n : Nat) :
    (x.enlist m i note?).1.notesOf n = x.notesOf n ++ if m = n then note?.toList else [] := by
  simp only [notesOf, callsOf_enlist, List.filterMap_append]
  split
  · cases note? <;> rfl
  · rfl

theorem transit_enlist (x : Exchange ρ) (m : Nat) (i : Invocation) (note? : Option ρ) (n : Nat) :
    (x.enlist m i note?).1.transit n = x.transit n := by
  simp only [transit, callsOf_enlist, List.filter_append, List.map_append]
  split <;> simp [Call.inTransit]

theorem messagesOf_enlist (x : Exchange ρ) (m : Nat) (i : Invocation) (note? : Option ρ) (n : Nat) :
    (x.enlist m i note?).1.messagesOf n = x.messagesOf n := by
  simp only [messagesOf, callsOf_enlist, List.filterMap_append]
  split <;> simp [Call.settlement?, Call.outcome?]

end Exchange

end DynamicUi
