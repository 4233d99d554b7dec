import DynamicUi.Proofs.Call.Records

/-! # The books of an exchange

Three things are kept in step with the calls by every move: the pending ids of each caller that is
not cleaned up are those of its calls in transit, the ids of a caller's calls are distinct, and the
messages of a caller, collected or not, are those of its settled calls.
-/

namespace DynamicUi.Exchange

variable {ρ : Type} {x y : Exchange ρ}

/-- What holds between the callers of an exchange, its calls and its messages. -/
structure Sound (x : Exchange ρ) : Prop where
  caller_lt : ∀ c ∈ x.calls, c.caller < x.callers.length
  id_lt : ∀ c ∈ x.calls, ∀ d, x.callers[c.caller]? = some d → c.id < d.nextCall
  ids_nodup : ∀ n, (x.idsOf n).Nodup
  pending : ∀ (n : Nat) (d : Caller), x.callers[n]? = some d →
    d.pending.Perm (if d.disposed then [] else x.transit n)
  posted_lt : ∀ m ∈ x.posted, m.caller < x.callers.length

theorem ofBackend_sound (b : Backend) (background : Bool) :
    Sound (ofBackend b background : Exchange ρ) where
  caller_lt := by
    rintro c ⟨⟩
  id_lt := by
    rintro c ⟨⟩
  ids_nodup := by
    intro n
    simp [idsOf, callsOf, ofBackend]
  pending := by
    intro n d hd
    simp [ofBackend] at hd
  posted_lt := by
    rintro m ⟨⟩

theorem Sound.update (hx : Sound x) {n : Nat} {f : Caller → Caller}
    (hcallers : y.callers = x.callers.modify n f) (hnext : ∀ d, (f d).nextCall = d.nextCall)
    (hcalls : ∀ c ∈ y.calls, ∃ e ∈ x.calls, e.caller = c.caller ∧ e.id = c.id)
    (hids : ∀ m, y.idsOf m = x.idsOf m) (hother : ∀ m, n ≠ m → (x.transit m).Perm (y.transit m))
    (hpending : ∀ d, x.callers[n]? = some d →
      (f d).pending.Perm (if (f d).disposed then [] else y.transit n))
    (hposted : ∀ m ∈ y.posted, m.caller < x.callers.length) : Sound y where
  caller_lt := by
    intro c hc
    obtain ⟨e, he, hn, -⟩ := hcalls c hc
    rw [hcallers, List.length_modify, ← hn]
    exact hx.caller_lt e he
  id_lt := by
    intro c hc d hd
    obtain ⟨e, he, hn, hi⟩ := hcalls c hc
    simp only [hcallers, List.getElem?_modify, Option.map_eq_map, Option.map_eq_some_iff] at hd
    obtain ⟨d', hd', rfl⟩ := hd
    have hlt := hx.id_lt e he d' (hn ▸ hd')
    split
    · rwa [hnext, ← hi]
    · rwa [← hi]
  ids_nodup := fun m => hids m ▸ hx.ids_nodup m
  pending := by
    intro m d hd
    simp only [hcallers, List.getElem?_modify, Option.map_eq_map, Option.map_eq_some_iff] at hd
    obtain ⟨d', hd', rfl⟩ := hd
    split
    · next h => exact h ▸ hpending d' (h ▸ hd')
    · next h =>
      have hp := hx.pending m d' hd'
      split at hp
      · next hb => rwa [if_pos hb]
      · next hb =>
        rw [if_neg hb]
        exact hp.trans (hother m h)
  posted_lt := by
    rw [hcallers, List.length_modify]
    exact hposted

theorem Alike.sound (h : Alike x y) (hx : Sound x) : Sound y := by
  refine hx.update (n := x.callers.length) (f := id) ?_ (fun _ => rfl)
    (fun c hc => mem_congr h.calls hc) (idsOf_congr h.calls)
    (fun m _ => .of_eq (transit_congr h.calls m).symm) ?_ ?_
  · rw [h.callers, List.modify_id]
  · intro d hd
    rw [List.getElem?_eq_none (Nat.le_refl _)] at hd
    cases hd
  · rw [h.posted]
    exact hx.posted_lt

theorem Sound.takeOldest (hx : Sound x) (n : Nat) : Sound (x.takeOldest n) where
  caller_lt := hx.caller_lt
  id_lt := hx.id_lt
  ids_nodup := hx.ids_nodup
  pending := hx.pending
  posted_lt := fun m hm => hx.posted_lt m (List.mem_of_mem_eraseP hm)

theorem Sound.callsOf_of_le (hx : Sound x) {n : Nat} (hn : x.callers.length ≤ n) :
    x.callsOf n = [] := by
  apply List.filter_eq_nil_iff.mpr
  intro c hc h
  have hlt := hx.caller_lt c hc
  have he : c.caller = n := of_decide_eq_true h
  omega

theorem Sound.inbox_of_le (hx : Sound x) {n : Nat} (hn : x.callers.length ≤ n) :
    x.inbox n = [] := by
  apply List.filter_eq_nil_iff.mpr
  intro m hm h
  have hlt := hx.posted_lt m hm
  have he : m.caller = n := of_decide_eq_true h
  omega

theorem Sound.addCaller (hx : Sound x) {d : Caller} (hd : d.pending = []) :
    Sound (x.addCaller d).1 where
  caller_lt := by
    intro c hc
    simp only [Exchange.addCaller, List.length_append, List.length_singleton]
    exact Nat.lt_succ_of_lt (hx.caller_lt c hc)
  id_lt := by
    intro c hc d' hd'
    simp only [Exchange.addCaller, List.getElem?_append_left (hx.caller_lt c hc)] at hd'
    exact hx.id_lt c hc d' hd'
  ids_nodup := hx.ids_nodup
  pending := by
    intro n d' hd'
    simp only [Exchange.addCaller] at hd'
    rcases Nat.lt_trichotomy n x.callers.length with h | rfl | h
    · rw [List.getElem?_append_left h] at hd'
      exact hx.pending n d' hd'
    · rw [List.getElem?_concat_length] at hd'
      cases hd'
      have ht : x.transit x.callers.length = [] := by
        simp only [transit, hx.callsOf_of_le (Nat.le_refl _), List.filter_nil, List.map_nil]
      rw [hd]
      split
      · exact .refl _
      · exact .of_eq ht.symm
    · rw [List.getElem?_eq_none (by simpa using Nat.succ_le_of_lt h)] at hd'
      cases hd'
  posted_lt := by
    intro m hm
    simp only [Exchange.addCaller, List.length_append, List.length_singleton]
    exact Nat.lt_succ_of_lt (hx.posted_lt m hm)

theorem Sound.enlist (hx : Sound x) {n : Nat} (hn : n < x.callers.length) (i : Invocation)
    (note? : Option ρ) : Sound (x.enlist n i note?).1 := by
  have hd := List.getElem?_eq_getElem hn
  have hlen : (x.enlist n i note?).1.callers.length = x.callers.length := List.length_modify ..
  have hget : ∀ m, (x.enlist n i note?).1.callers[m]? =
      x.callers[m]?.map fun d => if n = m then d.countCall else d := by
    intro m
    exact List.getElem?_modify ..
  have hmem : ∀ c ∈ (x.enlist n i note?).1.calls, c ∈ x.calls ∨
      c = ⟨n, x.callers[n].nextCall, i, note?, .queued⟩ := by
    intro c hc
    simpa [Exchange.enlist, onCaller, hd] using hc
  constructor
  case caller_lt =>
    intro c hc
    rw [hlen]
    rcases hmem c hc with hc | rfl
    · exact hx.caller_lt c hc
    · exact hn
  case id_lt =>
    intro c hc d he
    rw [hget, Option.map_eq_some_iff] at he
    obtain ⟨d, he, rfl⟩ := he
    rcases hmem c hc with hc | rfl
    · have hlt := hx.id_lt c hc d he
      split
      · exact Nat.lt_succ_of_lt hlt
      · exact hlt
    · obtain rfl : x.callers[n] = d := Option.some.inj (hd.symm.trans he)
      simp [Caller.countCall]
  case ids_nodup =>
    intro m
    rw [idsOf_enlist]
    split
    · next h =>
      subst h
      refine List.nodup_append.mpr ⟨hx.ids_nodup n, by simp, ?_⟩
      intro i hi j hj
      obtain ⟨c, hc, rfl⟩ := List.mem_map.mp hi
      obtain ⟨hc, hcn⟩ := List.mem_filter.mp hc
      have hlt := hx.id_lt c hc x.callers[n] (by rw [of_decide_eq_true hcn, hd])
      simp only [hd, Option.map_some, Option.getD_some, List.mem_singleton] at hj
      exact hj ▸ Nat.ne_of_lt hlt
    · rw [List.append_nil]
      exact hx.ids_nodup m
  case pending =>
    intro m d he
    rw [hget, Option.map_eq_some_iff] at he
    obtain ⟨d, he, rfl⟩ := he
    rw [transit_enlist]
    have hp := hx.pending m d he
    split <;> exact hp
  case posted_lt =>
    intro m hm
    rw [hlen]
    exact hx.posted_lt m hm

theorem Sound.settle (hx : Sound x) {k : Nat} {c : Call ρ}
    (hc : x.call? k = some c) (b : Backend) (o : Outcome) :
    Sound ({ x with backend := b }.settle k c o) := by
  have ht : ∀ m, ({ x with backend := b }.settle k c o).transit m = _ :=
    transit_setStage_settled hc (hx.ids_nodup c.caller) o
  refine hx.update (n := c.caller) (f := (·.removePending c.id)) rfl (fun _ => rfl)
    (fun e he => mem_setStage hc he) (idsOf_setStage hc _) ?_ ?_ ?_
  · intro m hm
    rw [ht, if_neg hm]
  · intro e he
    rw [ht, if_pos rfl]
    have hp := hx.pending c.caller e he
    have hf := hp.filter (· != c.id)
    rw [apply_ite (List.filter (· != c.id)), List.filter_nil] at hf
    exact hf
  · intro m hm
    rcases List.mem_append.mp hm with hm | hm
    · exact hx.posted_lt m hm
    · rw [(Call.message?_eq (Option.mem_toList.mp hm)).1]
      exact hx.caller_lt c (List.mem_of_getElem? hc)

theorem Sound.wait (hx : Sound x) {k : Nat} {c : Call ρ} {d : Caller}
    (hc : x.call? k = some c) (hd : x.callers[c.caller]? = some d) (hs : c.stage = .queued)
    (hb : d.disposed = false) (b : Backend) (due : Nat) (o : Outcome) :
    Sound (({ x with backend := b }.onCaller c.caller (·.addPending c.id)).setStage k
      (.waiting due o)) := by
  have ht := transit_setStage_waiting hc hs due o
  refine hx.update (n := c.caller) (f := (·.addPending c.id)) rfl (fun _ => rfl)
    (fun e he => mem_setStage hc he) (idsOf_setStage hc _) ?_ ?_ hx.posted_lt
  · intro m hm
    have h := ht m
    rw [if_neg hm] at h
    exact h.symm
  · intro e he
    obtain rfl : d = e := Option.some.inj (hd.symm.trans he)
    have h := ht c.caller
    rw [if_pos rfl] at h
    have hp := hx.pending c.caller d hd
    simp only [hb, Bool.false_eq_true, if_false, Caller.addPending] at hp ⊢
    exact (hp.append_right _).trans h.symm

theorem Sound.onCaller (hx : Sound x) (n : Nat) {f : Caller → Caller}
    (hnext : ∀ d, (f d).nextCall = d.nextCall)
    (hpending : ∀ d, x.callers[n]? = some d →
      (f d).pending.Perm (if (f d).disposed then [] else x.transit n)) : Sound (x.onCaller n f) :=
  hx.update rfl hnext (fun c hc => ⟨c, hc, rfl, rfl⟩) (fun _ => rfl) (fun _ _ => .refl _) hpending
    hx.posted_lt

theorem bindApp_caller (d : Caller) (app : String) :
    ∃ app?, (d.bindApp app).toOption.getD d = { d with app? := app? } := by
  unfold Caller.bindApp
  split
  · exact ⟨_, rfl⟩
  · split <;> exact ⟨_, rfl⟩

theorem Deed.sound (h : Deed x y) (hx : Sound x) : Sound y := by
  cases h with
  | alike h => exact h.sound hx
  | join timeout => exact hx.addCaller rfl
  | bindApp n app =>
    apply hx.onCaller n
    · intro d
      obtain ⟨app?, he⟩ := bindApp_caller d app
      rw [he]
    · intro d hd
      obtain ⟨app?, he⟩ := bindApp_caller d app
      rw [he]
      exact hx.pending n d hd
  | settle b o hc hd hs h => exact hx.settle hc b o
  | wait b due o hc hd hs h => exact hx.wait hc hd hs h b due o

theorem Sound.move (hx : Sound x) (m : Move ρ) : Sound (x.move m) := by
  apply move_induction (P := Sound) _ _ _ x m hx
  · intro x y h hx
    exact h.sound hx
  · intro x n i note? hn hx
    exact hx.enlist hn i note?
  · intro x n hx
    exact hx.onCaller n (fun _ => rfl) fun _ _ => .refl _

/-! ## Messages and notes -/

/-- The messages of a caller, those taken before and those in its inbox, are those of its settled
calls. -/
def Delivered (n : Nat) (taken : List (Settlement ρ)) (x : Exchange ρ) : Prop :=
  (taken ++ x.inbox n).Perm (x.messagesOf n)

theorem ofBackend_delivered (b : Backend) (background : Bool) (n : Nat) :
    Delivered n [] (ofBackend b background : Exchange ρ) := .refl _

section

variable {n : Nat} {taken : List (Settlement ρ)}

theorem Deed.delivered (h : Deed x y) (hx : Delivered n taken x) : Delivered n taken y := by
  cases h with
  | alike h =>
    unfold Delivered inbox
    rw [h.posted, messagesOf_congr h.calls]
    exact hx
  | settle b o hc hd hs h =>
    have hm := messagesOf_setStage_settled hc hs o n
    refine List.Perm.trans ?_ hm.symm
    simp only [inbox, Exchange.settle, onCaller, setStage, List.filter_append, ← List.append_assoc]
    exact hx.append_right _
  | wait b due o hc hd hs h =>
    have hm := messagesOf_setStage_waiting hc hs due o n
    exact hx.trans (.of_eq hm.symm)
  | join | bindApp => exact hx

theorem Delivered.move (hx : Delivered n taken x) (m : Move ρ) : Delivered n taken (x.move m) := by
  apply move_induction (P := Delivered n taken) _ _ _ x m hx
  · intro x y h hx
    exact h.delivered hx
  · intro x m i note? _ hx
    exact hx.trans (.of_eq (messagesOf_enlist x m i note? n).symm)
  · intro x m hx
    exact hx

theorem inbox_takeOldest (x : Exchange ρ) (m n : Nat) :
    (x.takeOldest m).inbox n = if m = n then (x.inbox n).tail else x.inbox n := by
  simp only [Exchange.takeOldest, inbox]
  induction x.posted with
  | nil => simp
  | cons e es ih =>
    by_cases he : e.caller = m <;> by_cases hn : e.caller = n <;> by_cases hm : m = n <;>
      simp_all

theorem Delivered.takeOldest (hx : Delivered n taken x) (m : Nat) :
    Delivered n (if m = n then taken ++ (x.inbox n).head?.toList else taken) (x.takeOldest m) := by
  unfold Delivered
  rw [inbox_takeOldest]
  split
  · have he : (x.inbox n).head?.toList ++ (x.inbox n).tail = x.inbox n := by
      cases x.inbox n <;> rfl
    rw [List.append_assoc, he]
    exact hx
  · exact hx

end

theorem Deed.notesOf (h : Deed x y) (n : Nat) : y.notesOf n = x.notesOf n := by
  cases h with
  | alike h => exact notesOf_congr h.calls n
  | settle b o hc hd hs h => exact notesOf_setStage hc _ n
  | wait b due o hc hd hs h => exact notesOf_setStage hc _ n
  | join | bindApp => rfl

def Move.noteFor (x : Exchange ρ) (n : Nat) : Move ρ → List ρ
  | .submit m _ note => if m = n ∧ m < x.callers.length then [note] else []
  | _ => []

theorem notesOf_move (x : Exchange ρ) (m : Move ρ) (n : Nat) :
    (x.move m).notesOf n = x.notesOf n ++ m.noteFor x n := by
  have hb : (x.begin m).notesOf n = x.notesOf n ++ m.noteFor x n := by
    cases m with
    | submit m i note =>
      simp only [begin, Move.noteFor]
      by_cases hm : m < x.callers.length
      · simp only [hm, if_true, and_true, notesOf_enlist, Option.toList_some]
      · simp only [hm, if_false, and_false, List.append_nil]
    | execute m i =>
      simp only [begin, Move.noteFor]
      split <;> simp [notesOf_enlist]
    | join | bindApp | proceed | answer | elapse | retire => exact (List.append_nil _).symm
  exact deeds_induction (fun _ _ h hx => (h.notesOf n).trans hx) (begin_deeds x m) hb

end DynamicUi.Exchange
