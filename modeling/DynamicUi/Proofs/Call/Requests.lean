import DynamicUi.Proofs.Call.Retirement

/-! # Whose requests the backend receives

A call reaches the backend at most once, when it is run for the first time. So the requests on
record are those of different calls. Each is for the app its invocation names, or else for the
app its caller is bound to, and that app never changes.
-/

namespace DynamicUi

variable {ρ : Type}

def Call.request (c : Call ρ) (app : String) : Request :=
  ⟨c.id, app, c.invocation.tool, c.invocation.params⟩

namespace Exchange

variable {x y : Exchange ρ} {k n : Nat} {c : Call ρ} {app : String}

/-! ## The app of a caller stays -/

def appOf (x : Exchange ρ) (n : Nat) : Option String := x.callers[n]?.bind Caller.app?

theorem appOf_modify {m : Nat} {f : Caller → Caller} (hy : y.callers = x.callers.modify m f)
    (hf : ∀ d app, d.app? = some app → (f d).app? = some app) (h : x.appOf n = some app) :
    y.appOf n = some app := by
  obtain ⟨d, hd, happ⟩ := Option.bind_eq_some_iff.mp h
  simp only [appOf, hy, List.getElem?_modify, hd]
  by_cases hm : m = n
  · simpa [hm] using hf d app happ
  · simpa [hm] using happ

theorem Deed.appOf (h : Deed x y) (hx : x.appOf n = some app) : y.appOf n = some app := by
  cases h with
  | alike h => simpa only [Exchange.appOf, h.callers] using hx
  | join timeout =>
    obtain ⟨d, hd, happ⟩ := Option.bind_eq_some_iff.mp hx
    have hn : n < x.callers.length := (List.getElem?_eq_some_iff.mp hd).1
    simp only [Exchange.appOf, addCaller, List.getElem?_append_left hn]
    exact hx
  | bindApp m bound =>
    refine appOf_modify rfl ?_ hx
    intro d app happ
    unfold Caller.bindApp
    simp only [happ]
    split <;> exact happ
  | settle b o hc hd hs h => exact appOf_modify (f := (·.removePending _)) rfl (fun _ _ h => h) hx
  | wait b due o hc hd hs h => exact appOf_modify (f := (·.addPending _)) rfl (fun _ _ h => h) hx

theorem appOf_move (m : Move ρ) (h : x.appOf n = some app) : (x.move m).appOf n = some app := by
  apply move_induction (P := fun y => y.appOf n = some app) _ _ _ x m h
  · exact fun y z hd hy => hd.appOf hy
  · exact fun y i inv note? _ hy => appOf_modify (f := Caller.countCall) rfl (fun _ _ h => h) hy
  · exact fun y i hy => appOf_modify (f := Caller.retire) rfl (fun _ _ h => h) hy

def target? (x : Exchange ρ) (c : Call ρ) : Option String := c.invocation.app?.or (x.appOf c.caller)

theorem target?_mono (hmono : ∀ app, x.appOf c.caller = some app → y.appOf c.caller = some app)
    (h : x.target? c = some app) : y.target? c = some app := by
  simp only [target?] at h ⊢
  cases hc : c.invocation.app? with
  | none =>
    rw [hc, Option.none_or] at h
    rw [Option.none_or]
    exact hmono app h
  | some own => simpa [hc] using h

theorem target?_run (k : Nat) (h : x.target? c = some app) : (x.run k).target? c = some app := by
  refine target?_mono (fun app ha => ?_) h
  exact deeds_induction (P := fun y => y.appOf c.caller = some app) (fun _ _ hd hy => hd.appOf hy)
    (run_deeds x k) ha

/-! ## A call is sent once -/

def Begun (x : Exchange ρ) (k : Nat) (c : Call ρ) : Prop :=
  ∃ c', x.call? k = some c' ∧ c'.caller = c.caller ∧ c'.id = c.id ∧
    c'.invocation = c.invocation ∧ c'.stage ≠ .queued

theorem Alike.begun (h : Alike x y) (hx : x.Begun k c) : y.Begun k c := by
  obtain ⟨d, hd, hcaller, hid, hinv, hs⟩ := hx
  obtain ⟨d', hd', hf⟩ := h.follows hd True
  refine ⟨d', hd', hf.caller.trans hcaller, hf.id.trans hid, hf.invocation.trans hinv, ?_⟩
  intro hq
  have hcalls := congrArg (·[k]?) h.calls
  simp only [List.getElem?_map] at hcalls
  have hskel : d'.skeleton = d.skeleton :=
    Option.some.inj (((congrArg _ hd').symm.trans hcalls).trans (congrArg _ hd))
  have ht : d.inTransit = false := by
    rw [← d.skeleton_inTransit, ← hskel, d'.skeleton_inTransit]
    simp only [Call.inTransit, hq]
  have ho : d.outcome? = none := by
    rw [← d.skeleton_outcome?, ← hskel, d'.skeleton_outcome?]
    simp only [Call.outcome?, hq]
  cases hstage : d.stage with
  | queued => exact hs hstage
  | waiting due o => simp [Call.inTransit, hstage] at ht
  | woken o => simp [Call.inTransit, hstage] at ht
  | settled o => simp [Call.outcome?, hstage] at ho

theorem begun_setStage {i : Nat} {s : Stage} (hs : s ≠ .queued) (h : x.Begun k c) :
    (x.setStage i s).Begun k c := by
  obtain ⟨d, hd, hcaller, hid, hinv, hq⟩ := h
  by_cases hi : i = k
  · exact ⟨{ d with stage := s }, by simp [setStage_call?, hd, hi], hcaller, hid, hinv, hs⟩
  · exact ⟨d, by simp [setStage_call?, hd, hi], hcaller, hid, hinv, hq⟩

theorem begun_of_setStage {s : Stage} (hs : s ≠ .queued) (h : x.call? k = some c) :
    (x.setStage k s).Begun k c :=
  ⟨{ c with stage := s }, by simp [setStage_call?, h], rfl, rfl, rfl, hs⟩

theorem begun_move (m : Move ρ) (h : x.Begun k c) : (x.move m).Begun k c := by
  apply move_induction (P := fun y => y.Begun k c) _ _ _ x m h
  · intro y z hd hy
    cases hd with
    | alike h => exact h.begun hy
    | join | bindApp => exact hy
    | @settle i e d b o he hd hs h => exact begun_setStage (s := .settled o) nofun hy
    | @wait i e d b due o he hd hs h => exact begun_setStage (s := .waiting due o) nofun hy
  · rintro y i inv note? - ⟨d, hd, hrest⟩
    have hk : k < y.calls.length := (List.getElem?_eq_some_iff.mp hd).1
    exact ⟨d, (List.getElem?_append_left hk).trans hd, hrest⟩
  · exact fun y i hy => hy

theorem Begun.of_move {m : Move ρ} {e : Call ρ} (he : x.Begun k e)
    (h : (x.move m).Begun k c) : x.Begun k c := by
  obtain ⟨f, hf, hcaller, hid, hinv, -⟩ := begun_move m he
  obtain ⟨f', hf', hcaller', hid', hinv', -⟩ := h
  obtain rfl : f = f' := Option.some.inj (hf.symm.trans hf')
  obtain ⟨d, hd, hn, hi, hj, hs⟩ := he
  exact ⟨d, hd, hn.trans (hcaller.symm.trans hcaller'), hi.trans (hid.symm.trans hid'),
    hj.trans (hinv.symm.trans hinv'), hs⟩

theorem target?_of_accept {d : Caller} (hd : x.callers[c.caller]? = some d)
    (h : d.accept c.invocation = .ok app) : x.target? c = some app := by
  simp only [Caller.accept] at h
  split at h
  · cases h
  · have ha : x.appOf c.caller = d.app? := by simp only [appOf, hd, Option.bind_some]
    rw [target?, ha]
    split at h
    · next he => cases h; exact he
    · cases h

theorem send_received {d : Caller} (hc : x.call? k = some c) (app : String) :
    (x.send k c d app).Begun k c ∧
      (x.send k c d app).backend.received = x.backend.received ++ [c.request app] := by
  simp only [send]
  split
  · exact ⟨begun_of_setStage (s := .settled _) (by rintro ⟨⟩) hc, rfl⟩
  · exact ⟨begun_of_setStage (s := .waiting ..) (by rintro ⟨⟩) hc, rfl⟩

theorem run_received (x : Exchange ρ) (k : Nat) :
    (x.run k).backend.received = x.backend.received ∨
    ∃ c app, x.call? k = some c ∧ c.stage = .queued ∧ x.target? c = some app ∧
      (x.run k).Begun k c ∧
      (x.run k).backend.received = x.backend.received ++ [c.request app] := by
  unfold run
  split
  · exact .inl rfl
  · next c hc =>
    split
    · next d hd hs =>
      unfold start
      split
      · exact .inl rfl
      · next app ha =>
        exact .inr ⟨c, app, hc, hs, target?_of_accept hd ha, send_received hc app⟩
    · exact .inl rfl
    · exact .inl rfl

theorem move_received (x : Exchange ρ) (m : Move ρ) :
    (x.move m).backend.received = x.backend.received ∨
    ∃ k c app, (∀ e, ¬x.Begun k e) ∧ (x.move m).Begun k c ∧ (x.move m).target? c = some app ∧
      (x.move m).backend.received = x.backend.received ++ [c.request app] := by
  have hrun : ∀ (y : Exchange ρ) (k : Nat), y.backend = x.backend →
      (∀ c, y.call? k = some c → c.stage = .queued → ∀ e, ¬x.Begun k e) →
      (y.run k).backend.received = x.backend.received ∨
      ∃ j c app, (∀ e, ¬x.Begun j e) ∧ (y.run k).Begun j c ∧ (y.run k).target? c = some app ∧
        (y.run k).backend.received = x.backend.received ++ [c.request app] := by
    intro y k hb hk
    rcases run_received y k with he | ⟨c, app, hc, hs, ha, hbegun, he⟩
    · exact .inl (hb ▸ he)
    · exact .inr ⟨k, c, app, hk c hc hs, hbegun, target?_run k ha, hb ▸ he⟩
  cases m with
  | execute n i =>
    simp only [move]
    split
    · refine hrun (x.enlist n i none).1 x.calls.length rfl ?_
      rintro c hc hs e ⟨d, hd, -⟩
      have hlt := (List.getElem?_eq_some_iff.mp hd).1
      exact absurd hlt (Nat.lt_irrefl _)
    · exact .inl rfl
  | proceed k =>
    refine hrun { x with ready := x.ready.filter (· ≠ k) } k rfl ?_
    rintro c hc hs e ⟨d, hd, -, -, -, hq⟩
    obtain rfl : d = c := Option.some.inj (hd.symm.trans hc)
    exact hq hs
  | join | bindApp | submit | answer | elapse | retire =>
    exact .inl (congrArg Backend.received (move_backend _ (by rintro _ ⟨⟩)))

def Sent (x : Exchange ρ) (e : Nat × Request) : Prop :=
  ∃ c app, x.Begun e.1 c ∧ x.target? c = some app ∧ e.2 = c.request app

/-- What the backend has received since it had these requests was sent by different calls. -/
def Issued (x : Exchange ρ) (before : List Request) : Prop :=
  ∃ log : List (Nat × Request), x.backend.received = before ++ log.map Prod.snd ∧
    (log.map Prod.fst).Nodup ∧ ∀ e ∈ log, x.Sent e

theorem ofBackend_issued (b : Backend) (background : Bool) :
    Issued (ofBackend (ρ := ρ) b background) b.received :=
  ⟨[], (List.append_nil _).symm, List.nodup_nil, nofun⟩

theorem Sent.move {e : Nat × Request} (h : x.Sent e) (m : Move ρ) : (x.move m).Sent e := by
  obtain ⟨c, app, hb, happ, he⟩ := h
  exact ⟨c, app, begun_move m hb, target?_mono (fun _ => appOf_move m) happ, he⟩

/-- The requests received since, each with the position of the call that made it. -/
structure Logged (x : Exchange ρ) (before : List Request) (log : List (Nat × Request)) : Prop where
  received : x.backend.received = before ++ log.map Prod.snd
  nodup : (log.map Prod.fst).Nodup
  sent : ∀ e ∈ log, x.Sent e

def Begins (x : Exchange ρ) (m : Move ρ) (k : Nat) (c : Call ρ) : Prop :=
  (∀ e, ¬x.Begun k e) ∧ (x.move m).Begun k c

theorem Logged.move {before : List Request} {log : List (Nat × Request)} (h : x.Logged before log)
    (m : Move ρ) :
    ∃ new, (x.move m).Logged before (log ++ new) ∧
      (x.move m).backend.received = x.backend.received ++ new.map Prod.snd ∧
      ∀ e ∈ new, ∃ c, x.Begins m e.1 c := by
  have hkept : ∀ e ∈ log, (x.move m).Sent e := fun e he => (h.sent e he).move m
  rcases move_received x m with he | ⟨k, c, app, hk, hbegun, happ, he⟩
  · refine ⟨[], ?_, he.trans (List.append_nil _).symm, nofun⟩
    rw [List.append_nil]
    exact ⟨he.trans h.received, h.nodup, hkept⟩
  · refine ⟨[(k, c.request app)], ⟨?_, ?_, ?_⟩, he, ?_⟩
    · rw [he, h.received, List.map_append, List.append_assoc]
      rfl
    · rw [List.map_append]
      refine List.nodup_append.mpr ⟨h.nodup, List.pairwise_singleton _ k, ?_⟩
      rintro j hj i hi rfl
      obtain rfl := List.mem_singleton.mp hi
      obtain ⟨e, he, rfl⟩ := List.mem_map.mp hj
      obtain ⟨d, -, hd, -⟩ := h.sent e he
      exact hk d hd
    · intro e he
      rcases List.mem_append.mp he with he | he
      · exact hkept e he
      · rw [List.mem_singleton.mp he]
        exact ⟨c, app, hbegun, happ, rfl⟩
    · intro e he
      rw [List.mem_singleton.mp he]
      exact ⟨c, hk, hbegun⟩

theorem Issued.move {before : List Request} (h : x.Issued before) (m : Move ρ) :
    (x.move m).Issued before := by
  obtain ⟨log, hreceived, hnodup, hsent⟩ := h
  obtain ⟨new, ⟨hreceived', hnodup', hsent'⟩, -, -⟩ := Logged.move ⟨hreceived, hnodup, hsent⟩ m
  exact ⟨log ++ new, hreceived', hnodup', hsent'⟩

end Exchange

end DynamicUi
