import DynamicUi.Proofs.Store.History
import DynamicUi.Store.Reaction

/-! # Writes made by listeners

A write takes effect before its listeners are called and is announced after they have returned. So
a write that a listener makes is announced before the write that called it: the change stream tells
the writes in the order in which they return. It replays to the contents of the store as long as no
write of a key is made while another write of the same key is going on.
-/

namespace DynamicUi

open Json

def Change.apply (c : Change) (contents : String → Option Value) : String → Option Value :=
  fun key => if c.key = key then some c.value else contents key

namespace Store

/-! ## Changes in a row -/

def replay (contents : String → Option Value) (cs : List Change) : String → Option Value :=
  cs.foldl (fun contents c => c.apply contents) contents

/-- Each change has for its previous value what the changes before it leave under its key. -/
def Chained (contents : String → Option Value) : List Change → Prop
  | [] => True
  | c :: cs => c.previous = contents c.key ∧ Chained (c.apply contents) cs

section Rows

variable {contents : String → Option Value} {c d : Change} {cs ds : List Change}

theorem replay_append : replay contents (cs ++ ds) = replay (replay contents cs) ds :=
  List.foldl_append

theorem chained_append :
    Chained contents (cs ++ ds) ↔ Chained contents cs ∧ Chained (replay contents cs) ds := by
  induction cs generalizing contents with
  | nil => exact (iff_of_eq (true_and _)).symm
  | cons c cs ih => exact (and_congr_right fun _ => ih).trans and_assoc.symm

theorem apply_comm (h : c.key ≠ d.key) :
    c.apply (d.apply contents) = d.apply (c.apply contents) := by
  funext key
  unfold Change.apply
  by_cases hc : c.key = key
  · have hd : d.key ≠ key := fun hd => h (hc.trans hd.symm)
    rw [if_pos hc, if_neg hd, if_pos hc]
  · rw [if_neg hc, if_neg hc]

theorem apply_of_ne (h : c.key ≠ d.key) : c.apply contents d.key = contents d.key := if_neg h

theorem chained_rotate (hother : ∀ d ∈ cs, d.key ≠ c.key) (h : Chained contents (c :: cs)) :
    Chained contents (cs ++ [c]) := by
  induction cs generalizing contents with
  | nil => exact h
  | cons d cs ih =>
    obtain ⟨hc, hd, hrest⟩ := h
    obtain ⟨hne, hother⟩ := List.forall_mem_cons.mp hother
    rw [apply_of_ne hne.symm] at hd
    rw [apply_comm hne] at hrest
    exact ⟨hd, ih hother ⟨hc.trans (apply_of_ne hne).symm, hrest⟩⟩

theorem replay_rotate (hother : ∀ d ∈ cs, d.key ≠ c.key) :
    replay contents (cs ++ [c]) = replay contents (c :: cs) := by
  induction cs generalizing contents with
  | nil => rfl
  | cons d cs ih =>
    obtain ⟨hne, hother⟩ := List.forall_mem_cons.mp hother
    show replay (d.apply contents) (cs ++ [c]) = replay (d.apply (c.apply contents)) cs
    rw [ih hother, ← apply_comm hne.symm]
    rfl

end Rows

/-! ## Writes within writes -/

/-- Writes in a row, each with the writes that are made while its listeners are called. -/
inductive Writes where
  | none
  | write (c : Change) (during after : Writes)

namespace Writes

/-- All changes in the order in which they take effect. -/
def begun : Writes → List Change
  | none => []
  | write c during after => c :: (during.begun ++ after.begun)

/-- All changes in the order in which their writes return. -/
def returned : Writes → List Change
  | none => []
  | write c during after => during.returned ++ c :: after.returned

def outer : Writes → List Change
  | none => []
  | write c _ after => c :: after.outer

def Flat : Writes → Prop
  | none => True
  | write _ during after => during = none ∧ after.Flat

/-- Nothing is written under a key while a write of the same key is going on. -/
def Apart : Writes → Prop
  | none => True
  | write c during after =>
    (∀ d ∈ during.begun, d.key ≠ c.key) ∧ during.Apart ∧ after.Apart

variable {w : Writes}

theorem returned_perm (w : Writes) : w.returned.Perm w.begun := by
  induction w with
  | none => exact .refl _
  | write c during after ihd iha =>
    exact List.perm_middle.trans ((ihd.append iha).cons c)

theorem Flat.returned_eq (h : w.Flat) : w.returned = w.begun := by
  induction w with
  | none => rfl
  | write c during after _ iha =>
    obtain ⟨rfl, hafter⟩ := h
    exact congrArg (c :: ·) (iha hafter)

/-- The first write to return is not the first one that took effect, if that one calls another. -/
theorem flat_of_returned_eq (hnodup : w.begun.Nodup) (h : w.returned = w.begun) : w.Flat := by
  induction w with
  | none => trivial
  | write c during after _ iha =>
    obtain ⟨hnew, hnodup⟩ := List.nodup_cons.mp hnodup
    cases hreturned : during.returned with
    | nil =>
      have hnone : during = none := by
        cases during with
        | none => rfl
        | write d inner rest => simp [returned] at hreturned
      subst hnone
      exact ⟨rfl, iha hnodup (List.cons_inj_right c |>.mp h)⟩
    | cons d ds =>
      have hd : d ∈ during.begun := by
        rw [← during.returned_perm.mem_iff, hreturned]
        exact List.mem_cons_self
      have hhead : d = c := by
        have h : during.returned ++ c :: after.returned = c :: (during.begun ++ after.begun) := h
        rw [hreturned] at h
        exact (List.cons.inj h).1
      exact absurd (List.mem_append_left _ (hhead ▸ hd)) hnew

/-- Telling the changes as their writes return is as good as telling them as they take effect. -/
theorem Apart.chained (h : w.Apart) {contents : String → Option Value}
    (hbegun : Chained contents w.begun) :
    Chained contents w.returned ∧ replay contents w.returned = replay contents w.begun := by
  induction w generalizing contents with
  | none => exact ⟨trivial, rfl⟩
  | write c during after ihd iha =>
    obtain ⟨hother, hduring, hafter⟩ := h
    obtain ⟨hc, hbegun⟩ := hbegun
    obtain ⟨hinner, houter⟩ := chained_append.mp hbegun
    obtain ⟨hchained, hreplay⟩ := ihd hduring hinner
    have hother : ∀ d ∈ during.returned, d.key ≠ c.key :=
      fun d hd => hother d (during.returned_perm.mem_iff.mp hd)
    -- the calling change is moved from before the changes of its listeners to behind them
    have hmoved : Chained contents (during.returned ++ [c]) := chained_rotate hother ⟨hc, hchained⟩
    have hsame : replay contents (during.returned ++ [c]) =
        replay (c.apply contents) during.begun := (replay_rotate hother).trans hreplay
    obtain ⟨hlater, hend⟩ := iha hafter houter
    rw [← hsame] at hlater hend
    have hsplit : (write c during after).returned = (during.returned ++ [c]) ++ after.returned :=
      List.append_cons ..
    rw [hsplit]
    refine ⟨chained_append.mpr ⟨hmoved, hlater⟩, ?_⟩
    rw [replay_append, hend, hsame]
    exact replay_append.symm

end Writes

/-! ## Courses -/

/-- Writes are made, whatever listeners there are and whatever they write, and a reader of the
stream that keeps up takes changes at any time in between. -/
inductive Course : Store Subscription → Reader → Writes → Store Subscription → Reader → Prop
  | done {s : Store Subscription} {r : Reader} : Course s r .none s r
  | read {s s' : Store Subscription} {r r' : Reader} {w : Writes} (count : Nat) (hup : r.KeepsUp s)
      (rest : Course s (r.read s count) w s' r') : Course s r w s' r'
  | write {s s₁ s' : Store Subscription} {r r₁ r' : Reader} {during after : Writes} {key : String}
      {v : Value} (inner : Course (s.write key v) r during s₁ r₁)
      (rest : Course (s₁.announce ⟨key, v, s.get? key⟩) r₁ after s' r') :
      Course s r (.write ⟨key, v, s.get? key⟩ during after) s' r'

namespace Course

variable {s s' : Store Subscription} {r r' : Reader} {w : Writes}

theorem contents (h : Course s r w s' r') :
    Chained s.get? w.begun ∧ replay s.get? w.begun = s'.get? := by
  induction h with
  | done => exact ⟨trivial, rfl⟩
  | read _ _ _ ih => exact ih
  | @write s s₁ s' _ _ _ during after key v _ _ ihd iha =>
    have hwrite : (s.write key v).get? = Change.apply ⟨key, v, s.get? key⟩ s.get? :=
      funext (KeyMap.get?_insert s.values key · v)
    have hannounce : (s₁.announce ⟨key, v, s.get? key⟩).get? = s₁.get? := rfl
    rw [hwrite] at ihd
    rw [hannounce, ← ihd.2] at iha
    exact ⟨⟨rfl, chained_append.mpr ⟨ihd.1, iha.1⟩⟩, replay_append.trans iha.2⟩

theorem announced (h : Course s r w s' r') : s'.announced = s.announced ++ w.returned := by
  induction h with
  | done => exact (List.append_nil _).symm
  | read _ _ _ ih => exact ih
  | @write s s₁ s' _ _ _ during after key v _ _ ihd iha =>
    have hannounce : (s₁.announce ⟨key, v, s.get? key⟩).announced =
        s.announced ++ during.returned ++ [⟨key, v, s.get? key⟩] := congrArg (· ++ [_]) ihd
    rw [iha, hannounce, Writes.returned, List.append_assoc, List.append_assoc]
    rfl

theorem atPace (h : Course s r w s' r') {earlier news : List Change} (hr : r.AtPace earlier news)
    (hs : s.announced = earlier ++ news) : r'.AtPace earlier (news ++ w.returned) := by
  induction h generalizing news with
  | done => exact hr.more []
  | read count hup _ ih => exact ih (hr.read hs hup count).1 hs
  | @write s s₁ s' _ _ _ during after key v inner _ ihd iha =>
    have hinner := (ihd hr hs).more [⟨key, v, s.get? key⟩]
    have hannounce : (s₁.announce ⟨key, v, s.get? key⟩).announced =
        earlier ++ (news ++ during.returned ++ [⟨key, v, s.get? key⟩]) := by
      rw [← List.append_assoc, ← List.append_assoc, ← hs]
      exact congrArg (· ++ [_]) inner.announced
    have hrest := iha hinner hannounce
    rwa [List.append_assoc, List.append_assoc] at hrest

end Course

/-- A store as the readers of its stream know it: who listens is nothing to them. -/
def bare {κ : Type} (s : Store κ) : Store Subscription := { s with listeners := [] }

end Store

/-! ## Listeners that only write -/

namespace Reaction

open Store

def Action.writes : Action → Bool
  | .copy _ | .set .. => true
  | .remove _ | .unsubscribe _ | .clearListeners => false

def Listener.Writes (l : Listener) : Prop := ∀ a ∈ l.actions, a.writes = true

def State.Writes (s : State) : Prop := ∀ key, ∀ l ∈ s.store.listenersOf key, l.Writes

theorem State.writes_empty : State.empty.Writes := nofun

theorem State.Writes.subscribe {s : State} (hs : s.Writes) (key name : String)
    {actions : List Action} (h : ∀ a ∈ actions, a.writes = true) :
    (Reaction.subscribe s key name actions).Writes := by
  intro k l hl
  have hl : l ∈ (s.store.subscribe key ⟨name, actions⟩).1.listenersOf k := hl
  rw [listenersOf_eq, entriesOf_subscribe] at hl
  split at hl
  · rw [List.map_append, List.mem_append] at hl
    rcases hl with hl | hl
    · exact hs k l hl
    · rw [List.mem_singleton.mp hl]
      exact h
  · exact hs k l hl

def Step.Writes : Step → Prop
  | .call l _ _ => l.Writes
  | .act a _ => a.writes = true
  | .announce _ => False

def Ends : Nat → State → List Step → Prop
  | _, _, [] => True
  | 0, _, _ :: _ => False
  | fuel + 1, s, next :: agenda => Ends fuel (step s next).1 ((step s next).2 ++ agenda)

def setEach (fuel : Nat) (s : State) : List (String × Value) → State
  | [] => s
  | (key, v) :: sets => setEach fuel (run fuel (write s key v).1 (write s key v).2) sets

theorem setEach_patience (s : State) (sets : List (String × Value)) :
    setEach patience s sets = sets.foldl (fun s e => Reaction.set s e.1 e.2) s := by
  induction sets generalizing s with
  | nil => rfl
  | cons e sets ih => exact ih _

def EndEach (fuel : Nat) (s : State) : List (String × Value) → Prop
  | [] => True
  | (key, v) :: sets => Ends fuel (write s key v).1 (write s key v).2 ∧
      EndEach fuel (run fuel (write s key v).1 (write s key v).2) sets

theorem exists_write_of_act {a : Action} (h : a.writes = true) (s : State) (seen : Value) :
    ∃ key v, act s seen a = write s key v := by
  cases a with
  | copy key => exact ⟨key, seen, rfl⟩
  | set key v => exact ⟨key, v, rfl⟩
  | _ => cases h

def calls (s : State) (key : String) (v : Value) : List Step :=
  (s.store.listenersOf key).map fun l => .call l key v

theorem writes_of_mem_calls {s : State} (hs : s.Writes) {key : String} {v : Value} {x : Step}
    (hx : x ∈ calls s key v) : x.Writes := by
  obtain ⟨l, hl, rfl⟩ := List.mem_map.mp hx
  exact hs key l hl

theorem ends_announce {fuel : Nat} {s : State} {c : Change} {agenda : List Step}
    (h : Ends fuel s (.announce c :: agenda)) :
    ∃ left < fuel, Ends left { s with store := s.store.announce c } agenda ∧
      run fuel s (.announce c :: agenda) =
        run left { s with store := s.store.announce c } agenda := by
  cases fuel with
  | zero => cases h
  | succ left => exact ⟨left, Nat.lt_succ_self _, h, rfl⟩

/-- The first steps of an agenda are worked off, with all they lead to, before the rest of it. -/
def WorkedOff (fuel : Nat) (s : State) (steps agenda : List Step) : Prop :=
  ∃ left ≤ fuel, ∃ s' w, s'.Writes ∧ Ends left s' agenda ∧
    run fuel s (steps ++ agenda) = run left s' agenda ∧
    ∀ r, Course s.store.bare r w s'.store.bare r

theorem exists_course_of_write {fuel : Nat} {s : State} {key : String} {v : Value}
    {agenda : List Step}
    (hcalls : ∀ rest, Ends fuel (write s key v).1 (calls s key v ++ rest) →
      WorkedOff fuel (write s key v).1 (calls s key v) rest)
    (hends : Ends fuel (write s key v).1 ((write s key v).2 ++ agenda)) :
    ∃ left < fuel, ∃ s' during, s'.Writes ∧ Ends left s' agenda ∧
      run fuel (write s key v).1 ((write s key v).2 ++ agenda) = run left s' agenda ∧
      ∀ {r after s''}, Course s'.store.bare r after s'' r →
        Course s.store.bare r (.write ⟨key, v, s.store.get? key⟩ during after) s'' r := by
  have hsplit : (write s key v).2 ++ agenda =
      calls s key v ++ .announce ⟨key, v, s.store.get? key⟩ :: agenda := List.append_assoc ..
  rw [hsplit] at hends ⊢
  obtain ⟨left, hle, s₁, during, hs₁, hends₁, hrun₁, hinner⟩ := hcalls _ hends
  obtain ⟨left', hlt, hends', hrun'⟩ := ends_announce hends₁
  exact ⟨left', by omega, { s₁ with store := s₁.store.announce _ }, during, hs₁, hends',
    hrun₁.trans hrun', fun h => .write (hinner _) h⟩

theorem workedOff {fuel : Nat} {s : State} {steps agenda : List Step} (hs : s.Writes)
    (hsteps : ∀ x ∈ steps, x.Writes) (hends : Ends fuel s (steps ++ agenda)) :
    WorkedOff fuel s steps agenda := by
  -- what a step puts on the agenda is worked off with less fuel than the step itself
  induction fuel using Nat.strongRecOn generalizing s steps agenda with
  | _ fuel ih =>
    cases steps with
    | nil => exact ⟨fuel, Nat.le_refl _, s, .none, hs, hends, rfl, fun _ => .done⟩
    | cons next steps =>
      obtain ⟨hnext, hlater⟩ := List.forall_mem_cons.mp hsteps
      cases fuel with
      | zero => cases hends
      | succ fuel =>
        have hrun : run (fuel + 1) s (next :: steps ++ agenda) =
            run fuel (step s next).1 ((step s next).2 ++ (steps ++ agenda)) := rfl
        have hends : Ends fuel (step s next).1 ((step s next).2 ++ (steps ++ agenda)) := hends
        cases next with
        | announce c => cases hnext
        | call l key v =>
          have hmore : ∀ x ∈ (step s (.call l key v)).2 ++ steps, x.Writes := by
            rw [List.forall_mem_append]
            refine ⟨fun x hx => ?_, hlater⟩
            obtain ⟨a, ha, rfl⟩ := List.mem_map.mp hx
            exact hnext a ha
          rw [← List.append_assoc] at hends hrun
          obtain ⟨left, hle, s', w, hs', hends', hrun', hcourse⟩ :=
            ih fuel (Nat.lt_succ_self _) (s := (step s (.call l key v)).1) hs hmore hends
          exact ⟨left, by omega, s', w, hs', hends', hrun.trans hrun', hcourse⟩
        | act a seen =>
          obtain ⟨key, v, hact⟩ := exists_write_of_act hnext s seen
          rw [step, hact] at hends hrun
          obtain ⟨left, hlt, s₁, during, hs₁, hends₁, hrun₁, hwrite⟩ :=
            exists_course_of_write (fun _ => ih fuel (Nat.lt_succ_self _) hs
              fun x hx => writes_of_mem_calls hs hx) hends
          obtain ⟨left', hle, s', after, hs', hends', hrun', hafter⟩ :=
            ih left (by omega) hs₁ hlater hends₁
          exact ⟨left', by omega, s', .write ⟨key, v, s.store.get? key⟩ during after, hs', hends',
            hrun.trans (hrun₁.trans hrun'), fun r => hwrite (hafter r)⟩

/-- What listeners that only write make of writes, if they come to an end, is a course. -/
theorem exists_course_of_setEach {fuel : Nat} {s : State} {sets : List (String × Value)}
    (hs : s.Writes) (hends : EndEach fuel s sets) :
    ∃ w : Writes, w.outer.map (fun c => (c.key, c.value)) = sets ∧
      ∀ r, Course s.store.bare r w (setEach fuel s sets).store.bare r := by
  induction sets generalizing s with
  | nil => exact ⟨.none, rfl, fun _ => .done⟩
  | cons set sets ih =>
    obtain ⟨key, v⟩ := set
    obtain ⟨hend, hends⟩ := hends
    rw [← List.append_nil (write s key v).2] at hend hends
    obtain ⟨left, -, s', during, hs', -, hrun, hwrite⟩ := exists_course_of_write
      (fun _ => workedOff hs fun x hx => writes_of_mem_calls hs hx) hend
    have hdone : run left s' [] = s' := by cases left <;> rfl
    rw [hrun, hdone] at hends
    obtain ⟨after, houter, hafter⟩ := ih hs' hends
    refine ⟨.write ⟨key, v, s.store.get? key⟩ during after, ?_, fun r => hwrite ?_⟩
    · exact congrArg ((key, v) :: ·) houter
    · rw [setEach, ← List.append_nil (write s key v).2, hrun, hdone]
      exact hafter r

end Reaction

namespace Store

/-- Whatever writes are made while the listeners of others are called, each is announced once, when
its listeners have returned, and a reader that keeps up gets the changes in this order. In the order
in which they take effect, each change has for its previous value what is there after those before
it, and together they lead to what the store holds in the end. The two orders are the same if no
listener writes, and differ as soon as one does unless some change occurs twice. If no write of a
key is made while another of the same key is going on, then also in the order of the stream the
previous values are right, and replaying it gives what the store holds. All writes to a store with
listeners that only write, and come to an end, are of this kind. -/
theorem stream_follows_returns (s : Store Subscription) :
    (∀ {s' : Store Subscription} {r : Reader} {w : Writes}, Course s (.start s) w s' r →
      (s'.announced = s.announced ++ w.returned ∧ w.returned.Perm w.begun) ∧
      (r.missed = 0 ∧ r.got <+: w.returned ∧ (r.KeepsUp s' → ∀ count, streamCapacity ≤ count →
        (r.read s' count).missed = 0 ∧ (r.read s' count).got = w.returned)) ∧
      (Chained s.get? w.begun ∧ replay s.get? w.begun = s'.get?) ∧
      ((w.Flat → w.returned = w.begun) ∧
        (w.begun.Nodup → w.returned = w.begun → w.Flat)) ∧
      (w.Apart → Chained s.get? w.returned ∧ replay s.get? w.returned = s'.get?)) ∧
    ∀ {fuel : Nat} {x : Reaction.State} {sets : List (String × Value)},
      x.store.bare = s → x.Writes → Reaction.EndEach fuel x sets →
      ∃ w : Writes, w.outer.map (fun c => (c.key, c.value)) = sets ∧
        ∀ r, Course s r w (Reaction.setEach fuel x sets).store.bare r := by
  refine ⟨?_, fun hx => hx ▸ Reaction.exists_course_of_setEach⟩
  intro s' r w h
  obtain ⟨hchained, hreplay⟩ := h.contents
  have hstart : (Reader.start s).AtPace s.announced [] := ⟨rfl, rfl, List.prefix_rfl⟩
  have hpace : r.AtPace s.announced w.returned := h.atPace hstart (List.append_nil _).symm
  refine ⟨⟨h.announced, w.returned_perm⟩, ⟨hpace.missed, hpace.got, ?_⟩, ⟨hchained, hreplay⟩,
    ⟨Writes.Flat.returned_eq, Writes.flat_of_returned_eq⟩, ?_⟩
  · intro hup count hcount
    obtain ⟨hread, hall⟩ := hpace.read h.announced hup count
    exact ⟨hread.missed, hall hcount⟩
  · intro hapart
    obtain ⟨hstream, hsame⟩ := hapart.chained hchained
    exact ⟨hstream, hsame.trans hreplay⟩

theorem stream_of_two_writes :
    let s := Reaction.subscribe .empty "a" "s" [.set "b" (.nat 2)]
    let s' := Reaction.setEach 4 s [("a", .nat 1)]
    let a : Change := ⟨"a", .nat 1, none⟩
    let b : Change := ⟨"b", .nat 2, none⟩
    (∃ r : Reader, Course s.store.bare (.start s.store.bare)
        (.write a (.write b .none .none) .none) s'.store.bare r ∧ r.got = [b] ∧
        (r.read s'.store.bare streamCapacity).missed = 0 ∧
        (r.read s'.store.bare streamCapacity).got = [b, a]) ∧
      [b, a] ≠ [a, b] ∧ replay s.store.get? [b, a] = s'.store.get? ∧
      ∃ w : Writes, w.outer.map (fun c => (c.key, c.value)) = [("a", .nat 1)] ∧
        ∀ r, Course s.store.bare r w s'.store.bare r := by
  intro s s' a b
  obtain ⟨hcourse, hreaction⟩ := stream_follows_returns s.store.bare
  have hwrites : s.Writes :=
    Reaction.State.writes_empty.subscribe "a" "s" (List.forall_mem_singleton.mpr rfl)
  let w : Writes := .write a (.write b .none .none) .none
  let between := ((s.store.bare.write "a" (.nat 1)).write "b" (.nat 2)).announce b
  let early := (Reader.start s.store.bare).read between streamCapacity
  have hbetween : (Reader.start s.store.bare).KeepsUp between := Nat.le_add_left 1 _
  have hstart : (Reader.start s.store.bare).AtPace [] [b] := ⟨rfl, rfl, List.nil_prefix⟩
  obtain ⟨hpace, hgot⟩ := hstart.read (s := between) rfl hbetween streamCapacity
  have hgot : early.got = [b] := hgot (Nat.le_refl _)
  have hseen : early.seen = 1 := hpace.seen.trans (by rw [hgot]; rfl)
  have hup : early.KeepsUp s'.store.bare := by
    unfold Reader.KeepsUp
    rw [hseen]
    exact Nat.le_add_left 2 _
  have h : Course s.store.bare (.start s.store.bare) w s'.store.bare early :=
    .write (.write .done (.read streamCapacity hbetween .done)) .done
  obtain ⟨-, ⟨-, -, hread⟩, -, ⟨-, horder⟩, hreplay⟩ := hcourse h
  obtain ⟨hmissed, hall⟩ := hread hup streamCapacity (Nat.le_refl _)
  have hnodup : w.begun.Nodup := by simp [w, a, b, Writes.begun]
  refine ⟨⟨early, h, hgot, hmissed, hall⟩, fun hsame => ?_, ?_, ?_⟩
  · exact nomatch (horder hnodup hsame).1
  · have hother : ∀ d ∈ [b], d.key ≠ a.key := List.forall_mem_singleton.mpr (by decide)
    exact (hreplay ⟨hother, ⟨nofun, trivial, trivial⟩, trivial⟩).2
  · exact hreaction rfl hwrites ⟨trivial, trivial⟩

/-- A listener of one key writes another, and the write that called it is announced last. Another
listener ends its subscription and writes its own key: then the stream ends with a value that is
not there any more. -/
theorem nested_write_announced_first :
    (let s := Reaction.subscribe .empty "a" "s" [.set "b" (.nat 2)]
      let s' := Reaction.set s "a" (.nat 1)
      let a : Change := ⟨"a", .nat 1, none⟩
      let b : Change := ⟨"b", .nat 2, none⟩
      s'.store.announced = [b, a] ∧ ∀ r, Course s.store.bare r
        (.write a (.write b .none .none) .none) s'.store.bare r) ∧
    let s := Reaction.subscribe .empty "k" "s" [.unsubscribe "s", .set "k" (.nat 2)]
    let s' := Reaction.set s "k" (.nat 1)
    s'.store.announced = [⟨"k", .nat 2, some (.nat 1)⟩, ⟨"k", .nat 1, none⟩] ∧
      ¬Chained s.store.get? s'.store.announced ∧
      s'.store.get? "k" = some (.nat 2) ∧
      replay s.store.get? s'.store.announced "k" = some (.nat 1) :=
  ⟨⟨rfl, fun _ => .write (.write .done .done) .done⟩, rfl, nofun, rfl, rfl⟩

end Store

end DynamicUi
