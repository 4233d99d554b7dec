import Mathlib.Data.List.Induction
import DynamicUi.Proofs.Store.Subscriptions

/-! # Every write is delivered exactly once

A history runs a store whose listeners leave it alone, and keeps the handles that were given out
and the calls that were made. Who is called follows from the acts so far: a subscription is live
from the act that made it to the first one that ends it. Readers of the change stream look on.
-/

namespace DynamicUi

open Json

namespace Store

/-! ## Histories -/

/-- What is done to a store by others than its listeners. -/
inductive Act where
  | set (key : String) (v : Value)
  | remove (key : String)
  | subscribe (key : String)
  | unsubscribe (sub : Subscription)
  | clearListeners

namespace Act

def written? (key : String) : Act → Option Value
  | set k v => if k = key then some v else none
  | _ => none

def spares (key : String) : Act → Bool
  | set k _ | remove k => k != key
  | _ => true

def ends (sub : Subscription) : Act → Bool
  | unsubscribe s => s = sub
  | clearListeners => true
  | _ => false

end Act

structure Notice where
  listener : Subscription
  key : String
  value : Value

/-- A subscription whose listener is its own handle. -/
def subscribeSelf (s : Store Subscription) (key : String) : Store Subscription × Subscription :=
  s.subscribe key ⟨key, s.nextId⟩

structure History where
  store : Store Subscription
  issued : List Subscription
  calls : List Notice

namespace History

def empty : History := ⟨.empty, [], []⟩

def act (h : History) : Act → History
  | .set key v =>
    let (store, called) := h.store.set key v
    { h with store, calls := h.calls ++ called.map fun sub => ⟨sub, key, v⟩ }
  | .remove key => { h with store := (h.store.remove key).1 }
  | .subscribe key =>
    let (store, sub) := h.store.subscribeSelf key
    { h with store, issued := h.issued ++ [sub] }
  | .unsubscribe sub => { h with store := (h.store.unsubscribe sub).1 }
  | .clearListeners => { h with store := h.store.clearListeners }

def run (h : History) (acts : List Act) : History := acts.foldl act h

def of (acts : List Act) : History := empty.run acts

theorem run_append (h : History) (acts acts' : List Act) :
    h.run (acts ++ acts') = (h.run acts).run acts' := List.foldl_append

theorem of_concat (acts : List Act) (a : Act) : of (acts ++ [a]) = (of acts).act a :=
  run_append empty acts [a]

theorem issued_run (h : History) (acts : List Act) : h.issued <+: (h.run acts).issued := by
  induction acts generalizing h with
  | nil => exact List.prefix_rfl
  | cons a acts ih =>
    have hact : h.issued <+: (h.act a).issued := by
      cases a with
      | subscribe key => exact List.prefix_append ..
      | _ => exact List.prefix_rfl
    exact hact.trans (ih (h.act a))

end History

/-- Some act made it, and all acts since then have kept it. -/
def Since (made : List Act → Act → Prop) (keeps : Act → Prop) (acts : List Act) : Prop :=
  ∃ pre a post, acts = pre ++ a :: post ∧ made pre a ∧ ∀ b ∈ post, keeps b

def Live (acts : List Act) (sub : Subscription) : Prop :=
  Since (fun pre a => a = .subscribe sub.key ∧
      ((History.of pre).store.subscribeSelf sub.key).2 = sub)
    (fun a => a.ends sub = false) acts

section Since

variable {made : List Act → Act → Prop} {keeps : Act → Prop}

theorem not_since_nil : ¬Since made keeps [] := by
  rintro ⟨pre, a, post, h, -⟩
  simp at h

theorem since_concat {acts : List Act} {a : Act} :
    Since made keeps (acts ++ [a]) ↔ made acts a ∨ Since made keeps acts ∧ keeps a := by
  constructor
  · rintro ⟨pre, b, post, h, hb, hpost⟩
    rcases List.eq_nil_or_concat post with rfl | ⟨post, c, rfl⟩
    · obtain ⟨rfl, hlast⟩ := List.append_inj' h rfl
      obtain rfl : a = b := List.singleton_inj.mp hlast
      exact .inl hb
    · rw [List.concat_eq_append, ← List.cons_append, ← List.append_assoc] at h
      obtain ⟨rfl, hlast⟩ := List.append_inj' h rfl
      obtain rfl : a = c := List.singleton_inj.mp hlast
      rw [List.concat_eq_append, List.forall_mem_append] at hpost
      exact .inr ⟨⟨pre, b, post, rfl, hb, hpost.1⟩, hpost.2 a List.mem_cons_self⟩
  · rintro (h | ⟨⟨pre, b, post, rfl, hb, hpost⟩, ha⟩)
    · exact ⟨acts, a, [], rfl, h, nofun⟩
    · refine ⟨pre, b, post ++ [a], by rw [List.append_assoc, List.cons_append], hb, ?_⟩
      rw [List.forall_mem_append]
      exact ⟨hpost, List.forall_mem_singleton.mpr ha⟩

end Since

/-! ## Values -/

theorem ordered_values (acts : List Act) : KeyMap.Ordered (History.of acts).store.values := by
  induction acts using List.reverseRecOn with
  | nil => exact .nil
  | append_singleton acts a ih =>
    rw [History.of_concat]
    cases a with
    | set key v => exact ih.insert key v
    | remove key => exact ih.erase key
    | subscribe key => exact ih
    | unsubscribe sub =>
      rw [History.act, (unsubscribe_content _ sub).1]
      exact ih
    | clearListeners => exact ih

theorem get?_of_eq_some_iff (acts : List Act) (key : String) (v : Value) :
    (History.of acts).store.get? key = some v ↔
      Since (fun _ a => a = .set key v) (fun a => a.spares key) acts := by
  induction acts using List.reverseRecOn with
  | nil => exact iff_of_false nofun not_since_nil
  | append_singleton acts a ih =>
    rw [since_concat, ← ih, History.of_concat]
    cases a with
    | set k w =>
      have hget : ((History.of acts).act (.set k w)).store.get? key =
          if k = key then some w else (History.of acts).store.get? key :=
        KeyMap.get?_insert ..
      rw [hget]
      by_cases hk : k = key
      · simp [hk, Act.spares]
      · simp [hk, Act.spares]
    | remove k =>
      have hget : ((History.of acts).act (.remove k)).store.get? key =
          if k = key then none else (History.of acts).store.get? key := KeyMap.get?_erase ..
      rw [hget]
      by_cases hk : k = key
      · simp [hk, Act.spares]
      · simp [hk, Act.spares]
    | subscribe k => simp [History.act, Act.spares, subscribeSelf, subscribe, get?]
    | unsubscribe sub =>
      have hget : ((History.of acts).act (.unsubscribe sub)).store.get? key =
          (History.of acts).store.get? key := by
        rw [get?, get?, History.act, (unsubscribe_content _ sub).1]
      simp [hget, Act.spares]
    | clearListeners => simp [History.act, Act.spares, clearListeners, get?]

/-! ## Subscriptions -/

/-- Handles are given out in ascending order, and whoever is called has one of them. -/
structure History.Sound (h : History) : Prop where
  fresh : ∀ sub ∈ h.issued, sub.id < h.store.nextId
  ascending : h.issued.Pairwise fun a b => a.id < b.id
  own : ∀ key, ∀ e ∈ h.store.entriesOf key, e.2 = ⟨key, e.1⟩
  among : ∀ key, (h.store.listenersOf key).Sublist h.issued
  called : ∀ c ∈ h.calls, c.listener ∈ h.issued

theorem listenersOf_subscribeSelf (s : Store Subscription) (k key : String) :
    (s.subscribeSelf k).1.listenersOf key =
      s.listenersOf key ++ if k = key then [⟨key, s.nextId⟩] else [] := by
  rw [listenersOf_eq, subscribeSelf, entriesOf_subscribe, listenersOf_eq]
  split
  · next h => rw [h, List.map_append]; rfl
  · rw [List.append_nil]

theorem listenersOf_unsubscribe {s : Store Subscription} {key : String}
    (own : ∀ e ∈ s.entriesOf key, e.2 = ⟨key, e.1⟩) (sub : Subscription) :
    (s.unsubscribe sub).1.listenersOf key = (s.listenersOf key).filter (· ≠ sub) := by
  rw [listenersOf_eq, entriesOf_unsubscribe, listenersOf_eq, List.filter_map]
  congr 1
  apply List.filter_congr
  intro e he
  rw [Function.comp_apply, own e he]

namespace History

theorem sound_empty : empty.Sound := ⟨nofun, .nil, nofun, fun _ => .refl _, nofun⟩

theorem Sound.act {h : History} (hs : h.Sound) (a : Act) : (h.act a).Sound := by
  cases a with
  | set key v =>
    refine ⟨hs.fresh, hs.ascending, hs.own, hs.among, ?_⟩
    intro c hc
    rcases List.mem_append.mp hc with hc | hc
    · exact hs.called c hc
    · obtain ⟨sub, hsub, rfl⟩ := List.mem_map.mp hc
      exact (hs.among key).subset hsub
  | remove key => exact ⟨hs.fresh, hs.ascending, hs.own, hs.among, hs.called⟩
  | subscribe key =>
    refine ⟨?_, ?_, ?_, ?_, ?_⟩
    · intro sub hsub
      show sub.id < h.store.nextId + 1
      rcases List.mem_append.mp hsub with hsub | hsub
      · have hlt := hs.fresh sub hsub
        omega
      · rw [List.mem_singleton.mp hsub]
        exact Nat.lt_succ_self _
    · refine List.pairwise_append.mpr ⟨hs.ascending, List.pairwise_singleton .., ?_⟩
      intro a ha b hb
      rw [List.mem_singleton.mp hb]
      exact hs.fresh a ha
    · intro k e he
      have he : e ∈ (h.store.subscribeSelf key).1.entriesOf k := he
      rw [subscribeSelf, entriesOf_subscribe] at he
      split at he
      · next hk =>
        rcases List.mem_append.mp he with he | he
        · exact hs.own k e he
        · rw [List.mem_singleton.mp he, hk]
      · exact hs.own k e he
    · intro k
      show ((h.store.subscribeSelf key).1.listenersOf k).Sublist _
      rw [listenersOf_subscribeSelf]
      refine (hs.among k).append ?_
      split
      · next hk =>
        subst hk
        exact .refl _
      · exact List.nil_sublist _
    · intro c hc
      exact List.mem_append_left _ (hs.called c hc)
  | unsubscribe sub =>
    have hnext : (h.store.unsubscribe sub).1.nextId = h.store.nextId := by
      unfold unsubscribe
      split <;> rfl
    refine ⟨fun s hsub => hnext.symm ▸ hs.fresh s hsub, hs.ascending, ?_, ?_, hs.called⟩
    · intro k e he
      have he : e ∈ (h.store.unsubscribe sub).1.entriesOf k := he
      rw [entriesOf_unsubscribe] at he
      exact hs.own k e ((List.mem_filter.mp he).1)
    · intro k
      show ((h.store.unsubscribe sub).1.listenersOf k).Sublist _
      rw [listenersOf_unsubscribe (hs.own k)]
      exact List.filter_sublist.trans (hs.among k)
  | clearListeners =>
    exact ⟨hs.fresh, hs.ascending, nofun, fun _ => List.nil_sublist _, hs.called⟩

theorem sound_of (acts : List Act) : (of acts).Sound := by
  induction acts using List.reverseRecOn with
  | nil => exact sound_empty
  | append_singleton acts a ih =>
    rw [of_concat]
    exact ih.act a

variable {h : History}

theorem Sound.nodup (hs : h.Sound) : h.issued.Nodup := by
  refine hs.ascending.imp ?_
  rintro a b hab rfl
  exact Nat.lt_irrefl _ hab

theorem Sound.not_mem (hs : h.Sound) (key : String) :
    (⟨key, h.store.nextId⟩ : Subscription) ∉ h.issued :=
  fun hmem => Nat.lt_irrefl _ (hs.fresh _ hmem)

theorem Sound.key_of_mem (hs : h.Sound) {key : String} {sub : Subscription}
    (hsub : sub ∈ h.store.listenersOf key) : sub.key = key := by
  obtain ⟨e, he, rfl⟩ := List.mem_map.mp hsub
  rw [hs.own key e he]

end History

/-- Who is called after an act: who subscribed just now, and who was called before unless the act
ended the subscription. -/
theorem History.mem_listenersOf_act {h : History} (hs : h.Sound) (a : Act) (sub : Subscription) :
    sub ∈ (h.act a).store.listenersOf sub.key ↔
      (a = .subscribe sub.key ∧ (h.store.subscribeSelf sub.key).2 = sub) ∨
        sub ∈ h.store.listenersOf sub.key ∧ a.ends sub = false := by
  cases a with
  | set key v =>
    have hsame : (h.act (.set key v)).store.listenersOf sub.key = h.store.listenersOf sub.key := rfl
    simp [hsame, Act.ends]
  | remove key =>
    have hsame : (h.act (.remove key)).store.listenersOf sub.key =
        h.store.listenersOf sub.key := rfl
    simp [hsame, Act.ends]
  | subscribe key =>
    show sub ∈ (h.store.subscribeSelf key).1.listenersOf sub.key ↔ _
    rw [listenersOf_subscribeSelf, List.mem_append, or_comm]
    refine or_congr ?_ (by simp [Act.ends])
    obtain ⟨key', id⟩ := sub
    by_cases hk : key = key'
    · subst hk
      simp [subscribeSelf, subscribe, @eq_comm _ id]
    · simp [hk]
  | unsubscribe s =>
    show sub ∈ (h.store.unsubscribe s).1.listenersOf sub.key ↔ _
    rw [listenersOf_unsubscribe (hs.own sub.key)]
    simp [Act.ends, @eq_comm _ s sub]
  | clearListeners =>
    have hnone : (h.act .clearListeners).store.listenersOf sub.key = [] := rfl
    simp [hnone, Act.ends]

theorem mem_listenersOf_iff (acts : List Act) (sub : Subscription) :
    sub ∈ (History.of acts).store.listenersOf sub.key ↔ Live acts sub := by
  induction acts using List.reverseRecOn with
  | nil => exact iff_of_false nofun not_since_nil
  | append_singleton acts a ih =>
    rw [Live, since_concat, ← Live, ← ih, History.of_concat]
    exact History.mem_listenersOf_act (History.sound_of acts) a sub

theorem unsubscribe_eq_true_iff {s : Store Subscription} {sub : Subscription}
    (own : ∀ e ∈ s.entriesOf sub.key, e.2 = ⟨sub.key, e.1⟩) :
    (s.unsubscribe sub).2 = true ↔ sub ∈ s.listenersOf sub.key := by
  have hmem : sub ∈ s.listenersOf sub.key ↔ ∃ e ∈ s.entriesOf sub.key, e.1 = sub.id := by
    rw [listenersOf_eq, List.mem_map]
    refine exists_congr fun e => and_congr_right fun he => ?_
    rw [own e he]
    obtain ⟨key, id⟩ := sub
    simp
  rw [hmem, entriesOf]
  unfold unsubscribe
  cases KeyMap.get? s.listeners sub.key with
  | none => simp
  | some all => simp

/-! ## Calls -/

namespace History

variable {h : History} {sub : Subscription}

/-- What a live subscription is told of a run: the values written under its key until it ends. -/
def due (sub : Subscription) (acts : List Act) : List Notice :=
  ((acts.takeWhile fun a => !a.ends sub).filterMap (Act.written? sub.key)).map
    fun v => ⟨sub, sub.key, v⟩

def callsOf (h : History) (sub : Subscription) : List Notice :=
  h.calls.filter fun c => c.listener = sub

theorem Sound.callsOf_act (hs : h.Sound) (sub : Subscription) (a : Act) :
    (h.act a).callsOf sub = h.callsOf sub ++ if sub ∈ h.store.listenersOf sub.key then
      (a.written? sub.key).toList.map fun v => ⟨sub, sub.key, v⟩ else [] := by
  cases a with
  | set key v =>
    have hcalls : (h.act (.set key v)).callsOf sub = h.callsOf sub ++
        ((h.store.listenersOf key).filter (· = sub)).map fun s => ⟨s, key, v⟩ := by
      simp only [callsOf, History.act, Store.set, List.filter_append, List.filter_map]
      rfl
    have hnodup : (h.store.listenersOf key).Nodup := hs.nodup.sublist (hs.among key)
    rw [hcalls, List.filter_eq, hnodup.count]
    by_cases hk : key = sub.key
    · subst hk
      by_cases hlive : sub ∈ h.store.listenersOf sub.key <;> simp [hlive, Act.written?]
    · have hlive : sub ∉ h.store.listenersOf key := fun hsub => hk (hs.key_of_mem hsub).symm
      simp [hlive, hk, Act.written?]
  | _ => simp [History.act, callsOf, Act.written?]

theorem Sound.callsOf_run (hs : h.Sound) (hsub : sub ∈ h.issued) (acts : List Act) :
    (h.run acts).callsOf sub =
      h.callsOf sub ++ if sub ∈ h.store.listenersOf sub.key then due sub acts else [] := by
  induction acts generalizing h with
  | nil => simp [run, due]
  | cons a acts ih =>
    have hissued : sub ∈ (h.act a).issued := (h.issued_run [a]).subset hsub
    have hlive : sub ∈ (h.act a).store.listenersOf sub.key ↔
        sub ∈ h.store.listenersOf sub.key ∧ a.ends sub = false := by
      rw [mem_listenersOf_act hs]
      refine or_iff_right ?_
      rintro ⟨-, hnew⟩
      exact hs.not_mem sub.key (hnew ▸ hsub)
    show ((h.act a).run acts).callsOf sub = _
    rw [ih (hs.act a) hissued, hs.callsOf_act, List.append_assoc]
    congr 1
    by_cases hbefore : sub ∈ h.store.listenersOf sub.key
    · by_cases hends : a.ends sub = true
      · have hwritten : a.written? sub.key = none := by
          cases a with
          | set key v => cases hends
          | _ => rfl
        simp [hlive, hbefore, hends, due, hwritten]
      · cases hwritten : a.written? sub.key <;>
          simp [hlive, hbefore, hends, due, hwritten]
    · simp [hlive, hbefore]

/-- A subscription is told every value written under its key while it is live, in order and once
each, and nothing else. -/
theorem callsOf_subscribed (pre : List Act) (key : String) (post : List Act) :
    let sub := ((of pre).store.subscribeSelf key).2
    let h := of (pre ++ .subscribe key :: post)
    sub ∈ h.issued ∧ h.callsOf sub = due sub post := by
  intro sub h
  have hs := sound_of pre
  have hnew : sub ∉ (of pre).issued := hs.not_mem key
  have hlive : sub ∈ ((of pre).act (.subscribe key)).store.listenersOf sub.key :=
    (mem_listenersOf_act hs (.subscribe key) sub).mpr (.inl ⟨rfl, rfl⟩)
  have hbefore : ((of pre).act (.subscribe key)).callsOf sub = [] := by
    refine List.filter_eq_nil_iff.mpr fun c hc => ?_
    rw [decide_eq_true_iff]
    intro hsub
    exact hnew (hsub ▸ hs.called c hc)
  have hissued : sub ∈ ((of pre).act (.subscribe key)).issued :=
    List.mem_append_right _ List.mem_cons_self
  have hrun : h = ((of pre).act (.subscribe key)).run post := run_append empty pre _
  rw [hrun]
  refine ⟨(issued_run _ post).subset hissued, ?_⟩
  rw [(hs.act _).callsOf_run hissued, hbefore, if_pos hlive, List.nil_append]

end History

/-! ## The change stream -/

structure Reader where
  seen : Nat
  got : List Change
  missed : Nat

namespace Reader

def start (s : Store Subscription) : Reader := ⟨s.announced.length, [], 0⟩

def read (r : Reader) (s : Store Subscription) (count : Nat) : Reader :=
  let (lost, kept) := s.waiting r.seen
  let taken := kept.take count
  ⟨r.seen + lost + taken.length, r.got ++ taken, r.missed + lost⟩

/-- No more changes are waiting than are kept for a reader. -/
def KeepsUp (r : Reader) (s : Store Subscription) : Prop :=
  s.announced.length ≤ r.seen + streamCapacity

end Reader

inductive Turn where
  | act (a : Act)
  | read (count : Nat)

def Turn.act? : Turn → Option Act
  | act a => some a
  | read _ => none

namespace History

def turn (x : History × Reader) : Turn → History × Reader
  | .act a => (x.1.act a, x.2)
  | .read count => (x.1, x.2.read x.1.store count)

def follow (h : History) (turns : List Turn) : History × Reader :=
  turns.foldl turn (h, .start h.store)

/-- The sets along a run, each with the value that was there just before. -/
def changes (h : History) : List Act → List Change
  | [] => []
  | .set key v :: acts =>
    ⟨key, v, h.store.get? key⟩ :: (h.act (.set key v)).changes acts
  | a :: acts => (h.act a).changes acts

theorem announced_run (h : History) (acts : List Act) :
    (h.run acts).store.announced = h.store.announced ++ h.changes acts := by
  induction acts generalizing h with
  | nil => exact (List.append_nil _).symm
  | cons a acts ih =>
    refine (ih (h.act a)).trans ?_
    cases a with
    | set key v =>
      show (h.store.announced ++ [⟨key, v, h.store.get? key⟩]) ++ _ = _
      rw [List.append_assoc]
      rfl
    | unsubscribe sub =>
      show (h.store.unsubscribe sub).1.announced ++ _ = _
      rw [(unsubscribe_content _ sub).2]
      rfl
    | _ => rfl

theorem follow_concat (h : History) (turns : List Turn) (t : Turn) :
    h.follow (turns ++ [t]) = turn (h.follow turns) t := by
  simp only [follow, List.foldl_append, List.foldl_cons, List.foldl_nil]

theorem follow_fst (h : History) (turns : List Turn) :
    (h.follow turns).1 = h.run (turns.filterMap Turn.act?) := by
  induction turns using List.reverseRecOn with
  | nil => rfl
  | append_singleton turns t ih =>
    rw [follow_concat, List.filterMap_append, run_append, ← ih]
    cases t <;> rfl

end History

namespace Reader

variable {r : Reader} {s : Store Subscription}

/-- A reader that has missed nothing has got the first changes since it started. -/
structure AtPace (r : Reader) (earlier news : List Change) : Prop where
  missed : r.missed = 0
  seen : r.seen = earlier.length + r.got.length
  got : r.got <+: news

theorem AtPace.more {earlier news : List Change} (h : r.AtPace earlier news) (later : List Change) :
    r.AtPace earlier (news ++ later) := ⟨h.missed, h.seen, h.got.trans (List.prefix_append ..)⟩

theorem AtPace.read {earlier news : List Change} (h : r.AtPace earlier news)
    (hs : s.announced = earlier ++ news) (hup : r.KeepsUp s) (count : Nat) :
    (r.read s count).AtPace earlier news ∧
      (streamCapacity ≤ count → (r.read s count).got = news) := by
  obtain ⟨rest, rfl⟩ := h.got
  have hunseen : s.announced.drop r.seen = rest := by
    rw [hs, h.seen, ← List.append_assoc, ← List.length_append, List.drop_left]
  have hrest : rest.length ≤ streamCapacity := by
    have hlength := congrArg List.length hs
    have hseen := h.seen
    simp only [List.length_append] at hlength
    unfold KeepsUp at hup
    omega
  have hwaiting : s.waiting r.seen = (0, rest) := by
    simp only [waiting, hunseen, Nat.sub_eq_zero_of_le hrest, List.drop_zero]
  have hread : r.read s count = ⟨r.seen + (rest.take count).length, r.got ++ rest.take count,
      r.missed⟩ := by
    simp only [Reader.read, hwaiting, Nat.add_zero]
  rw [hread]
  refine ⟨⟨h.missed, ?_, ?_⟩, fun hcount => ?_⟩
  · rw [h.seen, List.length_append, Nat.add_assoc]
  · exact (List.prefix_append_right_inj r.got).mpr (List.take_prefix count rest)
  · rw [List.take_of_length_le (Nat.le_trans hrest hcount)]

end Reader

namespace History

variable {h : History}

theorem follow_atPace {turns : List Turn}
    (hup : ∀ pre, pre <+: turns → (h.follow pre).2.KeepsUp (h.follow pre).1.store) :
    (h.follow turns).2.AtPace h.store.announced (h.changes (turns.filterMap Turn.act?)) := by
  induction turns using List.reverseRecOn with
  | nil => exact ⟨rfl, rfl, List.prefix_rfl⟩
  | append_singleton turns t ih =>
    have ih := ih fun pre hpre => hup pre (hpre.trans (List.prefix_append ..))
    rw [follow_concat, List.filterMap_append]
    cases t with
    | act a =>
      have hmore : h.changes (turns.filterMap Turn.act? ++ [a]) =
          h.changes (turns.filterMap Turn.act?) ++
            (h.run (turns.filterMap Turn.act?)).changes [a] := by
        have hrun := h.announced_run (turns.filterMap Turn.act? ++ [a])
        rw [run_append, announced_run, announced_run, List.append_assoc] at hrun
        exact (List.append_cancel_left hrun).symm
      show (h.follow turns).2.AtPace _ (h.changes (turns.filterMap Turn.act? ++ [a]))
      rw [hmore]
      exact ih.more _
    | read count =>
      rw [List.filterMap_cons_none rfl, List.filterMap_nil, List.append_nil]
      have hs : (h.follow turns).1.store.announced =
          h.store.announced ++ h.changes (turns.filterMap Turn.act?) := by
        rw [follow_fst, announced_run]
      exact (ih.read hs (hup turns (List.prefix_append ..)) count).1

/-- After any acts on a new store: a key has the value of the last set that no set or remove of it
has followed, and the map has just these entries, in order. A subscription is told the values
written under its key from its own act to the first that ends it, in order and once each. A write
calls the live subscriptions of its key in the order in which their handles were given out. A handle
ends a subscription exactly if it is live, and ends no other. A reader of the change stream with
never more waiting than is kept for it misses nothing, and gets every set since it started, in order
and with the value just before. -/
theorem delivers_exactly_once (acts : List Act) :
    let h := of acts
    (∀ key v, h.store.get? key = some v ↔
      Since (fun _ a => a = .set key v) (fun a => a.spares key) acts) ∧
    (KeyMap.Ordered h.store.values ∧
      ∀ key v, (key, v) ∈ h.store.values ↔ h.store.get? key = some v) ∧
    (∀ pre key post, acts = pre ++ .subscribe key :: post →
      let sub := ((of pre).store.subscribeSelf key).2
      sub ∈ h.issued ∧ h.callsOf sub = due sub post) ∧
    (h.issued.Nodup ∧ (∀ c ∈ h.calls, c.listener ∈ h.issued) ∧
      ∀ key v, (h.store.set key v).2.Sublist h.issued ∧
        ∀ sub, sub ∈ (h.store.set key v).2 ↔ sub.key = key ∧ Live acts sub) ∧
    (∀ sub, ((h.store.unsubscribe sub).2 = true ↔ Live acts sub) ∧
      (∀ key, (h.store.unsubscribe sub).1.listenersOf key =
        (h.store.listenersOf key).filter (· ≠ sub)) ∧
      (h.store.unsubscribe sub).1.values = h.store.values ∧
      (h.store.unsubscribe sub).1.announced = h.store.announced) ∧
    ∀ turns, (∀ pre, pre <+: turns → (h.follow pre).2.KeepsUp (h.follow pre).1.store) →
      let later := turns.filterMap Turn.act?
      (h.follow turns).1 = h.run later ∧ (h.follow turns).2.missed = 0 ∧
        (h.follow turns).2.got <+: h.changes later ∧
        ∀ count, streamCapacity ≤ count →
          ((h.follow turns).2.read (h.run later).store count).got = h.changes later := by
  intro h
  have hs : h.Sound := sound_of acts
  have hordered := ordered_values acts
  refine ⟨get?_of_eq_some_iff acts, ⟨hordered, ?_⟩, ?_, ⟨hs.nodup, hs.called, ?_⟩, ?_, ?_⟩
  · intro key v
    exact ⟨fun hmem => hordered.get?_of_mem hmem, KeyMap.mem_of_get?⟩
  · rintro pre key post rfl
    exact callsOf_subscribed pre key post
  · intro key v
    refine ⟨hs.among key, fun sub => ?_⟩
    constructor
    · intro hsub
      obtain rfl := hs.key_of_mem hsub
      exact ⟨rfl, (mem_listenersOf_iff acts sub).mp hsub⟩
    · rintro ⟨rfl, hlive⟩
      exact (mem_listenersOf_iff acts sub).mpr hlive
  · intro sub
    obtain ⟨hvalues, hannounced⟩ := unsubscribe_content h.store sub
    refine ⟨?_, fun key => listenersOf_unsubscribe (hs.own key) sub, hvalues, hannounced⟩
    rw [unsubscribe_eq_true_iff (hs.own sub.key), mem_listenersOf_iff acts sub]
  · intro turns hup later
    have hpace := follow_atPace hup
    have hrun := h.follow_fst turns
    have hannounced : (h.run later).store.announced = h.store.announced ++ h.changes later :=
      h.announced_run later
    have hnow := hup turns List.prefix_rfl
    rw [hrun] at hnow
    exact ⟨hrun, hpace.missed, hpace.got, fun count => (hpace.read hannounced hnow count).2⟩

/-- The handle of a subscription that has ended does not touch a later one of the same key, and a
reader that reads in time gets the write that follows. -/
theorem delivers_after_resubscription :
    let old : Subscription := ⟨"k", 1⟩
    let new : Subscription := ⟨"k", 2⟩
    let acts := [.subscribe "k", .unsubscribe old, .subscribe "k", .unsubscribe old, .set "k" .null]
    let turns := [.act (.set "k" (.bool true)), .read streamCapacity]
    let h := of acts
    h.callsOf old = [] ∧ h.callsOf new = [⟨new, "k", .null⟩] ∧ Live acts new ∧ ¬Live acts old ∧
      ((h.follow turns).2.read (h.follow turns).1.store streamCapacity).got =
        [⟨"k", .bool true, some .null⟩] := by
  intro old new acts turns h
  obtain ⟨-, -, hcalls, -, hends, hstream⟩ := delivers_exactly_once acts
  have hup : ∀ pre, pre <+: turns → (h.follow pre).2.KeepsUp (h.follow pre).1.store := by
    intro pre hpre
    simp only [turns, List.prefix_cons_iff, List.prefix_nil] at hpre
    unfold Reader.KeepsUp
    rcases hpre with rfl | ⟨-, rfl, rfl | ⟨-, rfl, rfl⟩⟩ <;> decide
  obtain ⟨hrun, -, -, hgot⟩ := hstream turns hup
  refine ⟨(hcalls [] "k" _ rfl).2, (hcalls [.subscribe "k", .unsubscribe old] "k" _ rfl).2,
    (hends new).1.mp rfl, fun hlive => ?_, ?_⟩
  · have hended := (hends old).1.mpr hlive
    cases hended
  · rw [hrun]
    exact hgot streamCapacity (Nat.le_refl _)

end History

end Store

end DynamicUi
