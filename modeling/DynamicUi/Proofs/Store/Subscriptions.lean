import DynamicUi.Proofs.Order
import DynamicUi.Window.Session

/-! # Subscriptions

A subscription adds one listener under one key, and ending it takes away that listener alone. So
when all subscriptions of a store have ended nobody listens, and when each key of a pass has been
subscribed to, its readers listen and nobody else does.
-/

namespace DynamicUi

open Json

namespace Store

variable {κ : Type} (s : Store κ)

def entriesOf (key : String) : List (Nat × κ) := (KeyMap.get? s.listeners key).getD []

theorem listenersOf_eq (key : String) : s.listenersOf key = (s.entriesOf key).map Prod.snd := rfl

theorem entriesOf_subscribe (key : String) (listener : κ) (k : String) :
    (s.subscribe key listener).1.entriesOf k =
      if key = k then s.entriesOf k ++ [(s.nextId, listener)] else s.entriesOf k := by
  simp only [entriesOf, subscribe, KeyMap.get?_modify]
  split
  · next h => rw [← h]; rfl
  · rfl

theorem ordered_subscribe {s : Store κ} (h : KeyMap.Ordered s.listeners) (key : String)
    (listener : κ) : KeyMap.Ordered (s.subscribe key listener).1.listeners := h.insert _ _

theorem listenerCount_eq : s.listenerCount = KeyMap.total List.length s.listeners := rfl

theorem listenerCount_subscribe {s : Store κ} (h : KeyMap.Ordered s.listeners) (key : String)
    (listener : κ) : (s.subscribe key listener).1.listenerCount = s.listenerCount + 1 := by
  have ht := KeyMap.total_insert h List.length key (s.entriesOf key ++ [(s.nextId, listener)])
  have he : ((KeyMap.get? s.listeners key).map List.length).getD 0 = (s.entriesOf key).length := by
    unfold entriesOf
    cases KeyMap.get? s.listeners key <;> rfl
  rw [he, List.length_append, List.length_singleton] at ht
  have hl : (s.subscribe key listener).1.listenerCount = KeyMap.total List.length
      (KeyMap.insert s.listeners key (s.entriesOf key ++ [(s.nextId, listener)])) := rfl
  rw [hl, listenerCount_eq]
  omega

theorem entriesOf_unsubscribe (sub : Subscription) (k : String) :
    (s.unsubscribe sub).1.entriesOf k =
      (s.entriesOf k).filter fun e => (⟨k, e.1⟩ : Subscription) ≠ sub := by
  have hother : sub.key ≠ k → (s.entriesOf k).filter (fun e => (⟨k, e.1⟩ : Subscription) ≠ sub) =
      s.entriesOf k := by
    intro h
    apply List.filter_eq_self.mpr
    intro e _
    apply decide_eq_true
    rintro rfl
    exact h rfl
  have hown : ∀ all : List (Nat × κ),
      all.filter (fun e => (⟨sub.key, e.1⟩ : Subscription) ≠ sub) = all.filter (·.1 != sub.id) := by
    intro all
    apply List.filter_congr
    intro e _
    obtain ⟨key, id⟩ := sub
    by_cases he : e.1 = id <;> simp [he]
  unfold unsubscribe
  cases hg : KeyMap.get? s.listeners sub.key with
  | none =>
    by_cases hk : sub.key = k
    · have he : s.entriesOf k = [] := by rw [entriesOf, ← hk, hg]; rfl
      simp [he]
    · exact (hother hk).symm
  | some all =>
    by_cases hk : sub.key = k
    · subst hk
      have he : s.entriesOf sub.key = all := by rw [entriesOf, hg]; rfl
      rw [he, hown]
      simp only [entriesOf]
      split
      · next h =>
        rw [KeyMap.get?_erase, if_pos rfl]
        exact (List.isEmpty_iff.mp h).symm
      · rw [KeyMap.get?_insert, if_pos rfl]
        rfl
    · rw [hother hk]
      simp only [entriesOf]
      split
      · rw [KeyMap.get?_erase_of_ne _ hk]
      · rw [KeyMap.get?_insert_of_ne _ hk]

theorem ordered_unsubscribe {s : Store κ} (h : KeyMap.Ordered s.listeners) (sub : Subscription) :
    KeyMap.Ordered (s.unsubscribe sub).1.listeners := by
  unfold unsubscribe
  split
  · exact h
  · simp only
    split
    · exact h.erase _
    · exact h.insert _ _

theorem unsubscribe_content (sub : Subscription) :
    (s.unsubscribe sub).1.values = s.values ∧ (s.unsubscribe sub).1.announced = s.announced := by
  unfold unsubscribe
  split <;> exact ⟨rfl, rfl⟩

theorem listenerCount_eq_zero {s : Store κ} (h : KeyMap.Ordered s.listeners)
    (he : ∀ k, s.entriesOf k = []) : s.listenerCount = 0 := by
  apply KeyMap.total_eq_zero h
  intro k all hk
  have hk' := he k
  rw [entriesOf, hk] at hk'
  rw [show all = [] from hk']
  rfl

end Store

namespace Window

variable {store : Store NameSet}

theorem unsubscribeEach_entriesOf (store : Store NameSet) (subs : List Subscription) (k : String) :
    (unsubscribeEach store subs).entriesOf k =
      (store.entriesOf k).filter fun e => (⟨k, e.1⟩ : Subscription) ∉ subs := by
  induction subs generalizing store with
  | nil => exact (List.filter_eq_self.mpr fun e _ => by simp).symm
  | cons sub subs ih =>
    refine (ih (store.unsubscribe sub).1).trans ?_
    rw [Store.entriesOf_unsubscribe, List.filter_filter]
    apply List.filter_congr
    intro e _
    simp [Bool.and_comm]

theorem unsubscribeEach_ordered (h : KeyMap.Ordered store.listeners) (subs : List Subscription) :
    KeyMap.Ordered (unsubscribeEach store subs).listeners := by
  induction subs generalizing store with
  | nil => exact h
  | cons sub subs ih => exact ih (Store.ordered_unsubscribe h sub)

theorem unsubscribeEach_content (store : Store NameSet) (subs : List Subscription) :
    (unsubscribeEach store subs).values = store.values ∧
      (unsubscribeEach store subs).announced = store.announced := by
  induction subs generalizing store with
  | nil => exact ⟨rfl, rfl⟩
  | cons sub subs ih =>
    obtain ⟨hv, ha⟩ := ih (store.unsubscribe sub).1
    obtain ⟨hv', ha'⟩ := store.unsubscribe_content sub
    exact ⟨hv.trans hv', ha.trans ha'⟩

theorem subscribeEach_cons (store : Store NameSet) (key : String) (readers : NameSet)
    (reads : KeyMap NameSet) : subscribeEach store ((key, readers) :: reads) =
      ((subscribeEach (store.subscribe key readers).1 reads).1,
        ⟨key, store.nextId⟩ :: (subscribeEach (store.subscribe key readers).1 reads).2) := rfl

/-- The readers of a key listen, after those who did before. -/
theorem subscribeEach_listenersOf (store : Store NameSet) (reads : KeyMap NameSet) (k : String) :
    (subscribeEach store reads).1.listenersOf k =
      store.listenersOf k ++ (reads.filter fun e => e.1 = k).map Prod.snd := by
  induction reads generalizing store with
  | nil => exact (List.append_nil _).symm
  | cons e reads ih =>
    obtain ⟨key, readers⟩ := e
    rw [subscribeEach_cons, ih, Store.listenersOf_eq, Store.entriesOf_subscribe, List.filter_cons]
    by_cases h : key = k
    · simp [h, Store.listenersOf_eq]
    · simp [h, Store.listenersOf_eq]

theorem mem_entriesOf_subscribeEach {reads : KeyMap NameSet} {k : String} {e : Nat × NameSet}
    (h : e ∈ (subscribeEach store reads).1.entriesOf k) :
    e ∈ store.entriesOf k ∨ ⟨k, e.1⟩ ∈ (subscribeEach store reads).2 := by
  induction reads generalizing store with
  | nil => exact .inl h
  | cons e' reads ih =>
    obtain ⟨key, readers⟩ := e'
    rw [subscribeEach_cons] at h ⊢
    rcases ih h with h | h
    · rw [Store.entriesOf_subscribe] at h
      split at h
      · next hk =>
        rcases List.mem_append.mp h with h | h
        · exact .inl h
        · rw [List.mem_singleton.mp h, hk]
          exact .inr List.mem_cons_self
      · exact .inl h
    · exact .inr (List.mem_cons_of_mem _ h)

theorem subscribeEach_length (store : Store NameSet) (reads : KeyMap NameSet) :
    (subscribeEach store reads).2.length = reads.length := by
  induction reads generalizing store with
  | nil => rfl
  | cons e reads ih => exact congrArg (· + 1) (ih (store.subscribe e.1 e.2).1)

theorem subscribeEach_ordered (h : KeyMap.Ordered store.listeners) (reads : KeyMap NameSet) :
    KeyMap.Ordered (subscribeEach store reads).1.listeners := by
  induction reads generalizing store with
  | nil => exact h
  | cons e reads ih => exact ih (Store.ordered_subscribe h e.1 e.2)

theorem subscribeEach_listenerCount (h : KeyMap.Ordered store.listeners) (reads : KeyMap NameSet) :
    (subscribeEach store reads).1.listenerCount = store.listenerCount + reads.length := by
  induction reads generalizing store with
  | nil => rfl
  | cons e reads ih =>
    refine (ih (Store.ordered_subscribe h e.1 e.2)).trans ?_
    rw [Store.listenerCount_subscribe h, List.length_cons]
    omega

theorem subscribeEach_content (store : Store NameSet) (reads : KeyMap NameSet) :
    (subscribeEach store reads).1.values = store.values ∧
      (subscribeEach store reads).1.announced = store.announced := by
  induction reads generalizing store with
  | nil => exact ⟨rfl, rfl⟩
  | cons e reads ih => exact ih (store.subscribe e.1 e.2).1

theorem follow_content (w : Window) (p : Pass) :
    (w.follow p).store.values = w.store.values ∧
      (w.follow p).store.announced = w.store.announced := by
  obtain ⟨hv, ha⟩ := unsubscribeEach_content w.store w.session.subscriptions
  obtain ⟨hv', ha'⟩ :=
    subscribeEach_content (unsubscribeEach w.store w.session.subscriptions) p.reads
  exact ⟨hv'.trans hv, ha'.trans ha⟩

end Window

end DynamicUi
