import DynamicUi.Proofs.Render.ReadTracking
import DynamicUi.Proofs.Store.Subscriptions
import DynamicUi.Proofs.Window.Writes

/-! # The dirty components are exact

After a pass is taken over, the listeners of each key are the components that pass recorded under
it, and the dirty set is empty. Every write announces a change and marks those listeners. So the
dirty components are at any moment those that read what has been written since the latest pass:
what an operation announces are its writes, and nothing else.
-/

namespace DynamicUi

open Json Window

/-! ## What is announced -/

def Change.entry (ch : Change) : String × Value := (ch.key, ch.value)

theorem Store.announced_setAll {κ : Type} (s : Store κ) (entries : List (String × Value)) :
    ∃ more, (s.setAll entries).1.announced = s.announced ++ more ∧
      more.map Change.entry = entries := by
  induction entries generalizing s with
  | nil => exact ⟨[], (List.append_nil _).symm, rfl⟩
  | cons e entries ih =>
    obtain ⟨more, hmore, hentries⟩ := ih (s.set e.1 e.2).1
    refine ⟨⟨e.1, e.2, s.get? e.1⟩ :: more, hmore.trans ?_, congrArg (e :: ·) hentries⟩
    rw [List.append_cons]
    rfl

/-- An operation announces what it writes, in order, and nothing else. -/
theorem Window.announced_step (w : Window) (op : Op) :
    ∃ more, (w.step op).store.announced = w.store.announced ++ more ∧
      more.map Change.entry = w.written op := by
  cases hw : op.writes with
  | true =>
    obtain ⟨-, hstore, -⟩ := w.writes_step hw
    rw [hstore]
    exact w.store.announced_setAll _
  | false =>
    cases op with
    | render r =>
      obtain ⟨-, hstore, -⟩ := w.writes_render r
      have hfollowed : (w.mountedOn (w.render r).2.pass).store.announced = w.store.announced :=
        (w.follow_content _).2
      show ∃ more, (w.render r).1.store.announced = _ ∧ _
      rw [hstore, ← hfollowed]
      exact Store.announced_setAll _ _
    | display | remove => exact ⟨[], (List.append_nil _).symm, rfl⟩
    | interact | scroll | pump | settle | receive | write | elsewhere | takenBy | enter => cases hw

/-! ## What is marked -/

theorem mem_dirty_mark {s : Session} {called : List NameSet} {c : String} :
    c ∈ (s.mark called).dirty.names ↔
      c ∈ s.dirty.names ∨ ∃ readers ∈ called, c ∈ readers.names := by
  unfold Session.mark
  simp only
  generalize s.dirty = dirty
  induction called generalizing dirty with
  | nil => simp
  | cons readers called ih =>
    rw [List.foldl_cons, ih, NameSet.mem_names_addAll]
    simp only [List.mem_cons, exists_eq_or_imp, or_left_comm, or_assoc]

def ReadChanged (reads : KeyMap NameSet) (changes : List Change) (component : String) : Prop :=
  ∃ ch ∈ changes, ∃ readers, (ch.key, readers) ∈ reads ∧ component ∈ readers.names

theorem readChanged_nil (reads : KeyMap NameSet) (component : String) :
    ReadChanged reads [] component ↔ component ∈ NameSet.names [] := by
  constructor
  · rintro ⟨ch, h, -⟩
    cases h
  · intro h
    cases h

/-- The invariant: the store is listened to as a pass requires, and what has been announced since
the pass has left its mark. -/
structure Window.Tracks (w : Window) (reads : KeyMap NameSet) (seen : Nat) : Prop where
  ordered : KeyMap.Ordered w.store.listeners
  listeners : ∀ key, w.store.listenersOf key = (reads.filter fun e => e.1 = key).map Prod.snd
  held : ∀ key, ∀ e ∈ w.store.entriesOf key, ⟨key, e.1⟩ ∈ w.session.subscriptions
  subscriptions : w.session.subscriptions.length = reads.length
  listenerCount : w.store.listenerCount = reads.length
  seen_le : seen ≤ w.store.announced.length
  dirty : ∀ c, c ∈ w.session.dirty.names ↔ ReadChanged reads (w.store.announced.drop seen) c

namespace Window.Tracks

variable {w w' : Window} {reads : KeyMap NameSet} {seen : Nat}

theorem opening (x : Exchange Note) (timeout : Option Nat) (app : String) (spec : Spec) :
    Tracks (.opening x timeout app spec) [] 0 where
  ordered := List.Pairwise.nil
  listeners := fun _ => rfl
  held := by
    rintro key e ⟨⟩
  subscriptions := rfl
  listenerCount := rfl
  seen_le := Nat.le_refl 0
  dirty := fun c => (readChanged_nil [] c).symm

theorem of_same (h : Tracks w reads seen) (hs : w'.store = w.store)
    (hsubs : w'.session.subscriptions = w.session.subscriptions)
    (hd : w'.session.dirty = w.session.dirty) : Tracks w' reads seen := by
  obtain ⟨h₁, h₂, h₃, h₄, h₅, h₆, h₇⟩ := h
  constructor <;> simp only [hs, hsubs, hd] <;> assumption

theorem mem_called (h : Tracks w reads seen) (key : String) (readers : NameSet) :
    readers ∈ w.store.listenersOf key ↔ (key, readers) ∈ reads := by
  rw [h.listeners, List.mem_map]
  constructor
  · rintro ⟨⟨k, r⟩, he, rfl⟩
    obtain ⟨he, hk⟩ := List.mem_filter.mp he
    exact of_decide_eq_true hk ▸ he
  · intro he
    exact ⟨(key, readers), List.mem_filter.mpr ⟨he, decide_eq_true rfl⟩, rfl⟩

theorem write (h : Tracks w reads seen) (key : String) (v : Value) :
    Tracks (w.write key v) reads seen where
  ordered := h.ordered
  listeners := h.listeners
  held := h.held
  subscriptions := h.subscriptions
  listenerCount := h.listenerCount
  seen_le := by
    have ha : (w.write key v).store.announced = w.store.announced ++ [⟨key, v, w.store.get? key⟩] :=
      rfl
    rw [ha, List.length_append]
    exact Nat.le_add_right_of_le h.seen_le
  dirty := by
    intro c
    have ha : (w.write key v).store.announced = w.store.announced ++ [⟨key, v, w.store.get? key⟩] :=
      rfl
    have hm : (w.write key v).session.dirty =
        (w.session.mark (w.store.listenersOf key)).dirty := rfl
    rw [hm, mem_dirty_mark, h.dirty, ha, List.drop_append_of_le_length h.seen_le]
    simp only [ReadChanged, h.mem_called]
    constructor
    · rintro (⟨ch, hch, hr⟩ | hr)
      · exact ⟨ch, List.mem_append_left _ hch, hr⟩
      · exact ⟨_, List.mem_append_right _ (List.mem_singleton_self _), hr⟩
    · rintro ⟨ch, hch, hr⟩
      rcases List.mem_append.mp hch with hch | hch
      · exact .inl ⟨ch, hch, hr⟩
      · rw [List.mem_singleton.mp hch] at hr
        exact .inr hr

theorem writeAll (h : Tracks w reads seen) (entries : List (String × Value)) :
    Tracks (w.writeAll entries) reads seen := by
  induction entries generalizing w with
  | nil => exact h
  | cons e es ih => exact ih (h.write e.1 e.2)

/-- Taking over a pass ends all earlier subscriptions and makes one for each key it read. -/
theorem follow (h : Tracks w reads seen) (p : Pass) :
    Tracks (w.follow p) p.reads w.store.announced.length := by
  have hstore : (w.follow p).store =
      (subscribeEach (unsubscribeEach w.store w.session.subscriptions) p.reads).1 := rfl
  have hsubs : (w.follow p).session.subscriptions =
      (subscribeEach (unsubscribeEach w.store w.session.subscriptions) p.reads).2 := rfl
  have hold : ∀ k, (unsubscribeEach w.store w.session.subscriptions).entriesOf k = [] := by
    intro k
    rw [unsubscribeEach_entriesOf]
    apply List.filter_eq_nil_iff.mpr
    intro e he hn
    exact of_decide_eq_true hn (h.held k e he)
  have hord := unsubscribeEach_ordered h.ordered w.session.subscriptions
  have hann : (w.follow p).store.announced = w.store.announced := (w.follow_content p).2
  constructor
  case ordered =>
    rw [hstore]
    exact subscribeEach_ordered hord p.reads
  case listeners =>
    intro key
    rw [hstore, subscribeEach_listenersOf, Store.listenersOf_eq, hold, List.map_nil,
      List.nil_append]
  case held =>
    intro key e he
    rw [hstore] at he
    rw [hsubs]
    rcases mem_entriesOf_subscribeEach he with he | he
    · rw [hold] at he
      cases he
    · exact he
  case subscriptions => rw [hsubs, subscribeEach_length]
  case listenerCount =>
    rw [hstore, subscribeEach_listenerCount hord, Store.listenerCount_eq_zero hord hold,
      Nat.zero_add]
  case seen_le => exact Nat.le_of_eq (congrArg List.length hann).symm
  case dirty =>
    intro c
    rw [hann, List.drop_length]
    exact (readChanged_nil p.reads c).symm

theorem writes (h : Tracks w reads seen) {entries : List (String × Value)}
    (hw : w.Writes entries w') : Tracks w' reads seen := by
  obtain ⟨_, hstore, hsession⟩ := hw
  have hall := h.writeAll entries
  rw [writeAll_eq] at hall
  exact hall.of_same hstore (by rw [hsession]) (by rw [hsession])

end Window.Tracks

namespace Ledger

variable {l : Ledger}

def reads (l : Ledger) : KeyMap NameSet := (l.latest?.map fun e => e.1.reads).getD []

def seen (l : Ledger) : Nat := (l.latest?.map Prod.snd).getD 0

theorem tracks_step (h : l.window.Tracks l.reads l.seen) (op : Op) :
    (l.step op).window.Tracks (l.step op).reads (l.step op).seen := by
  cases hop : op.writes with
  | true =>
    have hwritten : (l.window.step op).Tracks l.reads l.seen :=
      h.writes (l.window.writes_step hop)
    cases op with
    | render | display | remove => cases hop
    | interact | scroll | pump | settle | receive | write | elsewhere | takenBy | enter =>
      exact hwritten
  | false =>
    cases op with
    | render r =>
      have hmounted : (l.window.mountedOn (l.window.render r).2.pass).Tracks
          (l.window.render r).2.pass.reads l.window.store.announced.length :=
        (h.follow _).of_same rfl rfl rfl
      exact hmounted.writes (l.window.writes_render r)
    | display spec => exact h.of_same rfl rfl rfl
    | remove key => exact ⟨h.1, h.2, h.3, h.4, h.5, h.6, h.7⟩
    | interact | scroll | pump | settle | receive | write | elsewhere | takenBy | enter =>
      cases hop

theorem tracks_run (h : l.window.Tracks l.reads l.seen) (ops : List Op) :
    (l.run ops).window.Tracks (l.run ops).reads (l.run ops).seen := by
  induction ops generalizing l with
  | nil => exact h
  | cons op ops ih => exact ih (tracks_step h op)

theorem render_reads_ordered {r : Renderer} (hr : r.BuiltIn) (state : String → Option Value)
    (spec : Spec) : KeyMap.Ordered (r.render state spec).pass.reads :=
  Renderer.eachWith_reads
    (Renderer.renderAt_reads hr (fun _ _ _ h => h.insert _ _) state _)
    spec.roots .empty List.Pairwise.nil

theorem reads_run (h : KeyMap.Ordered l.reads) {ops : List Op}
    (hr : ∀ r, .render r ∈ ops → r.BuiltIn) : KeyMap.Ordered (l.run ops).reads := by
  induction ops generalizing l with
  | nil => exact h
  | cons op ops ih =>
    refine ih ?_ fun r hm => hr r (List.mem_cons_of_mem _ hm)
    cases op with
    | render r => exact render_reads_ordered (hr r List.mem_cons_self) _ _
    | display | interact | scroll | pump | settle | receive | write | remove | elsewhere
      | takenBy | enter => exact h

theorem latest_run {ops : List Op} (h : ∀ r, .render r ∉ ops) :
    (l.run ops).latest? = l.latest? := by
  induction ops generalizing l with
  | nil => rfl
  | cons op ops ih =>
    refine (ih fun r hm => h r (List.mem_cons_of_mem _ hm)).trans ?_
    cases op with
    | render r => exact absurd List.mem_cons_self (h r)
    | display | interact | scroll | pump | settle | receive | write | remove | elsewhere
      | takenBy | enter => rfl

/-- What is written after the latest pass of a run has read the store, by its hooks and from then
on; `before` is what has been written up to here. -/
def writtenSince (l : Ledger) (before : List (String × Value)) : List Op → List (String × Value)
  | [] => before
  | op :: ops =>
    (l.step op).writtenSince ((if op.renders then [] else before) ++ l.window.written op) ops

theorem seen_step (l : Ledger) (op : Op) :
    (l.step op).seen = if op.renders then l.window.store.announced.length else l.seen := by
  cases op <;> rfl

theorem announced_run (h : l.window.Tracks l.reads l.seen) (ops : List Op) :
    ((l.run ops).window.store.announced.drop (l.run ops).seen).map Change.entry =
      l.writtenSince ((l.window.store.announced.drop l.seen).map Change.entry) ops := by
  induction ops generalizing l with
  | nil => rfl
  | cons op ops ih =>
    obtain ⟨more, hmore, hwritten⟩ := l.window.announced_step op
    have hmore : (l.step op).window.store.announced = l.window.store.announced ++ more := hmore
    rw [run_cons, ih (tracks_step h op), writtenSince, seen_step, hmore]
    cases hop : op.renders with
    | true => rw [if_pos rfl, if_pos rfl, List.drop_left, hwritten, List.nil_append]
    | false =>
      rw [if_neg Bool.false_ne_true, if_neg Bool.false_ne_true,
        List.drop_append_of_le_length h.seen_le, List.map_append, hwritten]

/-- However a session is used: its dirty components are those the latest pass recorded under some
key that has been written since that pass read the store, none before the first pass, and its
subscriptions are one for each key of that pass, with the recorded readers as listeners. What has
been announced since that pass is what the operations since have written. -/
theorem run_dirty_exact (x : Exchange Note) (timeout : Option Nat) (app : String) (spec : Spec)
    (ops : List Op) :
    let l := (Ledger.opening x timeout app spec).run ops
    (∀ component, component ∈ l.window.session.dirty.names ↔
      ∃ ch ∈ l.window.store.announced.drop l.seen, ∃ readers,
        (ch.key, readers) ∈ l.reads ∧ component ∈ readers.names) ∧
    (l.window.store.announced.drop l.seen).map Change.entry =
      (Ledger.opening x timeout app spec).writtenSince [] ops ∧
    ((∀ r, .render r ∉ ops) → l.window.session.dirty.names = []) ∧
    l.window.session.subscriptions.length = (KeyMap.keys l.reads).length ∧
    l.window.store.listenerCount = (KeyMap.keys l.reads).length ∧
    ((∀ r, .render r ∈ ops → r.BuiltIn) → (KeyMap.keys l.reads).Nodup) ∧
    ∀ key, l.window.store.listenersOf key = (l.reads.filter fun e => e.1 = key).map Prod.snd := by
  intro l
  have hopening : (Ledger.opening x timeout app spec).window.Tracks [] 0 :=
    .opening x timeout app spec
  have h : l.window.Tracks l.reads l.seen := tracks_run hopening ops
  have hlen : (KeyMap.keys l.reads).length = l.reads.length := List.length_map _
  refine ⟨h.dirty, announced_run hopening ops, ?_, h.subscriptions.trans hlen.symm,
    h.listenerCount.trans hlen.symm, ?_, h.listeners⟩
  · intro hr
    have hreads : l.reads = [] := by
      rw [reads, latest_run hr]
      rfl
    apply List.eq_nil_iff_forall_not_mem.mpr
    intro c hc
    obtain ⟨ch, -, readers, hm, -⟩ := (h.dirty c).mp hc
    rw [hreads] at hm
    cases hm
  · intro hr
    have hord : KeyMap.Ordered l.reads :=
      reads_run (l := .opening x timeout app spec) List.Pairwise.nil hr
    exact List.pairwise_map.mpr (hord.imp fun h => ne_of_precedes h)

/-- Of three texts one is marked by the hook of the pass and one by a write, while the third was
only written before. -/
theorem texts_marked_by_writes :
    let r := Renderer.standard .standard
    let toggle : Invocation := ⟨"ui.toggle", [("key", .string "a")], none⟩
    let spec : Spec :=
      { Spec.untitled.addHook "on_mount" toggle with
        roots := [.leaf (.plain "a" "text"), .leaf (.plain "b" "text"), .leaf (.plain "c" "text")] }
    let l := (Ledger.opening (.ofBackend .empty true) none "app" spec).run
      [.write "c" (.nat 1), .render r, .write "b" (.nat 2), .write "other" .null]
    (l.window.store.announced.drop l.seen).map Change.entry =
        [("a", .bool true), ("b", .nat 2), ("other", .null)] ∧
      "a" ∈ l.window.session.dirty.names ∧ "b" ∈ l.window.session.dirty.names ∧
      "c" ∉ l.window.session.dirty.names := by
  have hexact := run_dirty_exact (.ofBackend .empty true) none "app"
  refine ⟨(hexact _ _).2.1, ((hexact _ _).1 "a").mpr ?_, ((hexact _ _).1 "b").mpr ?_, by decide⟩
  · exact ⟨_, List.mem_cons_self, _, List.mem_cons_self, List.mem_cons_self⟩
  · exact ⟨_, List.mem_cons_of_mem _ List.mem_cons_self, _,
      List.mem_cons_of_mem _ List.mem_cons_self, List.mem_cons_self⟩

end Ledger

end DynamicUi
