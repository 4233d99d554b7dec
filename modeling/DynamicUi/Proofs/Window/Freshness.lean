import Mathlib.Data.List.Induction
import Mathlib.Data.List.Infix
import DynamicUi.Proofs.Window.Dirty
import DynamicUi.Proofs.Window.Writes

/-! # A window without dirty components is up to date

The keys that a pass reads are on record with their readers, and every write to one of them marks
these. A removal marks nobody. So as long as no component is dirty and no removal has taken away
what a pass read, another pass has the same output.
-/

namespace DynamicUi

open Json

namespace Store

variable {κ : Type} {s s' s'' : Store κ} {key : String}

/-- From one store to the other, no value of the key changes without an announcement. -/
def Tells (s s' : Store κ) (key : String) : Prop :=
  ∃ more, s'.announced = s.announced ++ more ∧
    ((∀ ch ∈ more, ch.key ≠ key) → s'.get? key = s.get? key)

theorem Tells.refl (s : Store κ) (key : String) : Tells s s key :=
  ⟨[], (List.append_nil _).symm, fun _ => rfl⟩

theorem Tells.trans (h : Tells s s' key) (h' : Tells s' s'' key) : Tells s s'' key := by
  obtain ⟨more, ha, hv⟩ := h
  obtain ⟨more', ha', hv'⟩ := h'
  refine ⟨more ++ more', by rw [ha', ha, List.append_assoc], fun hq => ?_⟩
  obtain ⟨hq, hq'⟩ := List.forall_mem_append.mp hq
  exact (hv' hq').trans (hv hq)

theorem Tells.of_quiet (h : Tells s s' key)
    (hq : ∀ ch ∈ s'.announced.drop s.announced.length, ch.key ≠ key) :
    s'.get? key = s.get? key := by
  obtain ⟨more, ha, hv⟩ := h
  rw [ha, List.drop_left] at hq
  exact hv hq

theorem tells_set (s : Store κ) (key' : String) (v : Value) (key : String) :
    Tells s (s.set key' v).1 key := by
  refine ⟨[⟨key', v, s.get? key'⟩], rfl, fun hq => ?_⟩
  have hne : key' ≠ key := hq _ (List.mem_singleton_self _)
  exact (KeyMap.get?_insert ..).trans (if_neg hne)

theorem tells_setAll (s : Store κ) (entries : List (String × Value)) (key : String) :
    Tells s (s.setAll entries).1 key := by
  induction entries generalizing s with
  | nil => exact .refl s key
  | cons e es ih => exact (s.tells_set e.1 e.2 key).trans (ih _)

theorem tells_remove (s : Store κ) {key' : String} (h : key' = key → s.get? key = none) :
    Tells s (s.remove key').1 key := by
  refine ⟨[], (List.append_nil _).symm, fun _ => ?_⟩
  have herased : (s.remove key').1.get? key = if key' = key then none else s.get? key :=
    KeyMap.get?_erase ..
  rw [herased]
  split
  · next he => exact (h he).symm
  · rfl

end Store

namespace Window

variable {w w' : Window}

theorem Writes.tells {entries : List (String × Value)} (h : Writes w entries w') (key : String) :
    w.store.Tells w'.store key := by
  obtain ⟨-, hs, -⟩ := h
  rw [hs]
  exact w.store.tells_setAll entries key

theorem tells_render (w : Window) (r : Renderer) (key : String) :
    w.store.Tells (w.render r).1.store key := by
  obtain ⟨hvalues, hannounced⟩ := w.follow_content (w.render r).2.pass
  refine .trans ⟨[], ?_, fun _ => ?_⟩ ((w.writes_render r).tells key)
  · exact hannounced.trans (List.append_nil _).symm
  · exact congrArg (KeyMap.get? · key) hvalues

theorem tells_step (w : Window) {op : Op} {key : String} (hrender : op.renders = false)
    (hremove : op = .remove key → w.store.get? key = none) :
    w.store.Tells (w.step op).store key := by
  cases hw : op.writes with
  | true => exact (w.writes_step hw).tells key
  | false =>
    cases op with
    | render => cases hrender
    | display => exact .refl w.store key
    | remove key' => exact w.store.tells_remove fun he => hremove (he ▸ rfl)
    | interact | scroll | pump | settle | receive | write | elsewhere | takenBy | enter =>
      cases hw

theorem step_spec (w : Window) {op : Op} (hrender : op.renders = false)
    (hdisplay : ∀ spec, op ≠ .display spec) :
    (w.step op).session.spec = w.session.spec :=
  w.step_kept hrender (f := Session.spec) (fun _ _ _ => rfl) fun spec h => absurd h (hdisplay spec)

theorem render_spec (w : Window) (r : Renderer) :
    (w.render r).1.session.spec = w.session.spec :=
  (w.writes_render r).kept (f := Session.spec) fun _ _ _ => rfl

end Window

namespace Renderer

theorem exists_reader {r : Renderer} (hr : r.BuiltIn) {state : String → Option Value} {spec : Spec}
    {key : String} (h : key ∈ KeyMap.keys (r.render state spec).pass.reads) :
    ∃ component, (r.render state spec).pass.Reads key component := by
  let HasReaders (reads : KeyMap NameSet) : Prop :=
    ∀ key readers, KeyMap.get? reads key = some readers → ∃ component, component ∈ readers.names
  have hrecord : ∀ (p : Pass) component key, HasReaders p.reads →
      HasReaders (p.recordRead component key).reads := by
    intro p component key hp key' readers hk
    simp only [Pass.recordRead, KeyMap.get?_modify] at hk
    split at hk
    · cases hk
      exact ⟨component, NameSet.mem_names_add.mpr (.inl rfl)⟩
    · exact hp key' readers hk
  have hread : HasReaders (r.render state spec).pass.reads :=
    eachWith_reads (renderAt_reads hr hrecord state _) spec.roots .empty (by rintro _ _ ⟨⟩)
  obtain ⟨readers, hk⟩ := KeyMap.mem_keys_iff.mp h
  obtain ⟨component, hc⟩ := hread key readers hk
  exact ⟨component, readers, hk, hc⟩

theorem render_congr {r : Renderer} (hr : r.BuiltIn) {s₁ s₂ : String → Option Value} {spec : Spec}
    (h : ∀ key ∈ KeyMap.keys (r.render s₁ spec).pass.reads, s₂ key = s₁ key) :
    r.render s₂ spec = r.render s₁ spec := by
  have hagree : AgreeOn s₁ s₂ (r.renderRoots s₁ spec.roots).2 := fun key _ hk => h key hk.mem_keys
  have hroots : r.renderRoots s₂ spec.roots = r.renderRoots s₁ spec.roots :=
    eachWith_congr (fun _ _ => AgreeOn.mono) (grows_renderAt hr s₁ _) (renderAt_congr hr _)
      spec.roots .empty hagree
  simp only [render, hroots]

end Renderer

namespace Ledger

open Window (Op)

variable {l : Ledger}

theorem run_concat (l : Ledger) (ops : List Op) (op : Op) :
    l.run (ops ++ [op]) = (l.run ops).step op := List.foldl_append

/-- As long as nothing renders, and every removal of a key finds nothing there, no value of the key
changes without an announcement. -/
theorem tells_run {ops : List Op} {key : String} (hrender : ∀ op ∈ ops, op.renders = false)
    (hremove : ∀ pre, pre ++ [.remove key] <+: ops → (l.run pre).window.store.get? key = none) :
    l.window.store.Tells (l.run ops).window.store key := by
  induction ops using List.reverseRecOn with
  | nil => exact .refl _ key
  | append_singleton ops op ih =>
    obtain ⟨hops, hop⟩ := List.forall_mem_append.mp hrender
    have hfirst := ih hops fun pre hpre => hremove pre (hpre.trans (List.prefix_append ..))
    rw [run_concat]
    refine hfirst.trans (Window.tells_step _ (hop op (List.mem_singleton_self op)) ?_)
    rintro rfl
    exact hremove ops (List.prefix_refl _)

theorem run_spec {ops : List Op} (hrender : ∀ op ∈ ops, op.renders = false)
    (hdisplay : ∀ spec, .display spec ∉ ops) :
    (l.run ops).window.session.spec = l.window.session.spec := by
  induction ops generalizing l with
  | nil => rfl
  | cons op ops ih =>
    obtain ⟨hop, hops⟩ := List.forall_mem_cons.mp hrender
    refine (ih hops fun spec hm => hdisplay spec (List.mem_cons_of_mem _ hm)).trans ?_
    exact l.window.step_spec hop fun spec he => hdisplay spec (he ▸ List.mem_cons_self)

/-- However a session is used before a pass of elements and lists: if afterwards it neither renders
nor is given something else to show, and each removal of a key that the pass read finds no value
there, then the session has dirty components or another pass has the same output. -/
theorem clean_window_fresh (x : Exchange Note) (timeout : Option Nat) (app : String) (spec : Spec)
    (before after : List Op) {r : Renderer} (hr : r.BuiltIn)
    (hrender : ∀ op ∈ after, op.renders = false) (hdisplay : ∀ spec, .display spec ∉ after) :
    let l := (Ledger.opening x timeout app spec).run before
    let rendered := l.step (.render r)
    let later := rendered.run after
    (∀ key ∈ KeyMap.keys (l.window.render r).2.pass.reads, ∀ pre, pre ++ [.remove key] <+: after →
      (rendered.run pre).window.store.get? key = none) →
    later.window.session.dirty = [] →
    (later.window.render r).2 = (l.window.render r).2 := by
  intro l rendered later hremove hclean
  have htracks : later.window.Tracks later.reads later.seen :=
    tracks_run (tracks_step (tracks_run (l := .opening x timeout app spec)
      (.opening x timeout app spec) before) (.render r)) after
  have hlatest : later.latest? =
      some ((l.window.render r).2.pass, l.window.store.announced.length) :=
    latest_run fun r' hm => Bool.noConfusion (hrender _ hm)
  have hreads : later.reads = (l.window.render r).2.pass.reads := by rw [reads, hlatest]; rfl
  have hseen : later.seen = l.window.store.announced.length := by rw [seen, hlatest]; rfl
  have hstate : ∀ key ∈ KeyMap.keys (l.window.render r).2.pass.reads,
      later.window.store.get? key = l.window.store.get? key := by
    intro key hkey
    have htells : l.window.store.Tells later.window.store key :=
      (l.window.tells_render r key).trans (tells_run hrender (hremove key hkey))
    apply htells.of_quiet
    rintro ch hch rfl
    -- A change of the key has marked the readers of the key, and there are some.
    obtain ⟨component, readers, hk, hc⟩ := Renderer.exists_reader hr hkey
    have hdirty := (htracks.dirty component).mpr
      ⟨ch, hseen ▸ hch, readers, hreads ▸ KeyMap.mem_of_get? hk, hc⟩
    rw [hclean] at hdirty
    cases hdirty
  have hspec : later.window.session.spec = l.window.session.spec :=
    (run_spec hrender hdisplay).trans (l.window.render_spec r)
  show r.render later.window.store.get? later.window.session.spec =
    r.render l.window.store.get? l.window.session.spec
  rw [hspec]
  exact Renderer.render_congr hr hstate

theorem fresh_texts :
    let r := Renderer.standard .standard
    let spec : Spec :=
      { Spec.untitled with roots := [.leaf (.plain "a" "text"), .leaf (.plain "b" "text")] }
    let l := (Ledger.opening (.ofBackend .empty true) none "app" spec).run [.write "a" (.nat 42)]
    let after : List Op := [.write "other" .null, .remove "b", .pump]
    let later := (l.step (.render r)).run after
    r.BuiltIn ∧ "b" ∈ KeyMap.keys (l.window.render r).2.pass.reads ∧
      later.window.session.dirty = [] ∧ (later.window.render r).2 = (l.window.render r).2 := by
  intro r spec l after later
  have hr : r.BuiltIn := Renderer.standard_builtIn .standard
  have hreads : KeyMap.keys (l.window.render r).2.pass.reads = ["a", "b"] := rfl
  have hclean : later.window.session.dirty = [] := rfl
  refine ⟨hr, hreads ▸ by simp, hclean,
    clean_window_fresh (.ofBackend .empty true) none "app" spec _ after hr ?_ ?_ ?_ hclean⟩
  · simp [after, Op.renders]
  · simp [after]
  · intro key hkey pre hpre
    have hkey : key ∈ ["a", "b"] := hkey
    have hmem : .remove key ∈ after :=
      hpre.subset (List.mem_append_right pre (List.mem_singleton_self _))
    obtain rfl : key = "b" := by simpa [after] using hmem
    have hinits : pre ∈ after.inits :=
      (List.mem_inits ..).mpr ((List.prefix_append ..).trans hpre)
    simp only [after, List.inits, List.map_cons, List.map_nil, List.mem_cons, List.not_mem_nil,
      or_false] at hinits
    rcases hinits with rfl | rfl | rfl | rfl <;> rfl

/-- A text whose value is removed is no longer as it was shown, and no component is dirty. -/
theorem removed_value_stale :
    let r := Renderer.standard .standard
    let spec : Spec := { Spec.untitled with roots := [.leaf (.plain "a" "text")] }
    let l := (Ledger.opening (.ofBackend .empty true) none "app" spec).run [.write "a" (.nat 42)]
    let later := (l.step (.render r)).run [.remove "a"]
    later.window.session.dirty = [] ∧ (later.window.render r).2 ≠ (l.window.render r).2 := by
  refine ⟨rfl, fun h => ?_⟩
  let props (o : Output) : List (List String) := o.roots.map fun r => KeyMap.keys r.face.props
  have hprops : [[]] = [["content"]] := congrArg props h
  simp at hprops

end Ledger

end DynamicUi
