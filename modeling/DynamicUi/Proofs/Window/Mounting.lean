import Mathlib.Data.Finset.SDiff
import Mathlib.Data.List.Induction
import DynamicUi.Proofs.Window.Writes

/-! # Mount changes

Each pass reports, for every list it mounts, how the items differ from those the pass before had
mounted. A reader who takes the reports in keeps the items of each list. Nothing is reported for a
list that is gone, so the reader is right after every pass if and only if no pass leaves out a list
that had items mounted.
-/

namespace DynamicUi

abbrev Items := String → Finset String

namespace MountChange

def apply (c : MountChange) (items : Finset String) : Finset String :=
  (items \ c.unmounted.toFinset) ∪ c.mounted.toFinset

variable (before after : List String) (item : String)

@[simp] theorem mem_mounted :
    item ∈ (ofItems before after).mounted ↔ item ∉ before ∧ item ∈ after := by
  simp [ofItems, and_comm]

@[simp] theorem mem_unmounted :
    item ∈ (ofItems before after).unmounted ↔ item ∈ before ∧ item ∉ after := by
  simp [ofItems]

@[simp] theorem mem_retained :
    item ∈ (ofItems before after).retained ↔ item ∈ before ∧ item ∈ after := by
  simp [ofItems, and_comm]

theorem apply_ofItems : (ofItems before after).apply before.toFinset = after.toFinset := by
  ext item
  simp only [apply, Finset.mem_union, Finset.mem_sdiff, List.mem_toFinset, mem_unmounted,
    mem_mounted]
  tauto

end MountChange

namespace Items

def none : Items := fun _ => ∅

def ofLists (lists : KeyMap MountedSlice) : Items := fun id =>
  (((KeyMap.get? lists id).map MountedSlice.itemIds).getD []).toFinset

theorem ofLists_of_absent {lists : KeyMap MountedSlice} {id : String}
    (h : ¬KeyMap.contains lists id = true) : ofLists lists id = ∅ := by
  have hnone : KeyMap.get? lists id = Option.none := Option.not_isSome_iff_eq_none.mp h
  simp only [ofLists, hnone, Option.map_none, Option.getD_none, List.toFinset_nil]

/-- Takes in what a pass reports; a list without a report stays as it was. -/
def take (items : Items) (changes : KeyMap MountChange) : Items := fun id =>
  match KeyMap.get? changes id with
  | some c => c.apply (items id)
  | Option.none => items id

end Items

namespace Session

theorem get?_changesOf (before after : KeyMap MountedSlice) (id : String) :
    KeyMap.get? (changesOf before after) id = (KeyMap.get? after id).map fun l =>
      .ofItems (((KeyMap.get? before id).map MountedSlice.itemIds).getD []) l.itemIds := by
  simp only [changesOf]
  induction after with
  | nil => rfl
  | cons e after ih =>
    obtain ⟨id', l⟩ := e
    simp only [List.map_cons, KeyMap.get?]
    split
    · next h => rw [h]; rfl
    · exact ih

end Session

open Window (Op)

/-- A session with a reader of its mount changes. -/
structure Mirror where
  window : Window
  mounted : Items
  /-- What the reader takes to be mounted. -/
  held : Items

namespace Mirror

def opening (x : Exchange Note) (timeout : Option Nat) (app : String) (spec : Spec) : Mirror :=
  ⟨.opening x timeout app spec, .none, .none⟩

def step (m : Mirror) : Op → Mirror
  | .render r =>
    let (window, output) := m.window.render r
    ⟨window, .ofLists output.pass.lists, m.held.take window.session.mountChanges⟩
  | op => { m with window := m.window.step op }

def run (m : Mirror) (ops : List Op) : Mirror := ops.foldl step m

theorem run_concat (m : Mirror) (ops : List Op) (op : Op) :
    m.run (ops ++ [op]) = (m.run ops).step op := List.foldl_append

theorem step_of_not_renders (m : Mirror) {op : Op} (h : op.renders = false) :
    m.step op = { m with window := m.window.step op } := by
  cases op <;> first | rfl | cases h

def Remembers (m : Mirror) : Prop := .ofLists m.window.session.lists = m.mounted

variable {m : Mirror}

theorem Remembers.step (h : m.Remembers) (op : Op) : (m.step op).Remembers := by
  cases hr : op.renders with
  | true =>
    cases op with
    | render r => exact congrArg Items.ofLists (m.window.render_lists r)
    | display | interact | scroll | pump | settle | receive | write | remove | elsewhere
      | takenBy | enter => cases hr
  | false =>
    rw [m.step_of_not_renders hr]
    exact (congrArg Items.ofLists (m.window.step_lists hr)).trans h

theorem Remembers.run (h : m.Remembers) (ops : List Op) : (m.run ops).Remembers := by
  induction ops using List.reverseRecOn with
  | nil => exact h
  | append_singleton ops op ih => exact m.run_concat ops op ▸ ih.step op

theorem opening_remembers (x : Exchange Note) (timeout : Option Nat) (app : String) (spec : Spec) :
    (opening x timeout app spec).Remembers := rfl

def Right (m : Mirror) : Prop := m.held = m.mounted

/-- The next pass reports on every list that has items mounted. -/
def Renews (m : Mirror) (r : Renderer) : Prop :=
  ∀ id, m.mounted id ≠ ∅ → KeyMap.contains (m.window.render r).2.pass.lists id = true

theorem Remembers.report (h : m.Remembers) (r : Renderer) (id : String) :
    match KeyMap.get? (m.window.render r).2.pass.lists id with
    | none => KeyMap.get? (m.window.render r).1.session.mountChanges id = none
    | some l => ∃ c, KeyMap.get? (m.window.render r).1.session.mountChanges id = some c ∧
        ∀ item,
          (item ∈ c.mounted ↔ item ∉ m.mounted id ∧ item ∈ l.itemIds) ∧
          (item ∈ c.unmounted ↔ item ∈ m.mounted id ∧ item ∉ l.itemIds) ∧
          (item ∈ c.retained ↔ item ∈ m.mounted id ∧ item ∈ l.itemIds) := by
  have hbefore : ∀ item, item ∈ m.mounted id ↔
      item ∈ ((KeyMap.get? m.window.session.lists id).map MountedSlice.itemIds).getD [] := by
    intro item
    rw [← h, Items.ofLists, List.mem_toFinset]
  rw [Window.render_mountChanges, Session.get?_changesOf]
  cases KeyMap.get? (m.window.render r).2.pass.lists id with
  | none => rfl
  | some l =>
    refine ⟨_, rfl, fun item => ?_⟩
    rw [hbefore]
    exact ⟨MountChange.mem_mounted .., MountChange.mem_unmounted .., MountChange.mem_retained ..⟩

theorem Right.held_render (hr : m.Right) (h : m.Remembers) (r : Renderer) (id : String) :
    (m.step (.render r)).held id =
      if KeyMap.contains (m.window.render r).2.pass.lists id then
        (m.step (.render r)).mounted id
      else m.mounted id := by
  have hheld : m.held id =
      (((KeyMap.get? m.window.session.lists id).map MountedSlice.itemIds).getD []).toFinset := by
    rw [hr, ← h]
    rfl
  simp only [step, Items.take, Window.render_mountChanges, Session.get?_changesOf, Items.ofLists,
    KeyMap.contains]
  cases KeyMap.get? (m.window.render r).2.pass.lists id with
  | none => exact congrFun hr id
  | some l =>
    simp only [Option.map_some, Option.getD_some, Option.isSome_some, if_true, hheld]
    exact MountChange.apply_ofItems ..

/-- After a pass the reader stays right exactly if the pass reports on all that was mounted. -/
theorem Right.render_iff (hr : m.Right) (h : m.Remembers) (r : Renderer) :
    (m.step (.render r)).Right ↔ m.Renews r := by
  constructor
  · intro hright id hid
    by_contra hc
    have hheld := hr.held_render h r id
    have hempty : (m.step (.render r)).mounted id = ∅ := Items.ofLists_of_absent hc
    rw [if_neg hc, hright, hempty] at hheld
    exact hid hheld.symm
  · intro hrenews
    funext id
    rw [hr.held_render h r id]
    split
    · rfl
    · next hc =>
      have hempty : (m.step (.render r)).mounted id = ∅ := Items.ofLists_of_absent hc
      rw [hempty]
      by_contra hid
      exact hc (hrenews id hid)

/-- However a session is used: a reader of its mount changes knows after every pass which items are
mounted, exactly if no pass has left a list out that had items mounted. Of a list that it mounts a
pass tells which items are new there, gone and retained, so that an item of both passes is retained
and nothing else; of any other list it tells nothing. -/
theorem mount_changes_account (x : Exchange Note) (timeout : Option Nat) (app : String)
    (spec : Spec) (ops : List Op) :
    let m := opening x timeout app spec
    ((∀ pre, pre <+: ops → (m.run pre).held = (m.run pre).mounted) ↔
      ∀ pre r, pre ++ [.render r] <+: ops → ∀ id, (m.run pre).mounted id ≠ ∅ →
        KeyMap.contains ((m.run pre).window.render r).2.pass.lists id = true) ∧
    ∀ r id,
      let next := (m.run ops).window.render r
      match KeyMap.get? next.2.pass.lists id with
      | none => KeyMap.get? next.1.session.mountChanges id = none
      | some l => ∃ c, KeyMap.get? next.1.session.mountChanges id = some c ∧
          ∀ item,
            (item ∈ c.mounted ↔ item ∉ (m.run ops).mounted id ∧ item ∈ l.itemIds) ∧
            (item ∈ c.unmounted ↔ item ∈ (m.run ops).mounted id ∧ item ∉ l.itemIds) ∧
            (item ∈ c.retained ↔ item ∈ (m.run ops).mounted id ∧ item ∈ l.itemIds) := by
  intro m
  have hm : ∀ ops, (m.run ops).Remembers := (opening_remembers x timeout app spec).run
  refine ⟨?_, (hm ops).report⟩
  constructor
  · intro hright pre r hpre
    have hbefore : (m.run pre).Right := hright pre ((List.prefix_append ..).trans hpre)
    have hafter : ((m.run pre).step (.render r)).Right := m.run_concat pre _ ▸ hright _ hpre
    exact (hbefore.render_iff (hm pre) r).mp hafter
  · intro hrenews pre
    induction pre using List.reverseRecOn with
    | nil => exact fun _ => rfl
    | append_singleton pre op ih =>
      intro hpre
      have hbefore : (m.run pre).Right := ih ((List.prefix_append ..).trans hpre)
      rw [run_concat]
      cases hop : op.renders with
      | false =>
        rw [step_of_not_renders _ hop]
        exact hbefore
      | true =>
        obtain ⟨r, rfl⟩ : ∃ r, op = .render r := by
          cases op <;> first | exact ⟨_, rfl⟩ | cases hop
        exact (hbefore.render_iff (hm pre) r).mpr (hrenews pre r hpre)

/-- When a list leaves the screen its row is unmounted, and the pass reports nothing. -/
theorem row_of_removed_list_unreported :
    let config : Config :=
      { Config.standard with virtualization := { Virtualization.standard with threshold := 1 } }
    let r := Renderer.standard config
    let feed : Node := .mk (.plain "feed" "list") [.leaf (.plain "row" "text")]
    let m := (opening (.ofBackend .empty true) none "a" { Spec.untitled with roots := [feed] }).run
      [.render r, .display .untitled]
    m.mounted "feed" = {"row"} ∧ (m.step (.render r)).mounted "feed" = ∅ ∧
      (m.step (.render r)).window.session.mountChanges = [] ∧
      (m.step (.render r)).held "feed" = {"row"} := by
  decide +kernel

end Mirror

end DynamicUi
