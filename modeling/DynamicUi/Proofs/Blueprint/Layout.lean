import DynamicUi.Proofs.Blueprint.Nodes

/-! # Layout shortcuts

A component whose kind is a layout shortcut becomes a container that is laid out accordingly, in
whichever form it is written. The kind is compared as it stands. One with blanks at its ends is no
shortcut to expansion, but it loses them when it is decoded, so that these are the shortcuts that
are left in a window.
-/

namespace DynamicUi

open Json

namespace Expansion

theorem get?_addDefault (fields : Fields) (name : String) (v : Value) (name' : String) :
    KeyMap.get? (addDefault fields name v) name' =
      if name = name' then some ((KeyMap.get? fields name).getD v)
      else KeyMap.get? fields name' := by
  unfold addDefault KeyMap.contains
  cases h : KeyMap.get? fields name with
  | none => exact KeyMap.get?_insert ..
  | some w =>
    simp only [Option.isSome_some, if_true]
    split
    · next he => rw [← he, h]; rfl
    · rfl

/-- What becomes of the kind and the props of a source. A shortcut becomes a container with the
layout that is given, or else the one that it stands for, and with its role if it has one; its other
props are kept. Any other kind is kept but for the blanks at its ends, and so are its props. -/
def Resolved (s : Source) (c : Component) : Prop :=
  if Unabridged s.kind then c.kind = Text.trim s.kind ∧ c.props = s.props
  else
    c.kind = "container" ∧
    c.prop? "layout" = some ((KeyMap.get? s.props "layout").getD
      (.string (if s.kind = "row" then "horizontal" else "vertical"))) ∧
    (s.kind ∈ roles → c.prop? "role" = some (.string s.kind)) ∧
    ∀ name, name ≠ "layout" → (s.kind ∈ roles → name ≠ "role") →
      c.prop? name = KeyMap.get? s.props name

variable {s : Source} {ss : List Source} {c : Component} {cs : List Component} {n k n' k' : Nat}

theorem Becomes.resolved (h : Becomes s n k c n' k') : Resolved s c := by
  have hkind := h.kind
  have hprops := h.props
  unfold Source.shown at hkind hprops
  unfold Resolved Component.prop?
  split
  · next hplain =>
    rw [resolve_eq_self hplain] at hkind hprops
    exact ⟨hkind, hprops⟩
  · next hshort =>
    rw [resolve_of_abridged hshort] at hkind hprops
    simp only at hkind hprops
    refine ⟨hkind.trans Component.trimmed_container.trim_eq, ?_, ?_, ?_⟩
    · have hlayout : KeyMap.get? (if s.kind ∈ roles then
          KeyMap.insert s.props "role" (.string s.kind) else s.props) "layout" =
          KeyMap.get? s.props "layout" := by
        split
        · exact KeyMap.get?_insert_of_ne _ (by decide) _
        · rfl
      rw [hprops, get?_addDefault, if_pos rfl, hlayout]
    · intro hrole
      rw [hprops, get?_addDefault, if_neg (by decide), if_pos hrole, KeyMap.get?_insert, if_pos rfl]
    · intro name hlayout hrole
      rw [hprops, get?_addDefault, if_neg hlayout.symm]
      split
      · next hin => exact KeyMap.get?_insert_of_ne _ (hrole hin).symm _
      · rfl

theorem Resolved.abridged_iff (h : Resolved s c) :
    ¬Unabridged c.kind ↔ Unabridged s.kind ∧ ¬Unabridged (Text.trim s.kind) := by
  unfold Resolved at h
  split at h
  · next hplain => rw [h.1, and_iff_right hplain]
  · next hshort =>
    rw [h.1]
    exact iff_of_false (not_not_intro (by decide)) fun h => hshort h.1

theorem exists_abridged_iff (h : List.Forall₂ Resolved ss cs) :
    (∃ c ∈ cs, ¬Unabridged c.kind) ↔
      ∃ s ∈ ss, Unabridged s.kind ∧ ¬Unabridged (Text.trim s.kind) := by
  induction h with
  | nil => simp
  | cons first _ ih =>
    rw [List.exists_mem_cons_iff, List.exists_mem_cons_iff, first.abridged_iff, ih]

end Expansion

namespace AppPackage

open Expansion (Resolved Unabridged)

/-- The components of a window are those that its document writes, one for one, each of them
resolved. A shortcut is left exactly if some kind is none only for the blanks at its ends. -/
theorem shortcuts_resolved {text : String} {p : AppPackage} (h : parse text = .ok p) :
    ∃ doc, Json.parse text = some (.object doc) ∧
      List.Forall₂ Resolved (sources doc) p.window.components ∧
      ((∃ c ∈ p.window.components, ¬Unabridged c.kind) ↔
        ∃ s ∈ sources doc, Unabridged s.kind ∧ ¬Unabridged (Text.trim s.kind)) := by
  obtain ⟨doc, n, k, htext, hyields⟩ := parse_yields h
  have hresolved : List.Forall₂ Resolved (sources doc) p.window.components :=
    hyields.forall₂ Expansion.Becomes.resolved
  exact ⟨doc, htext, hresolved, Expansion.exists_abridged_iff hresolved⟩

theorem shortcuts_of_three_components :
    let header := Value.object [("props", .object [("layout", .string "grid")]),
      ("type", .string "header")]
    let components := [Value.object [("row#a", .object [("children", .array [header])])],
      .object [("type", .string " col")]]
    let text := (Value.object (documentOf components)).compact
    ∃ p, parse text = .ok p ∧ ∃ doc, Json.parse text = some (.object doc) ∧
      List.Forall₂ Resolved (sources doc) p.window.components ∧
      ∃ c ∈ p.window.components, ¬Unabridged c.kind := by
  intro header components text
  have htext : Json.parse text = some (.object (documentOf components)) := by decide +kernel
  obtain ⟨p, hp, -⟩ := exists_parse_documentOf htext
  obtain ⟨doc, hdoc, hresolved, hiff⟩ := shortcuts_resolved hp
  refine ⟨p, hp, doc, hdoc, hresolved, hiff.mpr ?_⟩
  cases htext.symm.trans hdoc
  exact ⟨.explicit [("type", .string " col")], List.mem_of_getElem? (i := 2) rfl, by decide⟩

/-- Blanks at its ends keep a row from becoming a container, but they do not stay. -/
theorem padded_row_left :
    let row := Value.object [("id", .string "r"), ("type", .string " row ")]
    let text := (Value.object (documentOf [row])).compact
    ∃ p, parse text = .ok p ∧
      p.window.components.map (fun c => (c.kind, c.prop? "layout")) = [("row", none)] := by
  intro row text
  have htext : Json.parse text = some (.object (documentOf [row])) := by decide +kernel
  obtain ⟨p, hp, hwindow⟩ := exists_parse_documentOf htext
  exact ⟨p, hp, by rw [hwindow]; rfl⟩

end AppPackage

end DynamicUi
