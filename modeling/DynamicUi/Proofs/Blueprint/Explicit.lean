import DynamicUi.Proofs.Blueprint.Source
import DynamicUi.Proofs.Spec.Naming

/-! # The explicit form

Expansion gives every component a kind that is no shortcut, an id and props, and keeps of its
children those that can be expanded. Of a value of this form there is nothing left to expand, and
the decoder of nodes finds no fault with it.
-/

namespace DynamicUi

open Json

namespace Component

theorem withEvents_kind (c : Component) (v : Option Value) : (c.withEvents v).kind = c.kind := by
  unfold withEvents
  split <;> rfl

theorem withEvents_props (c : Component) (v : Option Value) : (c.withEvents v).props = c.props := by
  unfold withEvents
  split <;> rfl

end Component

namespace Expansion

/-! ## Kinds -/

theorem resolve_of_abridged {kind : String} (h : ¬Unabridged kind) (props : Fields) :
    resolve kind props = ("container",
      addDefault (if kind ∈ roles then KeyMap.insert props "role" (.string kind) else props)
        "layout" (.string (if kind = "row" then "horizontal" else "vertical"))) := by
  have hlayout :
      impliedLayout? kind = some (if kind = "row" then "horizontal" else "vertical") := by
    unfold impliedLayout?
    split
    · rfl
    · next hrow =>
      rw [if_pos]
      by_contra hother
      simp only [Bool.or_eq_true, decide_eq_true_eq, List.contains_iff_mem, not_or] at hother
      exact h ⟨hrow, hother⟩
  simp [resolve, hlayout]

theorem resolve_unabridged (kind : String) (props : Fields) :
    Unabridged (resolve kind props).1 := by
  by_cases h : Unabridged kind
  · rw [resolve_eq_self h]
    exact h
  · rw [resolve_of_abridged h]
    exact (by decide : Unabridged "container")

/-! ## Rewriting -/

theorem withChildren_rewritten (fields : Fields) (kind : String) (props : Fields)
    (children : List Value) : withChildren (rewritten fields kind props children) children =
      rewritten fields kind props children := by
  have hp : precedes "children" "props" = true := by decide
  have ht : precedes "children" "type" = true := by decide
  have herase : KeyMap.erase (withChildren fields children) "children" =
      KeyMap.erase fields "children" := by
    unfold withChildren
    split
    · exact KeyMap.erase_erase _ _
    · rw [KeyMap.erase_insert_self, KeyMap.erase_erase]
  -- the children are taken out from before the type and the props, and put back there
  have hrest : KeyMap.erase (rewritten fields kind props children) "children" =
      KeyMap.insert (KeyMap.insert (KeyMap.erase fields "children") "type" (.string kind)) "props"
        (.object props) := by
    rw [rewritten, KeyMap.erase_insert_of_precedes hp, KeyMap.erase_insert_of_precedes ht, herase]
  cases children with
  | nil => exact hrest
  | cons v vs =>
    show KeyMap.insert (KeyMap.erase (rewritten fields kind props (v :: vs)) "children") "children"
      _ = _
    rw [hrest, KeyMap.insert_comm_of_precedes hp, KeyMap.insert_comm_of_precedes ht]
    rfl

/-- To rewrite an entry once more in the same way changes nothing, not even the order of its
members. -/
theorem rewritten_rewritten (fields : Fields) (kind : String) (props : Fields)
    (children : List Value) :
    rewritten (rewritten fields kind props children) kind props children =
      rewritten fields kind props children := by
  have hpt : "type" ≠ "props" := by decide
  rw [rewritten, withChildren_rewritten, rewritten, KeyMap.insert_comm hpt,
    KeyMap.insert_insert, KeyMap.insert_insert]

inductive Explicit : Value → Prop
  | entry {fields : Fields} {kind id : String} {props : Fields} {vs : List Value}
      (unabridged : Unabridged kind) (given : KeyMap.get? fields "id" = some (.string id))
      (named : id ≠ "") (below : ∀ v ∈ vs, Explicit v) :
      Explicit (.object (rewritten fields kind props vs))

theorem mem_expandAll {vs : List Value} {n : Nat} {w : Value} (h : w ∈ (expandAll vs n).1) :
    ∃ v ∈ vs, ∃ m, (expand v m).1 = some w := by
  induction vs generalizing n with
  | nil => cases h
  | cons v vs ih =>
    simp only [expandAll, List.mem_append, Option.mem_toList] at h
    rcases h with h | h
    · exact ⟨v, List.mem_cons_self, n, h⟩
    · obtain ⟨v', hv', hm⟩ := ih h
      exact ⟨v', List.mem_cons_of_mem _ hv', hm⟩

theorem explicit_of_expand (v : Value) {n : Nat} {w : Value} (h : (expand v n).1 = some w) :
    Explicit w := by
  induction v using source_induction generalizing n w with
  | step v ih =>
    rw [expand_eq] at h
    cases hs : Source.of? v with
    | none =>
      rw [hs] at h
      cases h
    | some s =>
      rw [hs] at h
      cases h
      refine .entry (resolve_unabridged ..) (s.heads n).id ?_ ?_
      · exact s.headId_ne_empty n
      · intro w hw
        obtain ⟨v', hv', m, hm⟩ := mem_expandAll hw
        exact ih s hs v' hv' hm

theorem expandAll_eq_self {vs : List Value} (h : ∀ v ∈ vs, ∀ k, expand v k = (some v, k))
    (k : Nat) : expandAll vs k = (vs, k) := by
  induction vs with
  | nil => rfl
  | cons v vs ih =>
    obtain ⟨hv, hvs⟩ := List.forall_mem_cons.mp h
    simp only [expandAll, hv, ih hvs, Option.toList_some, List.singleton_append]

theorem Explicit.expand_eq_self {w : Value} (h : Explicit w) (k : Nat) :
    expand w k = (some w, k) := by
  induction h generalizing k with
  | @entry fields kind id props vs unabridged given named _ ih =>
    let s := Source.explicit (rewritten fields kind props vs)
    have hof : Source.of? (.object (rewritten fields kind props vs)) = some s := by
      simp [Source.of?, KeyMap.contains, rewritten_type, s]
    have hid : s.id? = some id := by
      simp only [s, Source.id?, Option.filter_eq_some_iff, string?_eq_some_iff]
      exact ⟨(get?_rewritten _ _ _ _ (by decide) (by decide) (by decide)).trans given, by simpa⟩
    have hkind : s.kind = kind := kindOf_eq (rewritten_type ..)
    have hprops : s.props = props := by
      simp [s, Source.props, Fields.object?, rewritten_props, Value.asObject?]
    have hhead : s.head k = (rewritten fields kind props vs, k) := by
      rw [Source.head_explicit, if_pos (by rw [hid]; rfl)]
    have hparts : s.parts = vs := (hasChildren_rewritten ..).childrenOf_eq
    have hform : s.expanded k vs = rewritten fields kind props vs := by
      rw [Source.expanded, hkind, hprops, resolve_eq_self unabridged, hhead]
      exact rewritten_rewritten ..
    rw [expand_eq, hof, Option.elim_some, hparts, hhead, expandAll_eq_self ih, hform]

/-! ## Decoding -/

/-- What the decoder makes of the id of an entry, and its counter after it: a blank id counts for
none. -/
def settledId (kind id : String) (k : Nat) : String × Nat :=
  if Text.allBlank id then
    (freshId (if Text.trim kind = "" then "node" else Text.trim kind) k, k + 1)
  else (Text.trim id, k)

theorem decode_rewritten {fields : Fields} {id : String}
    (given : KeyMap.get? fields "id" = some (.string id)) (kind : String) (props : Fields)
    (vs : List Value) (k : Nat) :
    ∃ c : Component, c.id = (settledId kind id k).1 ∧ c.kind = Text.trim kind ∧ c.props = props ∧
      c.defect = none ∧ Node.decode (.object (rewritten fields kind props vs)) k =
        (.mk c (Node.decodeAll vs (settledId kind id k).2).1,
          (Node.decodeAll vs (settledId kind id k).2).2) := by
  have hid : KeyMap.get? (rewritten fields kind props vs) "id" = some (.string id) :=
    (get?_rewritten _ _ _ _ (by decide) (by decide) (by decide)).trans given
  have hassign : Component.assignId (rewritten fields kind props vs)
      (if Text.trim kind = "" then "node" else Text.trim kind) k = settledId kind id k := by
    simp only [Component.assignId, Component.givenId?, hid, settledId]
    cases Text.allBlank id <;> rfl
  let bare : Component := { Component.plain (settledId kind id k).1 (Text.trim kind) with props }
  let events := Fields.firstOf? (rewritten fields kind props vs) ["on_event", "onEvent"]
  have hdecode : Component.decode (rewritten fields kind props vs) k =
      (bare.withEvents events, (settledId kind id k).2) := by
    simp only [Component.decode, rewritten_type, Component.decodeBody, rewritten_props, hassign]
    rfl
  have hdefect : (bare.withEvents events).defect = none := Component.withEvents_defect _ _
  have hsound : (Component.decode (rewritten fields kind props vs) k).1.defect = none := by
    rw [hdecode, hdefect]
  refine ⟨bare.withEvents events, Component.withEvents_id _ _, Component.withEvents_kind _ _,
    Component.withEvents_props _ _, hdefect, ?_⟩
  rw [(hasChildren_rewritten ..).decode_eq hsound, hdecode]

theorem decodeAll_every {P : Component → Prop} {vs : List Value}
    (h : ∀ v ∈ vs, ∀ k, (Node.decode v k).1.Every P) (k : Nat) :
    Node.EveryIn P (Node.decodeAll vs k).1 := by
  induction vs generalizing k with
  | nil => trivial
  | cons v vs ih =>
    obtain ⟨hv, hvs⟩ := List.forall_mem_cons.mp h
    exact ⟨hv k, ih hvs _⟩

theorem Explicit.decode_sound {w : Value} (h : Explicit w) (k : Nat) :
    (Node.decode w k).1.Every fun c => c.defect = none := by
  induction h generalizing k with
  | @entry fields kind id props vs _ given _ _ ih =>
    obtain ⟨c, -, -, -, hsound, hdecode⟩ := decode_rewritten given kind props vs k
    rw [hdecode]
    exact ⟨hsound, decodeAll_every ih _⟩

/-- What expansion gives is left alone by expanding it again, and no number is used up, whatever the
counter is. It decodes without a defect at any depth. -/
theorem expand_settles {v w : Value} {n m : Nat} (h : expand v n = (some w, m)) :
    (∀ k, expand w k = (some w, k)) ∧
      ∀ k, (Node.decode w k).1.Every fun c => c.defect = none := by
  have hw : Explicit w := explicit_of_expand v (n := n) (by rw [h])
  exact ⟨hw.expand_eq_self, hw.decode_sound⟩

theorem settles_row :
    let v := Value.record [("row#top", .record [("children", .array [.bool true, .string "a",
      .record [("type", .nat 1), ("id", .nat 7), ("props", .string "x"), ("children", .nat 2)]]),
      ("@click", .string "go")])]
    ∃ w, expand v 5 = (some w, 7) ∧ expand w 0 = (some w, 0) ∧
      (Node.decode w 0).1.Every fun c => c.defect = none := by
  intro v
  obtain ⟨hagain, hsound⟩ := expand_settles (v := v) (n := 5) rfl
  exact ⟨_, rfl, hagain 0, hsound 0⟩

end Expansion

end DynamicUi
