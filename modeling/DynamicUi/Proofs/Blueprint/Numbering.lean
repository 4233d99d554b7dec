import DynamicUi.Proofs.Blueprint.Nodes

/-! # Ids of blueprints

A component keeps the id that its source gives it, if that is a text and not blank; a number is not
taken for an id. All others are numbered in one of two passes, each of which starts at zero. The
ids of one pass differ from one another, but one of them may be an id of the other pass.
-/

namespace DynamicUi

open Json

namespace Expansion

/-- Where the id of a component comes from. -/
inductive Namer where
  | itself
  | expansion
  | decoder
deriving DecidableEq

namespace Source

def namer (s : Source) : Namer :=
  match s.id? with
  | none => .expansion
  | some id => if Text.allBlank id then .decoder else .itself

def numberedKind (s : Source) : String :=
  if Text.trim s.shown.1 = "" then "node" else Text.trim s.shown.1

end Source

/-- What the id of a component comes to, and the counters after it. -/
inductive Gives (s : Source) (n k : Nat) (id : String) : Nat → Nat → Prop
  | itself (namer : s.namer = .itself) (own : s.id?.map Text.trim = some id) : Gives s n k id n k
  | expansion (namer : s.namer = .expansion)
    (numbered : id = freshId (Text.trimStart s.kind) n) : Gives s n k id (n + 1) k
  | decoder (namer : s.namer = .decoder) (numbered : id = freshId s.numberedKind k) :
    Gives s n k id n (k + 1)

variable {s : Source} {ss : List Source} {c : Component} {cs : List Component} {n k n' k' : Nat}

theorem Becomes.gives (h : Becomes s n k c n' k') : Gives s n k c.id n' k' := by
  obtain ⟨-, -, rfl, hnamed⟩ := h
  unfold Source.named settledId at hnamed
  cases hid : s.id? with
  | none =>
    rw [hid, Option.getD_none, if_neg (by simp [allBlank_freshId])] at hnamed
    obtain ⟨hc, rfl⟩ := Prod.mk.inj hnamed
    exact .expansion (by simp [Source.namer, hid]) (hc ▸ trim_freshId _ _)
  | some id =>
    rw [hid, Option.getD_some] at hnamed
    by_cases hblank : Text.allBlank id = true
    · rw [if_pos hblank] at hnamed
      obtain ⟨hc, rfl⟩ := Prod.mk.inj hnamed
      exact .decoder (by simp [Source.namer, hid, hblank]) hc.symm
    · rw [if_neg hblank] at hnamed
      obtain ⟨hc, rfl⟩ := Prod.mk.inj hnamed
      exact .itself (by simp [Source.namer, hid, hblank]) (by rw [hid, ← hc]; rfl)

/-! ## Kept ids -/

theorem givenId?_eq_some_iff {fields : Fields} {id : String} :
    Component.givenId? fields = some id ↔
      (∃ text, KeyMap.get? fields "id" = some (.string text) ∧ Text.allBlank text = false ∧
        Text.trim text = id) ∨
      ∃ x, KeyMap.get? fields "id" = some (.number x) ∧ x.text = id := by
  unfold Component.givenId?
  cases KeyMap.get? fields "id" with
  | none => simp
  | some v => cases v <;> simp

theorem namer_of_text {fields : Fields} {text : String}
    (h : KeyMap.get? fields "id" = some (.string text)) (hblank : Text.allBlank text = false) :
    (Source.explicit fields).namer = .itself ∧ (Source.explicit fields).id? = some text := by
  have hne : text ≠ "" := by
    rintro rfl
    cases hblank
  have hid : (Source.explicit fields).id? = some text := by
    simp [Source.id?, string?_eq_some_iff.mpr h, hne]
  exact ⟨by simp [Source.namer, hid, hblank], hid⟩

theorem namer_of_number {fields : Fields} {x : Number}
    (h : KeyMap.get? fields "id" = some (.number x)) :
    (Source.explicit fields).namer = .expansion := by
  have hid : (Source.explicit fields).id? = none := by
    simp [Source.id?, Fields.string?, h, Value.asString?]
  simp [Source.namer, hid]

/-- An entry from which the decoder would take an id has that id, unless it is a number and the
entry is numbered by expansion. -/
def KeepsId (s : Source) (c : Component) : Prop :=
  ∀ fields id, s = .explicit fields → Component.givenId? fields = some id →
    c.id = id ∨ (∃ x, KeyMap.get? fields "id" = some (.number x)) ∧ s.namer = .expansion

theorem Becomes.keepsId (h : Becomes s n k c n' k') : KeepsId s c := by
  rintro fields id rfl hgiven
  rcases givenId?_eq_some_iff.mp hgiven with ⟨text, htext, hblank, rfl⟩ | ⟨x, hx, -⟩
  · obtain ⟨hnamer, hid⟩ := namer_of_text htext hblank
    left
    cases h.gives with
    | itself _ own => rw [hid] at own; exact (Option.some.inj own).symm
    | expansion hother | decoder hother => rw [hnamer] at hother; cases hother
  · exact .inr ⟨⟨x, hx⟩, namer_of_number hx⟩

/-! ## Numbers -/

def idsBy (way : Namer → Bool) (ss : List Source) (cs : List Component) : List String :=
  ((ss.zip cs).filter fun e => way e.1.namer).map fun e => e.2.id

theorem idsBy_cons (way : Namer → Bool) (s : Source) (ss : List Source) (c : Component)
    (cs : List Component) : idsBy way (s :: ss) (c :: cs) =
      if way s.namer then c.id :: idsBy way ss cs else idsBy way ss cs := by
  simp only [idsBy, List.zip_cons_cons, List.filter_cons]
  split <;> rfl

namespace Yields

variable {n'' k'' : Nat}

theorem idsBy_expansion (h : Yields ss n k cs n'' k'') : idsBy (· = .expansion) ss cs =
    numbered (fun s => Text.trimStart s.kind) (ss.filter (·.namer = .expansion)) n := by
  induction h with
  | nil => rfl
  | @cons s ss c cs n k _ _ _ _ first _ ih =>
    rw [idsBy_cons, List.filter_cons]
    cases first.gives with
    | itself namer | decoder namer => simpa [namer] using ih
    | expansion namer hid => simp [namer, ih, numbered, hid]

theorem idsBy_decoder (h : Yields ss n k cs n'' k'') : idsBy (· = .decoder) ss cs =
    numbered Source.numberedKind (ss.filter (·.namer = .decoder)) k := by
  induction h with
  | nil => rfl
  | @cons s ss c cs n k _ _ _ _ first _ ih =>
    rw [idsBy_cons, List.filter_cons]
    cases first.gives with
    | itself namer | expansion namer => simpa [namer] using ih
    | decoder namer hid => simp [namer, ih, numbered, hid]

end Yields

theorem idsBy_perm (ss : List Source) (cs : List Component) : (idsBy (· ≠ .itself) ss cs).Perm
    (idsBy (· = .expansion) ss cs ++ idsBy (· = .decoder) ss cs) := by
  induction ss generalizing cs with
  | nil => exact .nil
  | cons s ss ih =>
    cases cs with
    | nil => exact .nil
    | cons c cs =>
      simp only [idsBy_cons]
      cases hnamer : s.namer with
      | itself => simpa using ih cs
      | expansion => simpa using ih cs
      | decoder => simpa using ((ih cs).cons c.id).trans List.perm_middle.symm

namespace Yields

variable {n'' k'' : Nat}

theorem nodup_expansion (h : Yields ss n k cs n'' k'') :
    (idsBy (· = .expansion) ss cs).Nodup := by
  rw [h.idsBy_expansion]
  exact nodup_numbered _ _ _

theorem nodup_decoder (h : Yields ss n k cs n'' k'') : (idsBy (· = .decoder) ss cs).Nodup := by
  rw [h.idsBy_decoder]
  exact nodup_numbered _ _ _

theorem nodup_made_iff (h : Yields ss n k cs n'' k'') : (idsBy (· ≠ .itself) ss cs).Nodup ↔
    ∀ id ∈ idsBy (· = .expansion) ss cs, id ∉ idsBy (· = .decoder) ss cs := by
  rw [(idsBy_perm ss cs).nodup_iff, List.nodup_append]
  constructor
  · rintro ⟨-, -, hne⟩ id hid hmem
    exact hne id hid id hmem rfl
  · intro hapart
    exact ⟨h.nodup_expansion, h.nodup_decoder, fun id hid id' hid' he => hapart id hid (he ▸ hid')⟩

theorem nodup_made (h : Yields ss n k cs n'' k'') (hnone : ∀ s ∈ ss, s.namer ≠ .decoder) :
    (idsBy (· ≠ .itself) ss cs).Nodup := by
  have hempty : ss.filter (·.namer = .decoder) = [] := by
    simpa [List.filter_eq_nil_iff] using hnone
  rw [h.nodup_made_iff, h.idsBy_decoder, hempty]
  exact fun _ _ => List.not_mem_nil

end Yields

end Expansion

namespace AppPackage

open Expansion

/-- A component that says its type keeps the id that the decoder would take from it, unless that is
a number, for which it is numbered as if it had none. The ids that are made in one pass differ from
one another. They all differ if no id of the one pass is one of the other; for that it is enough
that no id is written that is blank, since the second pass has then nothing to do. -/
theorem written_ids_kept {text : String} {p : AppPackage} (h : parse text = .ok p) :
    ∃ doc, Json.parse text = some (.object doc) ∧
      let ss := sources doc
      let cs := p.window.components
      let first := idsBy (· = .expansion) ss cs
      let second := idsBy (· = .decoder) ss cs
      let made := idsBy (· ≠ .itself) ss cs
      List.Forall₂ KeepsId ss cs ∧
      first.Nodup ∧ second.Nodup ∧ made.Perm (first ++ second) ∧
      (made.Nodup ↔ ∀ id ∈ first, id ∉ second) ∧
      ((∀ s ∈ ss, s.namer ≠ .decoder) → made.Nodup) := by
  obtain ⟨doc, n, k, htext, hyields⟩ := parse_yields h
  exact ⟨doc, htext, hyields.forall₂ Becomes.keepsId, hyields.nodup_expansion,
    hyields.nodup_decoder, idsBy_perm .., hyields.nodup_made_iff, hyields.nodup_made⟩

theorem ids_of_four_components :
    let components := [Value.string "Hi", .object [("id", .nat 7), ("type", .string " a")],
      .object [("id", .string " top "), ("type", .string "a")], .object [("b#c", .null)]]
    let text := (Value.object (documentOf components)).compact
    ∃ p, parse text = .ok p ∧
      p.window.components.map Component.id = ["text-0", "a-1", "top", "c"] ∧
      (idsBy (· ≠ .itself) (sources (documentOf components)) p.window.components).Nodup := by
  intro components text
  have htext : Json.parse text = some (.object (documentOf components)) := by decide +kernel
  obtain ⟨p, hp, hwindow⟩ := exists_parse_documentOf htext
  obtain ⟨doc, hdoc, -, -, -, -, -, hnodup⟩ := written_ids_kept hp
  cases htext.symm.trans hdoc
  refine ⟨p, hp, ?_, hnodup ?_⟩
  · rw [hwindow]
    rfl
  · have hnamers : (sources (documentOf components)).map Source.namer =
        [.expansion, .expansion, .itself, .itself] := by decide
    intro s hs hdecoder
    have hmem := hnamers ▸ List.mem_map_of_mem hs
    rw [hdecoder] at hmem
    exact absurd hmem (by decide)

/-- The number is no id to expansion, and the blank one is none to the decoder: each of them counts
from zero. -/
theorem number_and_blank_numbered :
    let entry := [("id", Value.nat 7), ("type", .string "text")]
    let components := [Value.object entry,
      .object [("id", .string " "), ("type", .string "text")]]
    let text := (Value.object (documentOf components)).compact
    Component.givenId? entry = some "7" ∧ ∃ p, parse text = .ok p ∧
      p.window.components.map Component.id = ["text-0", "text-0"] := by
  intro entry components text
  have htext : Json.parse text = some (.object (documentOf components)) := by decide +kernel
  obtain ⟨p, hp, hwindow⟩ := exists_parse_documentOf htext
  exact ⟨by decide, p, hp, by rw [hwindow]; decide⟩

end AppPackage

end DynamicUi
