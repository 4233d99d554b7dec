import DynamicUi.Proofs.LocalTool.Checklist
import DynamicUi.Proofs.LocalTool.Targets
import Mathlib.Data.List.Induction
import Mathlib.Logic.Function.Iterate

/-! # Taking back what was appended

Taking the last character away from a display undoes the appending of one character, unless it
leaves nothing or a lone minus: then a zero takes the place of what is left. A zero is also what an
appended text replaces, so that as many steps back as the text has characters lead to what was shown
before, whether the text was appended or took the place of the zero.
-/

namespace DynamicUi

open Json

namespace LocalTool

open Checklist (serve)

/-! ## Texts -/

/-- The last character goes, and a zero stands in for nothing and for a lone minus. -/
theorem shortened_concat (cs : List Char) (c : Char) :
    shortened (String.ofList (cs ++ [c])) =
      if cs = [] ∨ cs = ['-'] then "0" else String.ofList cs := by
  simp only [shortened, String.toList_ofList, List.dropLast_concat, Bool.or_eq_true,
    decide_eq_true_eq]

theorem shortened_ne (text : String) : shortened text ≠ "" ∧ shortened text ≠ "-" := by
  simp only [shortened, Bool.or_eq_true, decide_eq_true_eq]
  split
  · decide
  · next h =>
    rw [not_or] at h
    constructor
    · intro he
      exact h.1 (String.ofList_inj.mp he)
    · intro he
      exact h.2 (String.ofList_inj.mp he)

theorem shortened_iterate_append {shown : String} (hempty : shown ≠ "") (hminus : shown ≠ "-")
    (cs : List Char) : shortened^[cs.length] (shown ++ String.ofList cs) = shown := by
  have hshown : shown.toList ≠ [] ∧ shown.toList ≠ ['-'] :=
    ⟨fun h => hempty (String.toList_inj.mp h), fun h => hminus (String.toList_inj.mp h)⟩
  induction cs using List.reverseRecOn with
  | nil => simp
  | append_singleton cs c ih =>
    have hlonger : ¬(shown.toList ++ cs = [] ∨ shown.toList ++ cs = ['-']) := by
      rw [List.append_eq_nil_iff, List.append_eq_singleton_iff]
      tauto
    have hback : shortened (shown ++ String.ofList (cs ++ [c])) = shown ++ String.ofList cs := by
      have hconcat := shortened_concat (shown.toList ++ cs) c
      rw [if_neg hlonger] at hconcat
      simpa [String.ofList_append] using hconcat
    rw [List.length_append, List.length_singleton, Function.iterate_succ_apply, hback, ih]

/-- All of a text taken back leaves a zero. A minus that comes to stand alone becomes a zero before
it is taken back. -/
theorem shortened_iterate_self {cs : List Char} (h : cs ≠ []) :
    shortened^[cs.length] (String.ofList cs) = "0" := by
  induction cs using List.reverseRecOn with
  | nil => exact absurd rfl h
  | append_singleton cs c ih =>
    rw [List.length_append, List.length_singleton, Function.iterate_succ_apply, shortened_concat]
    split
    · next hzero =>
      rcases hzero with rfl | rfl
      · rfl
      · decide
    · next hrest => exact ih fun he => hrest (.inl he)

theorem shortened_iterate_appended {shown text : String} (hempty : shown ≠ "")
    (hminus : shown ≠ "-") (herror : shown ≠ "Error") (htext : text ≠ "") :
    shortened^[text.length] (appended shown text) = shown := by
  have hlist : String.ofList text.toList = text := String.ofList_toList
  have hlength : text.toList.length = text.length := String.length_toList
  by_cases hzero : shown = "0" ∧ text ≠ "."
  · obtain ⟨rfl, hpoint⟩ := hzero
    have hback : shortened^[text.toList.length] (String.ofList text.toList) = "0" :=
      shortened_iterate_self fun h => htext (String.toList_inj.mp h)
    rw [hlist, hlength] at hback
    simpa [appended, hpoint] using hback
  · have hback := shortened_iterate_append hempty hminus text.toList
    rw [hlist, hlength] at hback
    simpa [appended, hzero, herror] using hback

/-! ## Calls -/

def Addresses (tool key : String) (u : LocalUse) : Prop :=
  u.invocation.tool = tool ∧ target u = key

instance (tool key : String) (u : LocalUse) : Decidable (Addresses tool key u) :=
  inferInstanceAs (Decidable (_ ∧ _))

variable {κ : Type} {s : Store κ} {key : String} {u : LocalUse}

theorem runLocal_store {v : Value} (h : effect s.get? u = .ok (.store key v)) :
    (s.runLocal u).2.2 = .ok v ∧ (s.runLocal u).1.get? key = some v := by
  simp only [Store.runLocal, h]
  exact ⟨rfl, (s.get?_set ..).trans (if_pos rfl)⟩

theorem runLocal_shown {text : String} (h : effect s.get? u = .ok (.store key (.string text))) :
    (s.runLocal u).2.2 = .ok (.string text) ∧ shown (s.runLocal u).1.get? key = text := by
  obtain ⟨houtcome, hvalue⟩ := runLocal_store h
  refine ⟨houtcome, ?_⟩
  rw [shown, hvalue]
  rfl

theorem runLocal_append (h : Addresses "ui.append" key u) {text : String}
    (htext : suffix? u = some text) :
    (s.runLocal u).2.2 = .ok (.string (appended (shown s.get? key) text)) ∧
      shown (s.runLocal u).1.get? key = appended (shown s.get? key) text := by
  obtain ⟨htool, rfl⟩ := h
  apply runLocal_shown
  simp only [effect, append, target, htool, htext]

theorem runLocal_backspace (h : Addresses "ui.backspace" key u) :
    (s.runLocal u).2.2 = .ok (.string (shortened (shown s.get? key))) ∧
      shown (s.runLocal u).1.get? key = shortened (shown s.get? key) := by
  obtain ⟨htool, rfl⟩ := h
  apply runLocal_shown
  simp only [effect, backspace, target, htool]

theorem serve_backspaces {uses : List LocalUse}
    (h : ∀ u ∈ uses, Addresses "ui.backspace" key u) :
    shown (serve s uses).get? key = shortened^[uses.length] (shown s.get? key) := by
  induction uses generalizing s with
  | nil => rfl
  | cons u uses ih =>
    obtain ⟨hu, huses⟩ := List.forall_mem_cons.mp h
    have hfirst := (runLocal_backspace (s := s) hu).2
    rw [List.length_cons, Function.iterate_succ_apply, ← hfirst]
    exact ih huses

/-- Where a display shows anything but nothing, a lone minus or an error, a text that is appended,
or takes the place of a lone zero, is taken back by as many steps as it has characters. Whatever a
display shows, a step back leaves neither nothing nor a lone minus. -/
theorem backspaces_undo_append {κ : Type} (s : Store κ) (key : String) :
    let before := shown s.get? key
    (∀ {u : LocalUse} {text : String} {back : List LocalUse}, Addresses "ui.append" key u →
      suffix? u = some text → text ≠ "" → (∀ b ∈ back, Addresses "ui.backspace" key b) →
      back.length = text.length → before ≠ "" → before ≠ "-" → before ≠ "Error" →
      (s.runLocal u).2.2 =
        .ok (.string (if before = "0" ∧ text ≠ "." then text else before ++ text)) ∧
      shown (serve s (u :: back)).get? key = before) ∧
    ∀ {b : LocalUse}, Addresses "ui.backspace" key b →
      ∃ after, (s.runLocal b).2.2 = .ok (.string after) ∧
        shown (s.runLocal b).1.get? key = after ∧ after ≠ "" ∧ after ≠ "-" := by
  intro before
  constructor
  · intro u text back hu hsuffix htext hback hlength hempty hminus herror
    obtain ⟨houtcome, hshown⟩ := runLocal_append (s := s) hu hsuffix
    have happended : appended before text =
        if before = "0" ∧ text ≠ "." then text else before ++ text := by
      simp [appended, herror]
    constructor
    · rw [houtcome, ← happended]
    · have hserve : serve s (u :: back) = serve (s.runLocal u).1 back := rfl
      rw [hserve, serve_backspaces hback, hshown, hlength,
        shortened_iterate_appended hempty hminus herror htext]
  · intro b hb
    obtain ⟨houtcome, hshown⟩ := runLocal_backspace (s := s) hb
    exact ⟨_, houtcome, hshown, shortened_ne before⟩

/-- The label of a button takes the place of the zero that a number is shown as, its minus does not
stay alone, and of three steps back the last is from a zero. -/
theorem minus_takes_zero_back :
    let s : Store Unit := (Store.empty.set "display" (.nat 0)).1
    let press : LocalUse := ⟨.ofTool "ui.append", "b", [("text", .string "-é😀")], none⟩
    let back : LocalUse := ⟨.ofTool "ui.backspace", "c", [], none⟩
    shown (serve s [press]).get? "display" = "-é😀" ∧
      shown (serve s [press, back, back]).get? "display" = "0" ∧
      shown (serve s [press, back, back, back]).get? "display" = "0" := by
  intro s press back
  have hpress : Addresses "ui.append" "display" press := by decide
  have hback : ∀ b ∈ [back, back, back], Addresses "ui.backspace" "display" b := by decide
  have hundo := (backspaces_undo_append s "display").1 hpress rfl (by decide) hback (by decide)
    (by decide) (by decide) (by decide)
  exact ⟨by decide, by decide, hundo.2⟩

end LocalTool

end DynamicUi
