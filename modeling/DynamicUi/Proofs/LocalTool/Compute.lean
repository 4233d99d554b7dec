import DynamicUi.Proofs.Expression.Display
import DynamicUi.Proofs.LocalTool.Display

/-! # Computing what is shown

A display that is computed shows a result or an error, and computing it again leaves it so. The
exception is a negative value that has no digit in its ten places: it is shown as a zero with a
sign, which the next computation takes away.
-/

namespace DynamicUi

open Json

namespace LocalTool

open Checklist (serve)
open Decimal Expression

/-! ## Texts -/

/-- What is left of a text when its value is zero and has no sign. -/
def unsigned (text : String) : String := if text = "-0" then "0" else text

theorem isFinite_of_evaluate {source : String} {x : Float} (h : evaluate source = .ok x) :
    isFinite x = true := by
  rw [evaluate, evaluateChars_eq] at h
  split at h
  · cases h
  · cases h
  · split at h
    · next hfinite =>
      cases h
      exact hfinite
    · cases h

theorem computed_of_ok {source : String} {x : Float} (h : evaluate source = .ok x) :
    computed source = numberText x := by
  rw [computed, h]

theorem computed_of_error {source : String} {e : EvalError} (h : evaluate source = .error e) :
    computed source = "Error" := by
  rw [computed, h]

theorem computed_error : computed "Error" = "Error" := by
  decide +kernel

theorem computed_computed (source : String) :
    computed (computed source) = unsigned (computed source) := by
  cases h : evaluate source with
  | error e =>
    rw [computed_of_error h, computed_error]
    rfl
  | ok x =>
    obtain ⟨y, hread, htext⟩ := numberText_settles (isFinite_of_evaluate h)
    rw [computed_of_ok h, computed_of_ok hread, htext, unsigned]

theorem unsigned_unsigned (text : String) : unsigned (unsigned text) = unsigned text := by
  by_cases h : text = "-0"
  · subst h
    decide
  · have hkept : unsigned text = text := if_neg h
    rw [hkept, hkept]

theorem computed_unsigned (source : String) :
    computed (unsigned (computed source)) = unsigned (computed source) := by
  rw [← computed_computed, computed_computed (computed source), computed_computed,
    unsigned_unsigned]

theorem computed_iterate (source : String) (n : ℕ) :
    computed^[n + 2] source = unsigned (computed source) := by
  induction n with
  | zero => exact computed_computed source
  | succ n ih => rw [Function.iterate_succ_apply', ih, computed_unsigned]

/-- A zero has a sign where the value is negative and no more than half a place. -/
theorem computed_eq_minus_zero_iff (source : String) :
    computed source = "-0" ↔ ∃ x, evaluate source = .ok x ∧ isNegative x = true ∧
      0 < (Binary.ofFloat x).value ∧ (Binary.ofFloat x).value ≤ 1 / 2 / 10 ^ 10 := by
  cases h : evaluate source with
  | error e =>
    rw [computed_of_error h]
    exact iff_of_false (by decide) nofun
  | ok x =>
    rw [computed_of_ok h, numberText_eq_minus_zero_iff (isFinite_of_evaluate h)]
    simp only [Except.ok.injEq, exists_eq_left']

/-! ## Calls -/

def Computes (key : String) (u : LocalUse) : Prop :=
  Addresses "ui.compute" key u ∧ KeyMap.get? u.invocation.params "expression" = none

instance (key : String) (u : LocalUse) : Decidable (Computes key u) :=
  inferInstanceAs (Decidable (_ ∧ _))

variable {κ : Type} {s : Store κ} {key : String} {u : LocalUse}

theorem runLocal_computes (h : Computes key u) :
    (s.runLocal u).2.2 = .ok (.string (computed (shown s.get? key))) ∧
      shown (s.runLocal u).1.get? key = computed (shown s.get? key) := by
  obtain ⟨⟨htool, rfl⟩, hexpression⟩ := h
  apply runLocal_shown
  simp only [effect, compute, target, htool, hexpression]

theorem serve_computes {uses : List LocalUse} (h : ∀ u ∈ uses, Computes key u) :
    shown (serve s uses).get? key = computed^[uses.length] (shown s.get? key) := by
  induction uses generalizing s with
  | nil => rfl
  | cons u uses ih =>
    obtain ⟨hu, huses⟩ := List.forall_mem_cons.mp h
    have hfirst := (runLocal_computes (s := s) hu).2
    rw [List.length_cons, Function.iterate_succ_apply, ← hfirst]
    exact ih huses

/-- What a display shows when it is computed is shown by every computation that follows, but for a
zero with a sign, which is a zero from then on. It is shown only for a negative value that is not
zero and no more than half of a tenth place. Any finite result is read again where it is shown, and
an error computes to an error. -/
theorem computes_settle {κ : Type} (s : Store κ) (key : String) :
    let before := shown s.get? key
    let first := computed before
    (∀ {u v : LocalUse} {more : List LocalUse}, Computes key u → (∀ w ∈ more, Computes key w) →
      Computes key v →
      (s.runLocal u).2.2 = .ok (.string first) ∧ shown (s.runLocal u).1.get? key = first ∧
      let s' := serve s (u :: more)
      (s'.runLocal v).2.2 = .ok (.string (unsigned first)) ∧
      shown (s'.runLocal v).1.get? key = unsigned first) ∧
    (first = "-0" ↔ ∃ x, evaluate before = .ok x ∧ isNegative x = true ∧
      0 < (Binary.ofFloat x).value ∧ (Binary.ofFloat x).value ≤ 1 / 2 / 10 ^ 10) ∧
    (∀ x, isFinite x = true → ∃ y, evaluate (numberText x) = .ok y ∧
      numberText y = unsigned (numberText x)) ∧
    computed "Error" = "Error" := by
  intro before first
  refine ⟨?_, computed_eq_minus_zero_iff before, fun _ => numberText_settles, computed_error⟩
  intro u v more hu hmore hv
  obtain ⟨houtcome, hshown⟩ := runLocal_computes (s := s) hu
  refine ⟨houtcome, hshown, ?_⟩
  intro s'
  have hserve : shown s'.get? key = computed^[more.length + 1] before :=
    serve_computes (List.forall_mem_cons.mpr ⟨hu, hmore⟩)
  have hlast : computed (shown s'.get? key) = unsigned first := by
    rw [hserve, ← Function.iterate_succ_apply' computed, computed_iterate]
  rw [← hlast]
  exact runLocal_computes hv

theorem third_settles :
    let s : Store Unit := (Store.empty.set "display" (.string "1 ÷ 3")).1
    let u : LocalUse := ⟨.ofTool "ui.compute", "eq", [], none⟩
    (s.runLocal u).2.2 = .ok (.string "0.3333333333") ∧
      shown (serve s [u, u, u]).get? "display" = "0.3333333333" := by
  intro s u
  have hu : Computes "display" u := by decide
  have hmore : ∀ w ∈ [u], Computes "display" w := List.forall_mem_singleton.mpr hu
  have hfirst : computed (shown s.get? "display") = "0.3333333333" := by decide +kernel
  obtain ⟨houtcome, -, -, hshown⟩ := (computes_settle s "display").1 hu hmore hu
  constructor
  · rw [houtcome, hfirst]
  · rw [hfirst] at hshown
    exact hshown

/-- The minus of a value with no digit in its ten places is shown once. -/
theorem minus_of_zero_lost :
    let s : Store Unit := (Store.empty.set "display" (.string "-0.00000000001")).1
    let u : LocalUse := ⟨.ofTool "ui.compute", "eq", [], none⟩
    let once := (s.runLocal u).1
    let twice := (once.runLocal u).1
    Computes "display" u ∧ shown once.get? "display" = "-0" ∧
      shown twice.get? "display" = "0" := by
  decide +kernel

end LocalTool

end DynamicUi
