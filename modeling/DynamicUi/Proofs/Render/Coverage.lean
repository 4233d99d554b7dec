import DynamicUi.Render.Slice
import Mathlib.Data.Rat.Floor
import Mathlib.Order.Interval.Set.Basic
import Mathlib.Tactic.Linarith

/-! # A slice covers the viewport

Over exact lengths the slice holds every item that is at least partly in view and few others, the
spacers stand for the rest, and scrolling on never moves the slice back.
-/

namespace DynamicUi

/-- Exact lengths, with indices up to a greatest one. -/
abbrev Length.rational (greatest : ℕ) : Length ℚ where
  ofCount n := n
  add := (· + ·)
  sub := (· - ·)
  mul := (· * ·)
  div := (· / ·)
  less a b := decide (a < b)
  isFinite _ := true
  floorIndex x := min ⌊x⌋₊ greatest
  ceilIndex x := min ⌈x⌉₊ greatest

namespace Slice

def exactView (greatest count : ℕ) (height offset viewport : ℚ) (overscan : ℕ) : Slice ℚ :=
  @inView ℚ (Length.rational greatest) count height offset viewport overscan

/-- The offset at which the last item ends where the viewport does; zero for a short list. -/
def lastScroll (count : ℕ) (height viewport : ℚ) : ℚ := max 0 (count * height - viewport)

def slot (height : ℚ) (i : ℕ) : Set ℚ := Set.Ico (i * height) ((i + 1) * height)

variable {greatest count overscan : ℕ} {height viewport offset : ℚ}

/-! ## The indices at the ends of the viewport -/

theorem clamp_eq {x hi : ℚ} (h : 0 ≤ hi) :
    @clamp ℚ (Length.rational greatest) x hi = max 0 (min x hi) := by
  simp only [clamp, Length.less, Length.ofCount, decide_eq_true_eq, Nat.cast_zero]
  split_ifs with hneg hless
  · rw [max_eq_left (min_le_of_left_le hneg.le)]
  · rw [min_eq_right hless.le, max_eq_right h]
  · rw [min_eq_left (not_lt.mp hless), max_eq_right (not_lt.mp hneg)]

theorem positivePart_eq (x : ℚ) :
    @positivePart ℚ (Length.rational greatest) x = max 0 x := by
  simp only [positivePart, Length.less, Length.ofCount, decide_eq_true_eq, Nat.cast_zero]
  split_ifs with h
  · rw [max_eq_right h.le]
  · rw [max_eq_left (not_lt.mp h)]

theorem scrollOffset_exactView :
    (exactView greatest count height offset viewport overscan).scrollOffset =
      max 0 (min offset (lastScroll count height viewport)) := by
  show @clamp ℚ (Length.rational greatest) offset
    (@positivePart ℚ (Length.rational greatest) (count * height - viewport)) = _
  rw [positivePart_eq, clamp_eq (le_max_left ..), lastScroll]

theorem scrollOffset_nonneg :
    0 ≤ (exactView greatest count height offset viewport overscan).scrollOffset := by
  rw [scrollOffset_exactView]
  exact le_max_left ..

theorem scrollOffset_le_lastScroll :
    (exactView greatest count height offset viewport overscan).scrollOffset ≤
      lastScroll count height viewport := by
  rw [scrollOffset_exactView]
  exact max_le (le_max_left ..) (min_le_right ..)

theorem floor_le_count (hheight : 0 < height) (hviewport : 0 < viewport) {x : ℚ}
    (hx : x ≤ lastScroll count height viewport) : ⌊x / height⌋₊ ≤ count := by
  have hextent : lastScroll count height viewport ≤ count * height :=
    max_le (by positivity) (by linarith)
  exact Nat.floor_le_of_le ((div_le_iff₀ hheight).mpr (hx.trans hextent))

/-- Between the ends of a stretch lie at most one item more than fit into it. -/
theorem ceil_le_floor_add (x y : ℚ) : ⌈x + y⌉₊ ≤ ⌊x⌋₊ + 1 + ⌈y⌉₊ := by
  rw [Nat.ceil_le, Nat.cast_add, Nat.cast_add, Nat.cast_one]
  exact add_le_add (Nat.lt_floor_add_one x).le (Nat.le_ceil y)

theorem start_exactView (hcount : count ≤ greatest) (hheight : 0 < height)
    (hviewport : 0 < viewport) :
    let w := exactView greatest count height offset viewport overscan
    w.start = ⌊w.scrollOffset / height⌋₊ - overscan := by
  intro w
  have hfirst : ⌊w.scrollOffset / height⌋₊ ≤ count :=
    floor_le_count hheight hviewport scrollOffset_le_lastScroll
  show min (min ⌊w.scrollOffset / height⌋₊ greatest - overscan) count = _
  omega

theorem stop_exactView (hcount : count ≤ greatest) :
    let w := exactView greatest count height offset viewport overscan
    w.stop = min (⌈(w.scrollOffset + viewport) / height⌉₊ + overscan) count := by
  intro w
  show min (min ⌈(w.scrollOffset + viewport) / height⌉₊ greatest + overscan) count = _
  omega

theorem stop_of_lastScroll_le (hcount : count ≤ greatest) (hheight : 0 < height)
    (hoffset : lastScroll count height viewport ≤ offset) :
    (exactView greatest count height offset viewport overscan).stop = count := by
  have hscroll : (exactView greatest count height offset viewport overscan).scrollOffset =
      lastScroll count height viewport := by
    rw [scrollOffset_exactView, min_eq_right hoffset]
    exact max_eq_right (le_max_left ..)
  have hlast : count ≤ ⌈(lastScroll count height viewport + viewport) / height⌉₊ := by
    have hextent : (count : ℚ) ≤ (lastScroll count height viewport + viewport) / height := by
      have hle : count * height - viewport ≤ lastScroll count height viewport := le_max_right ..
      rw [le_div_iff₀ hheight]
      linarith
    exact_mod_cast hextent.trans (Nat.le_ceil _)
  rw [stop_exactView hcount, hscroll]
  omega

/-! ## What is mounted -/

section Bounds

variable (hcount : count ≤ greatest) (hheight : 0 < height) (hviewport : 0 < viewport)
include hcount hheight hviewport

theorem exactView_bounds :
    let w := exactView greatest count height offset viewport overscan
    w.start ≤ w.stop ∧ w.stop ≤ count ∧
      w.stop - w.start ≤ ⌈viewport / height⌉₊ + 1 + 2 * overscan := by
  intro w
  have hfirst : ⌊w.scrollOffset / height⌋₊ ≤ count :=
    floor_le_count hheight hviewport scrollOffset_le_lastScroll
  have hends : ⌊w.scrollOffset / height⌋₊ ≤ ⌈(w.scrollOffset + viewport) / height⌉₊ :=
    (Nat.floor_le_ceil _).trans
      (Nat.ceil_mono (div_le_div_of_nonneg_right (by linarith) hheight.le))
  have hlength : ⌈(w.scrollOffset + viewport) / height⌉₊ ≤
      ⌊w.scrollOffset / height⌋₊ + 1 + ⌈viewport / height⌉₊ := by
    rw [add_div]
    exact ceil_le_floor_add ..
  have hstart : w.start = ⌊w.scrollOffset / height⌋₊ - overscan :=
    start_exactView hcount hheight hviewport
  have hstop : w.stop = min (⌈(w.scrollOffset + viewport) / height⌉₊ + overscan) count :=
    stop_exactView hcount
  omega

theorem mounted_of_inView {i : ℕ} (hi : i < count) :
    let w := exactView greatest count height offset viewport overscan
    (slot height i ∩ Set.Ioo w.scrollOffset (w.scrollOffset + viewport)).Nonempty →
      w.start ≤ i ∧ i < w.stop := by
  rintro w ⟨x, ⟨hlow, hhigh⟩, ⟨hafter, hbefore⟩⟩
  have hfirst : ⌊w.scrollOffset / height⌋₊ < i + 1 := by
    rw [Nat.floor_lt (div_nonneg scrollOffset_nonneg hheight.le), div_lt_iff₀ hheight,
      Nat.cast_add, Nat.cast_one]
    exact hafter.trans hhigh
  have hlast : i < ⌈(w.scrollOffset + viewport) / height⌉₊ := by
    rw [Nat.lt_ceil, lt_div_iff₀ hheight]
    exact hlow.trans_lt hbefore
  have hstart : w.start = ⌊w.scrollOffset / height⌋₊ - overscan :=
    start_exactView hcount hheight hviewport
  have hstop : w.stop = min (⌈(w.scrollOffset + viewport) / height⌉₊ + overscan) count :=
    stop_exactView hcount
  omega

theorem spacers_fill :
    let w := exactView greatest count height offset viewport overscan
    w.topSpacer + (w.stop - w.start : ℕ) * height + w.bottomSpacer = w.totalExtent := by
  intro w
  obtain ⟨hstart, hstop, -⟩ : w.start ≤ w.stop ∧ w.stop ≤ count ∧ _ :=
    exactView_bounds hcount hheight hviewport
  show w.start * height + (w.stop - w.start : ℕ) * height + (count - w.stop : ℕ) * height =
    count * height
  rw [Nat.cast_sub hstart, Nat.cast_sub hstop]
  ring

theorem exactView_mono {offset' : ℚ} (hoffset : offset ≤ offset') :
    let w := exactView greatest count height offset viewport overscan
    let w' := exactView greatest count height offset' viewport overscan
    w.scrollOffset ≤ w'.scrollOffset ∧ w.start ≤ w'.start ∧ w.stop ≤ w'.stop := by
  intro w w'
  have hscroll : w.scrollOffset ≤ w'.scrollOffset := by
    rw [scrollOffset_exactView, scrollOffset_exactView]
    exact max_le_max_left 0 (min_le_min_right _ hoffset)
  have hfirst : ⌊w.scrollOffset / height⌋₊ ≤ ⌊w'.scrollOffset / height⌋₊ :=
    Nat.floor_mono (div_le_div_of_nonneg_right hscroll hheight.le)
  have hlast : ⌈(w.scrollOffset + viewport) / height⌉₊ ≤ ⌈(w'.scrollOffset + viewport) / height⌉₊ :=
    Nat.ceil_mono (div_le_div_of_nonneg_right (by linarith) hheight.le)
  have hstart : w.start = ⌊w.scrollOffset / height⌋₊ - overscan :=
    start_exactView hcount hheight hviewport
  have hstart' : w'.start = ⌊w'.scrollOffset / height⌋₊ - overscan :=
    start_exactView hcount hheight hviewport
  have hstop : w.stop = min (⌈(w.scrollOffset + viewport) / height⌉₊ + overscan) count :=
    stop_exactView hcount
  have hstop' : w'.stop = min (⌈(w'.scrollOffset + viewport) / height⌉₊ + overscan) count :=
    stop_exactView hcount
  exact ⟨hscroll, by omega, by omega⟩

theorem start_of_offset_nonpos (hoffset : offset ≤ 0) :
    (exactView greatest count height offset viewport overscan).start = 0 := by
  have hscroll : (exactView greatest count height offset viewport overscan).scrollOffset = 0 := by
    rw [scrollOffset_exactView, max_eq_left (min_le_of_left_le hoffset)]
  rw [start_exactView hcount hheight hviewport, hscroll, zero_div, Nat.floor_zero, Nat.zero_sub]

end Bounds

/-- Whatever the offset, clamped to the range of scrolling: the bounds of the slice are in order and
within the list; an item whose slot meets the inside of the viewport is mounted, and at most one
more than fit, apart from the overscan; spacers and mounted items make up the whole extent; the
slice follows the offset up, and reaches both ends of the list. -/
theorem covers_viewport (offset : ℚ) (hcount : count ≤ greatest) (hheight : 0 < height)
    (hviewport : 0 < viewport) :
    let view := fun offset => exactView greatest count height offset viewport overscan
    let w := view offset
    let last := max 0 (count * height - viewport)
    w.scrollOffset = max 0 (min offset last) ∧
    (w.start ≤ w.stop ∧ w.stop ≤ count) ∧
    (∀ i < count, (slot height i ∩ Set.Ioo w.scrollOffset (w.scrollOffset + viewport)).Nonempty →
      w.start ≤ i ∧ i < w.stop) ∧
    w.stop - w.start ≤ ⌈viewport / height⌉₊ + 1 + 2 * overscan ∧
    (w.topSpacer + (w.stop - w.start : ℕ) * height + w.bottomSpacer = w.totalExtent ∧
      w.totalExtent = count * height) ∧
    (∀ offset', offset ≤ offset' → w.scrollOffset ≤ (view offset').scrollOffset ∧
      w.start ≤ (view offset').start ∧ w.stop ≤ (view offset').stop) ∧
    (last ≤ offset → w.stop = count) ∧ (offset ≤ 0 → w.start = 0) := by
  intro view w last
  obtain ⟨horder, hstop, hlength⟩ :
      w.start ≤ w.stop ∧ w.stop ≤ count ∧
        w.stop - w.start ≤ ⌈viewport / height⌉₊ + 1 + 2 * overscan :=
    exactView_bounds hcount hheight hviewport
  exact ⟨scrollOffset_exactView, ⟨horder, hstop⟩,
    fun i hi => mounted_of_inView hcount hheight hviewport hi, hlength,
    ⟨spacers_fill hcount hheight hviewport, rfl⟩,
    fun offset' => exactView_mono hcount hheight hviewport,
    stop_of_lastScroll_le hcount hheight, start_of_offset_nonpos hcount hheight hviewport⟩

theorem covers_viewport_of_halves :
    let w := exactView Length.maxIndex 7 (5 / 2) 4 6 1
    w.scrollOffset = 4 ∧ w.start ≤ 1 ∧ 3 < w.stop ∧ w.stop - w.start ≤ 6 ∧
      w.topSpacer + (w.stop - w.start : ℕ) * (5 / 2) + w.bottomSpacer = 35 / 2 := by
  intro w
  obtain ⟨hscroll, -, hmounted, hlength, ⟨hspacers, hextent⟩, -⟩ :=
    @covers_viewport Length.maxIndex 7 1 (5 / 2) 6 4 (by decide) (by norm_num) (by norm_num)
  have hscroll : w.scrollOffset = 4 := hscroll.trans (by norm_num)
  have hfirst : (4.5 : ℚ) ∈ slot (5 / 2) 1 ∩ Set.Ioo w.scrollOffset (w.scrollOffset + 6) := by
    rw [hscroll]
    constructor <;> constructor <;> norm_num
  have hlast : (9 : ℚ) ∈ slot (5 / 2) 3 ∩ Set.Ioo w.scrollOffset (w.scrollOffset + 6) := by
    rw [hscroll]
    constructor <;> constructor <;> norm_num
  have hfits : ⌈(6 / (5 / 2) : ℚ)⌉₊ = 3 := by
    rw [Nat.ceil_eq_iff (by decide)]
    norm_num
  refine ⟨hscroll, (hmounted 1 (by decide) ⟨_, hfirst⟩).1, (hmounted 3 (by decide) ⟨_, hlast⟩).2,
    ?_, hspacers.trans (hextent.trans (by norm_num))⟩
  rw [hfits] at hlength
  exact hlength

end Slice

end DynamicUi
