import DynamicUi.Decimal.Binary
import DynamicUi.Json.Basic

/-! # The mounted slice of a list

Items have one height, so the slice that meets the viewport follows from the scroll offset by
division. `inView` computes it over any arithmetic of lengths; windows are rendered with
floats, whose quotients become indices by saturation.
-/

namespace DynamicUi

/-- The arithmetic of lengths along the axis of scrolling. -/
class Length (α : Type) where
  ofCount : Nat → α
  add : α → α → α
  sub : α → α → α
  mul : α → α → α
  div : α → α → α
  less : α → α → Bool
  isFinite : α → Bool
  /-- The index below a quotient; zero for what is negative or undefined. -/
  floorIndex : α → Nat
  ceilIndex : α → Nat

namespace Length

def maxIndex : Nat := 18446744073709551615

def toIndex (round : Decimal.Binary → Nat) (x : Float) : Nat :=
  if Decimal.isNaN x || Decimal.isNegative x then 0
  else if !Decimal.isFinite x then maxIndex
  else min (round (.ofFloat x)) maxIndex

instance : Length Float where
  ofCount := Float.ofNat
  add := Float.add
  sub := Float.sub
  mul := Float.mul
  div := Float.div
  less a b := decide (a < b)
  isFinite := Decimal.isFinite
  floorIndex := toIndex Decimal.Binary.floor
  ceilIndex := toIndex Decimal.Binary.ceil

end Length

/-- The slice of a list that is mounted at one scroll position. -/
structure Slice (α : Type) where
  start : Nat
  /-- One past the last mounted index. -/
  stop : Nat
  itemCount : Nat
  itemHeight : α
  viewportHeight : α
  /-- The offset after clamping to the scrollable range. -/
  scrollOffset : α
  totalExtent : α
  topSpacer : α
  bottomSpacer : α

namespace Slice

open Length

variable {α : Type} [Length α]

def length (w : Slice α) : Nat := w.stop - w.start

def isEmpty (w : Slice α) : Bool := w.start = w.stop

def contains (w : Slice α) (i : Nat) : Bool := w.start ≤ i && i < w.stop

def positivePart (x : α) : α := if less (ofCount 0) x then x else ofCount 0

/-- The largest offset that still fills the viewport. -/
def lastOffset (w : Slice α) : α := positivePart (sub w.totalExtent w.viewportHeight)

def clamp (x hi : α) : α :=
  if less x (ofCount 0) then ofCount 0 else if less hi x then hi else x

/-- The slice that meets the viewport, with `overscan` more items at either end. -/
def inView (count : Nat) (height offset viewport : α) (overscan : Nat) : Slice α :=
  let total := mul (ofCount count) height
  let offset :=
    if isFinite offset then clamp offset (positivePart (sub total viewport)) else ofCount 0
  let first := floorIndex (div offset height)
  let last := ceilIndex (div (add offset viewport) height)
  let start := min (first - overscan) count
  let stop := min (last + overscan) count
  { start, stop
    itemCount := count
    itemHeight := height
    viewportHeight := viewport
    scrollOffset := offset
    totalExtent := total
    topSpacer := mul (ofCount start) height
    bottomSpacer := mul (ofCount (count - stop)) height }

open Json in
def encode (w : Slice Float) : Value :=
  .record [("start", .nat w.start), ("end", .nat w.stop), ("item_count", .nat w.itemCount),
    ("item_height", .ofFloat w.itemHeight), ("viewport_height", .ofFloat w.viewportHeight),
    ("scroll_offset", .ofFloat w.scrollOffset), ("total_extent", .ofFloat w.totalExtent),
    ("top_spacer", .ofFloat w.topSpacer), ("bottom_spacer", .ofFloat w.bottomSpacer)]

end Slice

end DynamicUi
