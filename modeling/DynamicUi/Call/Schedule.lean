import DynamicUi.Call.Exchange

/-! # The course of time

The clock stands still while calls run. When nothing is ready it jumps to the next moment at
which a call is due. Each call waits at most once, which bounds the jumps.
-/

namespace DynamicUi.Exchange

variable {ρ : Type}

def earlier : Option Nat → Option Nat → Option Nat
  | none, b => b
  | a, none => a
  | some a, some b => some (if a ≤ b then a else b)

def nextDue? (x : Exchange ρ) : Option Nat :=
  x.calls.foldl (fun best c => earlier best c.due?) none

def wakeAt (x : Exchange ρ) (moment : Nat) : Exchange ρ :=
  { x.wakeWhere fun _ due => due ≤ moment with clock := moment }

/-- Runs what is ready before a moment, and readies what is due at it. -/
def passWithin (moment : Nat) : Nat → Exchange ρ → Exchange ρ
  | 0, x => x.runReady.wakeAt moment
  | jumps + 1, x =>
    let x := x.runReady
    match x.nextDue? with
    | some due =>
      if due < moment then passWithin moment jumps (x.wakeAt due) else x.wakeAt moment
    | none => x.wakeAt moment

def passUntil (x : Exchange ρ) (moment : Nat) : Exchange ρ := passWithin moment x.calls.length x

def advance (x : Exchange ρ) (ms : Nat) : Exchange ρ := (x.passUntil (x.clock + ms)).runReady

/-- Runs calls and moves the clock until a condition holds or nothing can go on. -/
def waitWithin (done : Exchange ρ → Bool) : Nat → Exchange ρ → Exchange ρ
  | 0, x => x
  | rounds + 1, x =>
    if done x then x
    else if !x.ready.isEmpty then waitWithin done rounds x.runReady
    else
      match x.nextDue? with
      | some due => waitWithin done rounds (x.wakeAt due)
      | none => x

def waitUntil (x : Exchange ρ) (done : Exchange ρ → Bool) : Exchange ρ :=
  waitWithin done (2 * x.calls.length + 2) x

def await (x : Exchange ρ) (k : Nat) : Exchange ρ := x.waitUntil fun x => (x.outcome? k).isSome

def runFirst (x : Exchange ρ) (k : Nat) : Exchange ρ :=
  { x with ready := x.ready.filter (· ≠ k) }.run k

/-- Makes a call at once and waits for it alone: others go on only while it waits. -/
def callNow (x : Exchange ρ) (n : Nat) (i : Invocation) : Exchange ρ × Nat :=
  let (x, k) := x.enlist n i none
  let x := x.run k
  match (x.call? k).bind Call.due? with
  | none => (x, k)
  | some due => ((x.passUntil due).runFirst k, k)

end DynamicUi.Exchange
