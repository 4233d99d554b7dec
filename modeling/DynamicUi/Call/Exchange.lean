import DynamicUi.Call.Caller

/-! # Calls under way

All callers share one backend, one clock and one queue of calls that are ready to go on.
A submitted call is queued. When it is run for the first time it is refused or reaches the
backend, and waits there if the answer takes time. A call that has been woken settles when it
is run again: as its reply says, or as disposed if its caller was cleaned up meanwhile.
Settling posts one message, which stays until it is collected.
-/

namespace DynamicUi

inductive Stage where
  | queued
  | waiting (due : Nat) (outcome : Outcome)
  | woken (outcome : Outcome)
  | settled (outcome : Outcome)

/-- A call; `ρ` is the type of the notes that come back with the message of its settling. -/
structure Call (ρ : Type) where
  caller : Nat
  id : Nat
  invocation : Invocation
  /-- A call that is awaited where it is made has no note, and posts nothing. -/
  note? : Option ρ
  stage : Stage

structure Settlement (ρ : Type) where
  caller : Nat
  callId : Nat
  note : ρ
  outcome : Outcome

structure Exchange (ρ : Type) where
  backend : Backend
  clock : Nat
  background : Bool
  callers : List Caller
  calls : List (Call ρ)
  /-- The positions of the calls that can go on, the first to be run first. -/
  ready : List Nat
  /-- The messages nobody has collected, the oldest one first. -/
  posted : List (Settlement ρ)

namespace Call

variable {ρ : Type}

def due? (c : Call ρ) : Option Nat :=
  match c.stage with
  | .waiting due _ => some due
  | _ => none

def outcome? (c : Call ρ) : Option Outcome :=
  match c.stage with
  | .settled o => some o
  | _ => none

def wake (c : Call ρ) : Call ρ :=
  match c.stage with
  | .waiting _ o => { c with stage := .woken o }
  | _ => c

def message? (c : Call ρ) (o : Outcome) : Option (Settlement ρ) :=
  c.note?.map fun note => ⟨c.caller, c.id, note, o⟩

end Call

namespace Exchange

variable {ρ : Type}

def ofBackend (b : Backend) (background : Bool) : Exchange ρ := ⟨b, 0, background, [], [], [], []⟩

def addCaller (x : Exchange ρ) (d : Caller) : Exchange ρ × Nat :=
  ({ x with callers := x.callers ++ [d] }, x.callers.length)

def onCaller (x : Exchange ρ) (n : Nat) (f : Caller → Caller) : Exchange ρ :=
  { x with callers := x.callers.modify n f }

def setStage (x : Exchange ρ) (k : Nat) (s : Stage) : Exchange ρ :=
  { x with calls := x.calls.modify k fun c => { c with stage := s } }

def call? (x : Exchange ρ) (k : Nat) : Option (Call ρ) := x.calls[k]?

def outcome? (x : Exchange ρ) (k : Nat) : Option Outcome := (x.call? k).bind Call.outcome?

def settle (x : Exchange ρ) (k : Nat) (c : Call ρ) (o : Outcome) : Exchange ρ :=
  let x := (x.setStage k (.settled o)).onCaller c.caller (·.removePending c.id)
  { x with posted := x.posted ++ (c.message? o).toList }

def send (x : Exchange ρ) (k : Nat) (c : Call ρ) (d : Caller) (app : String) : Exchange ρ :=
  let (backend, reply) := x.backend.receive ⟨c.id, app, c.invocation.tool, c.invocation.params⟩
  let x := { x with backend }.onCaller c.caller (·.addPending c.id)
  let reply := d.bounded c.invocation.tool reply
  if reply.delay = 0 then x.settle k c reply.outcome
  else x.setStage k (.waiting (x.clock + reply.delay) reply.outcome)

def start (x : Exchange ρ) (k : Nat) (c : Call ρ) (d : Caller) : Exchange ρ :=
  match d.accept c.invocation with
  | .error e => x.settle k c (.error e)
  | .ok app => x.send k c d app

def finalOutcome (d : Caller) (i : Invocation) (o : Outcome) : Outcome :=
  if d.disposed then .error (.disposed i.tool) else o

/-- Lets a call go on until it waits or is settled. -/
def run (x : Exchange ρ) (k : Nat) : Exchange ρ :=
  match x.call? k with
  | none => x
  | some c =>
    match x.callers[c.caller]?, c.stage with
    | some d, .queued => x.start k c d
    | some d, .woken o => x.settle k c (finalOutcome d c.invocation o)
    | _, _ => x

def runReady (x : Exchange ρ) : Exchange ρ := x.ready.foldl run { x with ready := [] }

def enlist (x : Exchange ρ) (n : Nat) (i : Invocation) (note? : Option ρ) : Exchange ρ × Nat :=
  let id := (x.callers[n]?.map Caller.nextCall).getD 0
  let x := x.onCaller n Caller.countCall
  ({ x with calls := x.calls ++ [⟨n, id, i, note?, .queued⟩] }, x.calls.length)

/-- Makes a call in the background; where there is none, the call fails at once. -/
def enqueue (x : Exchange ρ) (n : Nat) (i : Invocation) (note : ρ) : Exchange ρ × Nat :=
  let (x, k) := x.enlist n i (some note)
  if x.background then ({ x with ready := x.ready ++ [k] }, k)
  else
    match x.call? k with
    | some c => (x.settle k c (.error (.notStarted i.tool)), k)
    | none => (x, k)

def wakeWhere (x : Exchange ρ) (p : Call ρ → Nat → Bool) : Exchange ρ :=
  let picked (c : Call ρ) : Bool := c.due?.any (p c)
  { x with
    calls := x.calls.map fun c => if picked c then c.wake else c
    ready := x.ready ++ (x.calls.zipIdx.filter fun e => picked e.1).map Prod.snd }

/-- Cleans a caller up; its waiting calls go on, to settle as disposed. -/
def retire (x : Exchange ρ) (n : Nat) : Exchange ρ :=
  (x.wakeWhere fun c _ => c.caller = n).onCaller n Caller.retire

def inbox (x : Exchange ρ) (n : Nat) : List (Settlement ρ) :=
  x.posted.filter (·.caller = n)

def collect (x : Exchange ρ) (n : Nat) : Exchange ρ :=
  { x with posted := x.posted.filter (·.caller ≠ n) }

end Exchange

end DynamicUi
