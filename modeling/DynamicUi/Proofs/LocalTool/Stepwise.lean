import DynamicUi.LocalTool

/-! # Local tools write by write

A tool may as well work on the store itself: it reads and writes as it goes, and what it has
written by the time it gives up stays written. Run so, every tool does what its effect says. The
tool that adds to a list reads the items after it has counted on, which is why the counter must
have a key of its own.
-/

namespace DynamicUi

open Json

namespace LocalTool

/-- Works on a store and on the list of those it has called. A failure does not undo anything. -/
abbrev Stepwise (κ : Type) := ExceptT CallError (StateM (Store κ × List κ))

namespace Stepwise

variable {κ α β : Type}

def run (x : Stepwise κ Value) (s : Store κ) : Store κ × List κ × Except CallError Value :=
  let (result, after, called) := ExceptT.run x (s, [])
  (after, called, result)

def read (key : String) : Stepwise κ (Option Value) := fun st => (.ok (st.1.get? key), st)

def write (key : String) (v : Value) : Stepwise κ Unit :=
  fun (s, called) => (.ok (), (s.set key v).1, called ++ (s.set key v).2)

def shown (key : String) : Stepwise κ String := do return displayText ((← read key).getD .null)

def itemsAt (list : String) : Stepwise κ (List Value) := do
  return ((← read list).bind Value.asArray?).getD []

def store (key : String) (v : Value) : Stepwise κ Value := do
  write key v
  return v

def append (c : LocalUse) : Stepwise κ Value := do
  let key := keyParam c.invocation.params displayKey
  match suffix? c with
  | none => throw (.invalidParams c.invocation.tool "nothing to append")
  | some suffix => store key (.string (appended (← shown key) suffix))

def compute (c : LocalUse) : Stepwise κ Value := do
  let key := keyParam c.invocation.params displayKey
  match KeyMap.get? c.invocation.params "expression" with
  | some v => store key (.string (computed (displayText v)))
  | none => store key (.string (computed (← shown key)))

def addItem (c : LocalUse) : Stepwise κ Value := do
  let params := c.invocation.params
  let key := listParam params
  let item := ((params.firstOf? ["item", "value"]).or c.payload).getD .null
  if isEmptyItem item then throw (.invalidParams c.invocation.tool "item must not be empty")
  else
    let next := ((← read (counterKey key)).bind Value.asNat?).getD 1
    if maxWhole ≤ next then
      throw (.invalidParams c.invocation.tool "item id counter exhausted")
    else
      write (counterKey key) (.nat (next + 1))
      let entry := Value.record
        [("id", .string s!"item-{next}"), ("value", item), ("done", .bool false)]
      let items ← itemsAt key
      write key (.array (items ++ [entry]))
      return entry

def onItem (c : LocalUse) (f : List Value → Nat → Value → List Value × Value) :
    Stepwise κ Value := do
  let key := listParam c.invocation.params
  let items ← itemsAt key
  match itemIndex? items c.invocation.params with
  | none => throw (missingItem c)
  | some i =>
    let (items, result) := f items i (items[i]?.getD .null)
    write key (.array items)
    return result

def carryOut (c : LocalUse) : Stepwise κ Value :=
  match c.invocation.tool with
  | "ui.set" =>
    let v := ((KeyMap.get? c.invocation.params "value").or c.payload).getD .null
    store (keyParam c.invocation.params c.component) v
  | "ui.get" => do return (← read (keyParam c.invocation.params c.component)).getD .null
  | "ui.append" => append c
  | "ui.clear" =>
    store (keyParam c.invocation.params displayKey)
      ((KeyMap.get? c.invocation.params "default").getD (.string "0"))
  | "ui.backspace" => do
    let key := keyParam c.invocation.params displayKey
    store key (.string (shortened (← shown key)))
  | "ui.toggle" => do
    let key := keyParam c.invocation.params c.component
    store key (.bool !(((← read key).bind Value.asBool?).getD false))
  | "ui.compute" => compute c
  | "ui.list.add" => addItem c
  | "ui.list.remove" => onItem c fun items i item => (items.eraseIdx i, item)
  | "ui.list.toggle" => onItem c fun items i item => (items.set i (flipDone item), flipDone item)
  | "ui.list.clear" => do
    write (listParam c.invocation.params) (.array [])
    return .null
  | tool => throw (.unknownTool tool)

def perform (s : Store κ) : Except CallError Effect → Store κ × List κ × Except CallError Value
  | .error e => (s, [], .error e)
  | .ok e => ((s.setAll e.writes).1, (s.setAll e.writes).2, .ok e.result)

variable (s : Store κ) (c : LocalUse)

theorem run_write (key : String) (v result : Value) :
    (do write key v; return result).run s = perform s (.ok ⟨[(key, v)], result⟩) := by
  simp only [perform, Store.setAll, List.append_nil]
  rfl

theorem run_store (key : String) (v : Value) :
    (store key v).run s = perform s (.ok (.store key v)) := run_write s key v v

theorem run_append : (append c).run s = perform s (LocalTool.append s.get? c) := by
  unfold append LocalTool.append
  cases suffix? c with
  | none => rfl
  | some suffix => exact run_store s _ _

theorem run_compute : (compute c).run s = perform s (.ok (LocalTool.compute s.get? c)) := by
  unfold compute LocalTool.compute
  cases KeyMap.get? c.invocation.params "expression" with
  | none => exact run_store s _ _
  | some v => exact run_store s _ _

theorem run_itemsAt (list : String) (f : List Value → Stepwise κ Value) :
    (itemsAt list >>= f).run s = (f (LocalTool.itemsAt s.get? list)).run s := rfl

theorem run_onItem (f : List Value → Nat → Value → List Value × Value) :
    (onItem c f).run s = perform s (LocalTool.onItem s.get? c f) := by
  unfold onItem LocalTool.onItem
  simp only [run_itemsAt]
  cases itemIndex? (LocalTool.itemsAt s.get? (listParam c.invocation.params))
      c.invocation.params with
  | none => rfl
  | some i => exact run_write s _ _ _

theorem itemsAt_counted (list : String) (v : Value) :
    LocalTool.itemsAt (s.set (counterKey list) v).1.get? list = LocalTool.itemsAt s.get? list := by
  simp only [LocalTool.itemsAt, Store.get?_set, if_neg (counterKey_ne list)]

theorem run_addItem : (addItem c).run s = perform s (LocalTool.addItem s.get? c) := by
  unfold addItem LocalTool.addItem
  simp only
  split
  · rfl
  · have hread : ∀ (key : String) (f : Option Value → Stepwise κ Value),
      (read key >>= f).run s = (f (s.get? key)).run s := fun _ _ => rfl
    simp only [hread]
    split
    · rfl
    · rw [← itemsAt_counted s _ (.nat (_ + 1))]
      simp only [perform, Store.setAll, List.append_nil]
      rfl

/-- A tool that works on the store itself ends as it does when its effect is computed first. -/
theorem run_carryOut : (carryOut c).run s = s.runLocal c := by
  show _ = perform s (effect s.get? c)
  unfold carryOut
  split
  case h_1 tool | h_4 tool | h_5 tool | h_6 tool =>
    simp only [effect, tool]
    exact run_store s _ _
  case h_2 tool | h_12 tool =>
    simp only [effect, tool]
    rfl
  case h_11 tool =>
    simp only [effect, tool]
    exact run_write s _ _ _
  case h_3 tool =>
    simp only [effect, tool]
    exact run_append s c
  case h_7 tool =>
    simp only [effect, tool]
    exact run_compute s c
  case h_8 tool =>
    simp only [effect, tool]
    exact run_addItem s c
  case h_9 tool | h_10 tool =>
    simp only [effect, tool]
    exact run_onItem s c _

end Stepwise
end LocalTool
end DynamicUi
