import DynamicUi.Json.Basic

/-! # Assembling tables

A document fills its tables line by line. What may still be added to a table depends on how it
came about: by a header, on the way to a header, or by a dotted key. Values are closed.
-/

namespace DynamicUi.Toml

open Json

inductive Origin where
  | header
  | passage
  | dotted
deriving DecidableEq

inductive Entry where
  | closed (v : Value)
  | table (origin : Origin) (entries : List (String × Entry))
  /-- The tables of an array; the last one is open. -/
  | tables (all : List (List (String × Entry)))

abbrev Entries := KeyMap Entry

namespace Entries

def addValue : List String → String → Value → Entries → Option Entries
  | [], key, v, es =>
    if KeyMap.contains es key then none else some (KeyMap.insert es key (.closed v))
  | k :: ks, key, v, es =>
    match KeyMap.get? es k with
    | none => do
      let inner ← addValue ks key v []
      return KeyMap.insert es k (.table .dotted inner)
    | some (.table origin inner) =>
      if origin = .header || (ks.isEmpty && origin ≠ .dotted) then none
      else do
        let inner ← addValue ks key v inner
        return KeyMap.insert es k (.table origin inner)
    | some (.tables all) =>
      match all.getLast? with
      | none => none
      | some last =>
        if ks.isEmpty then none
        else do
          let last ← addValue ks key v last
          return KeyMap.insert es k (.tables (all.dropLast ++ [last]))
    | some (.closed _) => none

def atPath (f : Entries → Option Entries) : List String → Entries → Option Entries
  | [], es => f es
  | k :: ks, es =>
    match KeyMap.get? es k with
    | none => do
      let inner ← atPath f ks []
      return KeyMap.insert es k (.table .passage inner)
    | some (.table origin inner) => do
      let inner ← atPath f ks inner
      return KeyMap.insert es k (.table origin inner)
    | some (.tables all) =>
      match all.getLast? with
      | none => none
      | some last => do
        let last ← atPath f ks last
        return KeyMap.insert es k (.tables (all.dropLast ++ [last]))
    | some (.closed _) => none

/-- Opens the table of a header; only a table met in passage may be there already. -/
def openTable (passage : List String) (key : String) : Entries → Option Entries :=
  atPath (fun es =>
    match KeyMap.get? es key with
    | none => some (KeyMap.insert es key (.table .header []))
    | some (.table .passage inner) => some (KeyMap.insert es key (.table .header inner))
    | some _ => none) passage

def openElement (passage : List String) (key : String) : Entries → Option Entries :=
  atPath (fun es =>
    match KeyMap.get? es key with
    | none => some (KeyMap.insert es key (.tables [[]]))
    | some (.tables all) => some (KeyMap.insert es key (.tables (all ++ [[]])))
    | some _ => none) passage

end Entries

mutual

def Entry.toValue : Entry → Value
  | .closed v => v
  | .table _ entries => .object (fieldsOf entries)
  | .tables all => .array (tablesOf all)

def fieldsOf : List (String × Entry) → List (String × Value)
  | [] => []
  | (k, e) :: es => (k, e.toValue) :: fieldsOf es

def tablesOf : List (List (String × Entry)) → List Value
  | [] => []
  | t :: ts => .object (fieldsOf t) :: tablesOf ts

end

end DynamicUi.Toml
