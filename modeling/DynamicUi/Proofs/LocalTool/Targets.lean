import DynamicUi.Proofs.LocalTool.Stepwise
import Mathlib.Data.List.Basic

/-! # What a local call touches

A local call works on one key; only the tool that adds to a list writes a second one, the counter
of the list. A call that fails has written nothing and called nobody, and one that succeeds has
written these keys and called those who listen to them, and no others.
-/

namespace DynamicUi

open Json

namespace Store

variable {κ : Type} (s : Store κ)

theorem get?_setAll_of_not_mem {entries : List (String × Value)} {key : String}
    (h : key ∉ entries.map Prod.fst) : (s.setAll entries).1.get? key = s.get? key := by
  induction entries generalizing s with
  | nil => rfl
  | cons e entries ih =>
    rw [List.map_cons, List.mem_cons, not_or] at h
    obtain ⟨hfirst, hrest⟩ := h
    simp only [setAll]
    rw [ih _ hrest, get?_set, if_neg (Ne.symm hfirst)]

theorem setAll_called (entries : List (String × Value)) :
    (s.setAll entries).2 = (entries.map Prod.fst).flatMap s.listenersOf := by
  induction entries generalizing s with
  | nil => rfl
  | cons e entries ih =>
    have hlisteners : (s.set e.1 e.2).1.listenersOf = s.listenersOf := rfl
    simp only [setAll, ih, hlisteners, List.map_cons, List.flatMap_cons]
    rfl

end Store

namespace LocalTool

def storing : List String :=
  ["ui.set", "ui.append", "ui.clear", "ui.backspace", "ui.toggle", "ui.compute"]

def listTools : List String := ["ui.list.add", "ui.list.remove", "ui.list.toggle", "ui.list.clear"]

/-- The key that a call works on: the one it names, or else its component's, the display or the
items. -/
def target (c : LocalUse) : String :=
  match c.invocation.tool with
  | "ui.set" | "ui.get" | "ui.toggle" => keyParam c.invocation.params c.component
  | "ui.append" | "ui.clear" | "ui.backspace" | "ui.compute" =>
    keyParam c.invocation.params displayKey
  | _ => listParam c.invocation.params

def written (c : LocalUse) : List String :=
  match c.invocation.tool with
  | "ui.get" => []
  | "ui.list.add" => [counterKey (target c), target c]
  | _ => [target c]

variable {read : String → Option Value} {c : LocalUse} {e : Effect}

theorem written_of_storing (h : c.invocation.tool ∈ storing) : written c = [target c] := by
  have hget : c.invocation.tool ≠ "ui.get" := fun he => absurd (he ▸ h) (by decide)
  have hadd : c.invocation.tool ≠ "ui.list.add" := fun he => absurd (he ▸ h) (by decide)
  unfold written
  split
  · next he => exact absurd he hget
  · next he => exact absurd he hadd
  · rfl

theorem mem_written {key : String} (h : key ∈ written c) :
    key = target c ∨ c.invocation.tool = "ui.list.add" ∧ key = counterKey (target c) := by
  unfold written at h
  split at h
  · cases h
  · next tool =>
    rw [List.mem_cons, List.mem_singleton] at h
    exact h.symm.imp_right fun he => ⟨tool, he⟩
  · exact .inl (List.mem_singleton.mp h)

inductive Does (read : String → Option Value) (c : LocalUse) : Effect → Prop
  | stores {key : String} {v : Value} (tool : c.invocation.tool ∈ storing)
    (hkey : key = target c) : Does read c (.store key v)
  | reads {key : String} (tool : c.invocation.tool = "ui.get") (hkey : key = target c) :
    Does read c ⟨[], (read key).getD .null⟩
  | lists {e : Effect} (tool : c.invocation.tool ∈ listTools)
    (keys : e.writes.map Prod.fst = written c) : Does read c e

theorem does_append (tool : c.invocation.tool = "ui.append") (h : append read c = .ok e) :
    Does read c e := by
  unfold append at h
  simp only at h
  split at h
  · cases h
  · cases h
    exact .stores (by simp [tool, storing]) (by simp [target, tool])

theorem does_addItem (tool : c.invocation.tool = "ui.list.add") (h : addItem read c = .ok e) :
    Does read c e := by
  unfold addItem at h
  simp only at h
  split at h
  · cases h
  · split at h
    · cases h
    · cases h
      exact .lists (by simp [tool, listTools]) (by simp [written, target, tool])

theorem does_onItem {f : List Value → Nat → Value → List Value × Value}
    (tool : c.invocation.tool ∈ listTools) (keys : written c = [listParam c.invocation.params])
    (h : onItem read c f = .ok e) : Does read c e := by
  unfold onItem at h
  simp only at h
  split at h
  · cases h
  · cases h
    exact .lists tool keys.symm

theorem does_of_effect (h : effect read c = .ok e) : Does read c e := by
  unfold effect at h
  -- the tools in the order of their table
  split at h
  case h_1 tool | h_4 tool | h_5 tool | h_6 tool | h_7 tool =>
    cases h
    exact .stores (by simp [tool, storing]) (by simp [target, tool])
  case h_2 tool =>
    cases h
    exact .reads tool (by simp [target, tool])
  case h_3 tool => exact does_append tool h
  case h_8 tool => exact does_addItem tool h
  case h_9 tool | h_10 tool =>
    exact does_onItem (by simp [tool, listTools]) (by simp [written, target, tool]) h
  case h_11 tool =>
    cases h
    exact .lists (by simp [tool, listTools]) (by simp [clearItems, written, target, tool])
  case h_12 => cases h

namespace Does

theorem keys (h : Does read c e) : e.writes.map Prod.fst = written c := by
  cases h with
  | stores tool hkey => rw [written_of_storing tool, ← hkey]; rfl
  | reads tool => simp [written, tool]
  | lists _ keys => exact keys

theorem eq_store (h : Does read c e) (tool : c.invocation.tool ∈ storing) :
    e = .store (target c) e.result := by
  cases h with
  | stores _ hkey => rw [hkey]; rfl
  | reads tool' => exact absurd (tool' ▸ tool) (by decide)
  | lists tool' => exact absurd tool' ((by decide : ∀ t ∈ storing, t ∉ listTools) _ tool)

theorem eq_read (h : Does read c e) (tool : c.invocation.tool = "ui.get") :
    e = ⟨[], (read (target c)).getD .null⟩ := by
  cases h with
  | stores tool' => exact absurd (tool ▸ tool') (by decide)
  | reads _ hkey => rw [hkey]
  | lists tool' => exact absurd (tool ▸ tool') (by decide)

theorem known (h : Does read c e) : c.invocation.tool ∈ "ui.get" :: storing ++ listTools := by
  cases h with
  | stores tool => exact List.mem_append_left _ (List.mem_cons_of_mem _ tool)
  | reads tool => exact tool ▸ List.mem_cons_self
  | lists tool => exact List.mem_append_right _ tool

end Does

/-- Local calls are atomic, also when they are carried out write by write. One that fails leaves
the whole store as it was and calls nobody. One that succeeds is of a known tool; it leaves the
values of all keys but those it writes, and calls those who listen to these, in turn. To read a key
is to write none. The tools that store what they return leave it under their key. -/
theorem local_call_atomic {κ : Type} (s : Store κ) (c : LocalUse) :
    (Stepwise.carryOut c).run s = s.runLocal c ∧
    match s.runLocal c with
    | (after, called, .error _) => after = s ∧ called = []
    | (after, called, .ok v) =>
      c.invocation.tool ∈ "ui.get" :: storing ++ listTools ∧
      (∀ key, key ≠ target c →
        ¬(c.invocation.tool = "ui.list.add" ∧ key = counterKey (target c)) →
        after.get? key = s.get? key) ∧
      called = (written c).flatMap s.listenersOf ∧
      (c.invocation.tool = "ui.get" → after = s ∧ v = (s.get? (target c)).getD .null) ∧
      (c.invocation.tool ∈ storing → after.get? (target c) = some v) := by
  refine ⟨Stepwise.run_carryOut s c, ?_⟩
  unfold Store.runLocal
  cases heffect : effect s.get? c with
  | error e => exact ⟨rfl, rfl⟩
  | ok e =>
    have hdoes := does_of_effect heffect
    refine ⟨hdoes.known, ?_, ?_, ?_, ?_⟩
    · intro key hkey hcounter
      apply s.get?_setAll_of_not_mem
      rw [hdoes.keys]
      intro hwritten
      exact (mem_written hwritten).elim hkey hcounter
    · rw [← hdoes.keys]
      exact s.setAll_called _
    · intro tool
      rw [hdoes.eq_read tool]
      exact ⟨rfl, rfl⟩
    · intro tool
      rw [hdoes.eq_store tool]
      exact (s.get?_set ..).trans (if_pos rfl)

end LocalTool

end DynamicUi
