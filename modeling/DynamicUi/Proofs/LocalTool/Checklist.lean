import DynamicUi.LocalTool
import DynamicUi.Proofs.Text.Trim
import Mathlib.Data.List.InsertIdx

/-! # Checklists

The list tools keep a checklist under one key of the state and a counter under another. Entries are
numbered by the counter, which never goes back, so that no number is given to two entries, not even
to entries that are gone. A call that is refused leaves both keys alone.
-/

namespace DynamicUi

open Json

namespace Checklist

structure Entry where
  number : Nat
  value : Value
  done : Bool
deriving DecidableEq

namespace Entry

def id (e : Entry) : String := s!"item-{e.number}"

def encode (e : Entry) : Value :=
  .record [("id", .string e.id), ("value", e.value), ("done", .bool e.done)]

def flip (e : Entry) : Entry := { e with done := !e.done }

theorem id_eq (e : Entry) : e.id = freshId "item" e.number := by
  have hdash : "item-" = "item" ++ "-" := by decide
  show "item-" ++ toString e.number = _
  rw [hdash]
  rfl

theorem number_of_id {e e' : Entry} (h : e.id = e'.id) : e.number = e'.number := by
  rw [id_eq, id_eq] at h
  exact freshId_number h

theorem encode_eq (e : Entry) :
    e.encode = .object [("done", .bool e.done), ("id", .string e.id), ("value", e.value)] := by
  have hdone : precedes "done" "id" = true := by decide
  have hvalue : precedes "value" "id" = false := by decide
  simp [encode, Value.record, KeyMap.ofList, KeyMap.insert, hdone, hvalue]

theorem encode_id (e : Entry) : (e.encode.member? "id").bind Value.asString? = some e.id := by
  rw [encode_eq]
  simp [Value.member?, KeyMap.get?, Value.asString?]

theorem flipDone_encode (e : Entry) : LocalTool.flipDone e.encode = e.flip.encode := by
  rw [encode_eq, encode_eq]
  simp [LocalTool.flipDone, KeyMap.get?, KeyMap.insert, Value.asBool?, flip, id]

end Entry

inductive Address where
  | id (text : String)
  | position (i : Nat)

inductive Request where
  | add (item : Value)
  | remove (which : Option Address)
  | toggle (which : Option Address)
  | clear

inductive Refusal where
  | emptyItem
  | exhausted
  | unknownEntry

end Checklist

/-- The entries in order, and the number of all that there have been. -/
structure Checklist where
  entries : List Checklist.Entry
  issued : Nat

namespace Checklist

def empty : Checklist := ⟨[], 0⟩

def addressed? (c : Checklist) : Address → Option Entry
  | .id text => c.entries.find? fun e => e.id = text
  | .position i => c.entries[i]?

def answer (c : Checklist) : Request → Except Refusal (Checklist × Value)
  | .add item =>
    let e : Entry := ⟨c.issued + 1, item, false⟩
    if LocalTool.isEmptyItem item then .error .emptyItem
    else if maxWhole ≤ e.number then .error .exhausted
    else .ok (⟨c.entries ++ [e], e.number⟩, e.encode)
  | .remove which =>
    match which.bind c.addressed? with
    | none => .error .unknownEntry
    | some e => .ok ({ c with entries := c.entries.filter (·.number ≠ e.number) }, e.encode)
  | .toggle which =>
    match which.bind c.addressed? with
    | none => .error .unknownEntry
    | some e =>
      let entries := c.entries.map fun e' => if e'.number = e.number then e'.flip else e'
      .ok ({ c with entries }, e.flip.encode)
  | .clear => .ok ({ c with entries := [] }, .null)

def after (c : Checklist) (r : Request) : Checklist :=
  match c.answer r with
  | .ok (c', _) => c'
  | .error _ => c

def run (c : Checklist) (rs : List Request) : Checklist := rs.foldl after c

/-! ## The order of the entries -/

/-- The numbers ascend, and none is beyond those that were given out. -/
structure Sound (c : Checklist) : Prop where
  ascending : c.entries.Pairwise (·.number < ·.number)
  issued : ∀ e ∈ c.entries, e.number ≤ c.issued

variable {c c' : Checklist} {v : Value}

theorem sound_empty : empty.Sound := ⟨.nil, nofun⟩

theorem Sound.answer (h : c.Sound) {r : Request} (hr : c.answer r = .ok (c', v)) :
    c'.Sound ∧ c.issued ≤ c'.issued := by
  cases r with
  | add item =>
    simp only [Checklist.answer] at hr
    split at hr
    · cases hr
    · split at hr
      · cases hr
      · cases hr
        refine ⟨⟨List.pairwise_append.mpr ⟨h.ascending, List.pairwise_singleton .., ?_⟩, ?_⟩,
          Nat.le_succ _⟩
        · intro e he e' he'
          rw [List.mem_singleton.mp he']
          exact Nat.lt_succ_of_le (h.issued e he)
        · intro e he
          rcases List.mem_append.mp he with he | he
          · exact (h.issued e he).trans (Nat.le_succ _)
          · rw [List.mem_singleton.mp he]
  | remove which =>
    simp only [Checklist.answer] at hr
    split at hr
    · cases hr
    · cases hr
      refine ⟨⟨h.ascending.filter _, fun e he => ?_⟩, Nat.le_refl _⟩
      exact h.issued e (List.mem_filter.mp he).1
  | toggle which =>
    simp only [Checklist.answer] at hr
    split at hr
    · cases hr
    · next e _ =>
      cases hr
      have hnumber : ∀ e' : Entry,
          (if e'.number = e.number then e'.flip else e').number = e'.number := by
        intro e'
        split <;> rfl
      refine ⟨⟨List.pairwise_map.mpr (h.ascending.imp fun hlt => ?_), ?_⟩, Nat.le_refl _⟩
      · rw [hnumber, hnumber]
        exact hlt
      · intro e' he'
        obtain ⟨e'', he'', rfl⟩ := List.mem_map.mp he'
        rw [hnumber]
        exact h.issued e'' he''
  | clear =>
    cases hr
    exact ⟨⟨.nil, nofun⟩, Nat.le_refl _⟩

/-! ## One entry among the others -/

theorem eraseIdx_eq_filter {entries : List Entry} (h : entries.Pairwise (·.number < ·.number))
    {i : Nat} {e : Entry} (he : entries[i]? = some e) :
    entries.eraseIdx i = entries.filter (·.number ≠ e.number) := by
  induction entries generalizing i with
  | nil => cases he
  | cons a entries ih =>
    obtain ⟨hfirst, hrest⟩ := List.pairwise_cons.mp h
    cases i with
    | zero =>
      obtain rfl : a = e := Option.some.inj he
      have hkept : ∀ b ∈ entries, decide (b.number ≠ a.number) = true :=
        fun b hb => decide_eq_true (hfirst b hb).ne'
      rw [List.eraseIdx_cons_zero, List.filter_cons_of_neg (by simp),
        List.filter_eq_self.mpr hkept]
    | succ i =>
      have hless : a.number < e.number := hfirst e (List.mem_of_getElem? he)
      rw [List.eraseIdx_cons_succ, List.filter_cons_of_pos (by simpa using hless.ne), ih hrest he]

theorem set_eq_map {entries : List Entry} (h : entries.Pairwise (·.number < ·.number)) {i : Nat}
    {e : Entry} (he : entries[i]? = some e) :
    entries.set i e.flip = entries.map fun e' => if e'.number = e.number then e'.flip else e' := by
  induction entries generalizing i with
  | nil => cases he
  | cons a entries ih =>
    obtain ⟨hfirst, hrest⟩ := List.pairwise_cons.mp h
    cases i with
    | zero =>
      obtain rfl : a = e := Option.some.inj he
      have hkept : entries.map (fun b => if b.number = a.number then b.flip else b) = entries :=
        (List.map_congr_left fun b hb => if_neg (hfirst b hb).ne').trans (List.map_id' entries)
      rw [List.set_cons_zero, List.map_cons, if_pos rfl, hkept]
    | succ i =>
      have hless : a.number < e.number := hfirst e (List.mem_of_getElem? he)
      rw [List.set_cons_succ, List.map_cons, if_neg hless.ne, ih hrest he]

/-! ## Calls -/

def address? (params : Fields) : Option Address :=
  match LocalTool.wantedItem? params with
  | some (.string text) => some (.id text)
  | some (.number n) => n.toNat?.map .position
  | _ => none

def request? (u : LocalUse) : Option Request :=
  let params := u.invocation.params
  match u.invocation.tool with
  | "ui.list.add" =>
    some (.add (((params.firstOf? ["item", "value"]).or u.payload).getD .null))
  | "ui.list.remove" => some (.remove (address? params))
  | "ui.list.toggle" => some (.toggle (address? params))
  | "ui.list.clear" => some .clear
  | _ => none

def Refusal.error (u : LocalUse) : Refusal → CallError
  | .emptyItem => .invalidParams u.invocation.tool "item must not be empty"
  | .exhausted => .invalidParams u.invocation.tool "item id counter exhausted"
  | .unknownEntry => LocalTool.missingItem u

open LocalTool (counterKey counterKey_ne)

/-- The state keeps the checklist. A key that was never written stands for nothing. -/
structure Keeps (read : String → Option Value) (list : String) (c : Checklist) : Prop where
  items : read list = some (.array (c.entries.map Entry.encode)) ∨ read list = none ∧ c.entries = []
  counter : read (counterKey list) = some (.nat (c.issued + 1)) ∨
    read (counterKey list) = none ∧ c.issued = 0

section Keeps

variable {read : String → Option Value} {list : String} {u : LocalUse} {r : Request}

theorem Keeps.itemsAt (h : Keeps read list c) :
    LocalTool.itemsAt read list = c.entries.map Entry.encode := by
  unfold LocalTool.itemsAt
  rcases h.items with hitems | ⟨hitems, hnil⟩
  · rw [hitems]
    rfl
  · rw [hitems, hnil]
    rfl

theorem Keeps.next (h : Keeps read list c) :
    ((read (counterKey list)).bind Value.asNat?).getD 1 = c.issued + 1 := by
  rcases h.counter with hcounter | ⟨hcounter, hzero⟩
  · rw [hcounter]
    simp only [Option.bind_some, Value.nat, Value.asNat?, Number.toNat?]
    rfl
  · rw [hcounter, hzero]
    rfl

theorem itemIndex?_lt {items : List Value} {params : Fields} {i : Nat}
    (hi : LocalTool.itemIndex? items params = some i) : i < items.length := by
  unfold LocalTool.itemIndex? at hi
  split at hi
  · exact (List.findIdx?_eq_some_iff_findIdx_eq.mp hi).1
  · exact of_decide_eq_true (Option.filter_eq_some_iff.mp hi).2
  · cases hi

theorem addressed?_eq (c : Checklist) (params : Fields) :
    (address? params).bind c.addressed? =
      (LocalTool.itemIndex? (c.entries.map Entry.encode) params).bind (c.entries[·]?) := by
  unfold LocalTool.itemIndex? address?
  cases LocalTool.wantedItem? params with
  | none => rfl
  | some v =>
    cases v with
    | string text =>
      have hid : ((fun item : Value => decide ((item.member? "id").bind Value.asString? =
          some text)) ∘ Entry.encode) = fun e => decide (e.id = text) := by
        funext e
        simp only [Function.comp_apply, Entry.encode_id, Option.some.injEq]
      simp only [Option.bind_some, addressed?, List.findIdx?_map, hid]
      exact List.find?_eq_bind_findIdx?_getElem?
    | number n =>
      simp only [List.length_map]
      cases n.toNat? with
      | none => rfl
      | some i =>
        simp only [Option.map_some, Option.bind_some, addressed?, Option.filter_some]
        split
        · rfl
        · next hlt => exact List.getElem?_eq_none (by simpa using hlt)
    | null | bool | array | object => rfl

theorem Keeps.onItem_eq (h : Keeps read list c)
    (hlist : LocalTool.listParam u.invocation.params = list)
    (f : List Value → Nat → Value → List Value × Value) :
    match (address? u.invocation.params).bind c.addressed? with
    | none => LocalTool.onItem read u f = .error (LocalTool.missingItem u)
    | some e => ∃ i, c.entries[i]? = some e ∧ LocalTool.onItem read u f =
        let (items, result) := f (c.entries.map Entry.encode) i e.encode
        .ok ⟨[(list, .array items)], result⟩ := by
  rw [addressed?_eq]
  simp only [LocalTool.onItem, hlist, h.itemsAt]
  cases hi : LocalTool.itemIndex? (c.entries.map Entry.encode) u.invocation.params with
  | none => rfl
  | some i =>
    have hlt : i < c.entries.length := by simpa using itemIndex?_lt hi
    have he : c.entries[i]? = some c.entries[i] := List.getElem?_eq_getElem hlt
    simp only [Option.bind_some, he, List.getElem?_map, Option.map_some, Option.getD_some]
    exact ⟨i, he, rfl⟩

end Keeps

/-! ## Runs -/

section Runs

variable {κ : Type} {s : Store κ} {list : String} {u : LocalUse} {r : Request}

theorem Keeps.set_items (h : Keeps s.get? list c) (entries : List Entry) :
    Keeps (s.set list (.array (entries.map Entry.encode))).1.get? list { c with entries } := by
  constructor
  · rw [Store.get?_set, if_pos rfl]
    exact .inl rfl
  · rw [Store.get?_set, if_neg (counterKey_ne list).symm]
    exact h.counter

theorem keeps_set_both (s : Store κ) (list : String) (c : Checklist) :
    Keeps ((s.set (counterKey list) (.nat (c.issued + 1))).1.set list
      (.array (c.entries.map Entry.encode))).1.get? list c := by
  constructor
  · rw [Store.get?_set, if_pos rfl]
    exact .inl rfl
  · rw [Store.get?_set, if_neg (counterKey_ne list).symm, Store.get?_set, if_pos rfl]
    exact .inl rfl

theorem request?_cases (hr : request? u = some r) :
    (u.invocation.tool = "ui.list.add" ∧
      r = .add (((u.invocation.params.firstOf? ["item", "value"]).or u.payload).getD .null)) ∨
    (u.invocation.tool = "ui.list.remove" ∧ r = .remove (address? u.invocation.params)) ∨
    (u.invocation.tool = "ui.list.toggle" ∧ r = .toggle (address? u.invocation.params)) ∨
    (u.invocation.tool = "ui.list.clear" ∧ r = .clear) := by
  unfold request? at hr
  simp only at hr
  split at hr
  · next htool => exact .inl ⟨htool, (Option.some.inj hr).symm⟩
  · next htool => exact .inr (.inl ⟨htool, (Option.some.inj hr).symm⟩)
  · next htool => exact .inr (.inr (.inl ⟨htool, (Option.some.inj hr).symm⟩))
  · next htool => exact .inr (.inr (.inr ⟨htool, (Option.some.inj hr).symm⟩))
  · cases hr

/-- The outcome of a call and the state after it are those of the checklist. -/
def Agrees (s : Store κ) (list : String) (u : LocalUse) : Except Refusal (Checklist × Value) → Prop
  | .ok (c', v) => (s.runLocal u).2.2 = .ok v ∧ Keeps (s.runLocal u).1.get? list c'
  | .error f => s.runLocal u = (s, [], .error (f.error u))

theorem agrees_error {f : Refusal} (h : LocalTool.effect s.get? u = .error (f.error u)) :
    Agrees s list u (.error f) := by
  unfold Agrees Store.runLocal
  rw [h]

theorem agrees_ok {writes : List (String × Value)} (h : LocalTool.effect s.get? u = .ok ⟨writes, v⟩)
    (hkeeps : Keeps (s.setAll writes).1.get? list c') : Agrees s list u (.ok (c', v)) := by
  unfold Agrees Store.runLocal
  rw [h]
  exact ⟨rfl, hkeeps⟩

theorem Keeps.agrees_add (h : Keeps s.get? list c)
    (hlist : LocalTool.listParam u.invocation.params = list)
    (heffect : LocalTool.effect s.get? u = LocalTool.addItem s.get? u) :
    Agrees s list u (c.answer
      (.add (((u.invocation.params.firstOf? ["item", "value"]).or u.payload).getD .null))) := by
  simp only [LocalTool.addItem, hlist, h.next, h.itemsAt] at heffect
  generalize ((u.invocation.params.firstOf? ["item", "value"]).or u.payload).getD .null = item
    at heffect ⊢
  simp only [answer]
  split
  · next hempty =>
    rw [if_pos hempty] at heffect
    exact agrees_error heffect
  · next hempty =>
    rw [if_neg hempty] at heffect
    split
    · next hgreatest =>
      rw [if_pos hgreatest] at heffect
      exact agrees_error heffect
    · next hgreatest =>
      rw [if_neg hgreatest] at heffect
      have hkeeps := keeps_set_both s list
        ⟨c.entries ++ [⟨c.issued + 1, item, false⟩], c.issued + 1⟩
      rw [List.map_append] at hkeeps
      exact agrees_ok heffect hkeeps

theorem Keeps.agrees_onItem (h : Keeps s.get? list c)
    (hlist : LocalTool.listParam u.invocation.params = list)
    {f : List Value → Nat → Value → List Value × Value}
    (heffect : LocalTool.effect s.get? u = LocalTool.onItem s.get? u f)
    (change : Entry → List Entry × Value)
    (hchange : ∀ i e, c.entries[i]? = some e → f (c.entries.map Entry.encode) i e.encode =
      ((change e).1.map Entry.encode, (change e).2)) :
    Agrees s list u (match (address? u.invocation.params).bind c.addressed? with
      | none => .error .unknownEntry
      | some e => .ok ({ c with entries := (change e).1 }, (change e).2)) := by
  have honItem := h.onItem_eq hlist f
  cases haddress : (address? u.invocation.params).bind c.addressed? with
  | none =>
    rw [haddress] at honItem
    exact agrees_error (heffect.trans honItem)
  | some e =>
    rw [haddress] at honItem
    obtain ⟨i, he, honItem⟩ := honItem
    rw [hchange i e he] at honItem
    exact agrees_ok (heffect.trans honItem) (h.set_items (change e).1)

theorem Keeps.agrees (h : Keeps s.get? list c) (hs : c.Sound)
    (hlist : LocalTool.listParam u.invocation.params = list) (hr : request? u = some r) :
    Agrees s list u (c.answer r) := by
  rcases request?_cases hr with ⟨htool, rfl⟩ | ⟨htool, rfl⟩ | ⟨htool, rfl⟩ | ⟨htool, rfl⟩
  · exact h.agrees_add hlist (by simp only [LocalTool.effect, htool])
  · have heffect : LocalTool.effect s.get? u = LocalTool.removeItem s.get? u := by
      simp only [LocalTool.effect, htool]
    refine h.agrees_onItem hlist heffect
      (fun e => (c.entries.filter (·.number ≠ e.number), e.encode)) fun i e he => ?_
    rw [List.eraseIdx_map, eraseIdx_eq_filter hs.ascending he]
  · have heffect : LocalTool.effect s.get? u = LocalTool.toggleItem s.get? u := by
      simp only [LocalTool.effect, htool]
    refine h.agrees_onItem hlist heffect
      (fun e => (c.entries.map fun e' => if e'.number = e.number then e'.flip else e',
        e.flip.encode)) fun i e he => ?_
    rw [Entry.flipDone_encode, ← List.map_set, set_eq_map hs.ascending he]
  · have heffect : LocalTool.effect s.get? u = .ok (LocalTool.clearItems u) := by
      simp only [LocalTool.effect, htool]
    rw [LocalTool.clearItems, hlist] at heffect
    exact agrees_ok heffect (h.set_items [])

theorem Agrees.keeps (h : Keeps s.get? list c) (ha : Agrees s list u (c.answer r)) :
    Keeps (s.runLocal u).1.get? list (c.after r) := by
  unfold after
  cases hanswer : c.answer r with
  | ok next =>
    rw [hanswer] at ha
    exact ha.2
  | error f =>
    rw [hanswer] at ha
    have hsame : s.runLocal u = (s, [], .error (f.error u)) := ha
    rw [hsame]
    exact h

theorem Sound.after (h : c.Sound) (r : Request) :
    (c.after r).Sound ∧ c.issued ≤ (c.after r).issued := by
  unfold Checklist.after
  cases hanswer : c.answer r with
  | ok next => exact h.answer hanswer
  | error f => exact ⟨h, Nat.le_refl _⟩

theorem Sound.run (h : c.Sound) (rs : List Request) :
    (c.run rs).Sound ∧ c.issued ≤ (c.run rs).issued := by
  induction rs generalizing c with
  | nil => exact ⟨h, Nat.le_refl _⟩
  | cons r rs ih =>
    obtain ⟨hafter, hle⟩ := h.after r
    obtain ⟨hrun, hle'⟩ := ih hafter
    exact ⟨hrun, hle.trans hle'⟩

theorem Sound.nodup_ids (h : c.Sound) : (c.entries.map Entry.id).Nodup :=
  List.pairwise_map.mpr (h.ascending.imp fun hlt hid => hlt.ne (Entry.number_of_id hid))

def serve (s : Store κ) (uses : List LocalUse) : Store κ :=
  uses.foldl (fun s u => (s.runLocal u).1) s

def OnList (list : String) (u : LocalUse) : Prop :=
  LocalTool.listParam u.invocation.params = list ∧ (request? u).isSome = true

instance (list : String) (u : LocalUse) : Decidable (OnList list u) :=
  inferInstanceAs (Decidable (_ ∧ _))

theorem Keeps.serve (h : Keeps s.get? list c) (hs : c.Sound) {uses : List LocalUse}
    (huses : ∀ u ∈ uses, OnList list u) :
    Keeps (serve s uses).get? list (c.run (uses.filterMap request?)) := by
  induction uses generalizing s c with
  | nil => exact h
  | cons u uses ih =>
    obtain ⟨⟨hlist, hsome⟩, hrest⟩ := List.forall_mem_cons.mp huses
    obtain ⟨r, hr⟩ := Option.isSome_iff_exists.mp hsome
    have hkeeps := (h.agrees hs hlist hr).keeps h
    rw [List.filterMap_cons_some hr]
    exact ih hkeeps (hs.after r).1 hrest

/-- However the tools of one list are called, on a state where neither of its keys is set: the state
keeps the checklist that the calls ask for, and the next call has the outcome that the checklist
answers with, or is refused and changes nothing. The entries stand in the order of their numbers, so
that no two have one id, and a new one has a number greater than all there have been, be they of
entries that are gone. -/
theorem list_tools_keep_checklist {uses : List LocalUse} (hlist : s.get? list = none)
    (hcounter : s.get? (counterKey list) = none) (huses : ∀ u ∈ uses, OnList list u) :
    let now := serve s uses
    let c := empty.run (uses.filterMap request?)
    Keeps now.get? list c ∧
    (∀ u r, LocalTool.listParam u.invocation.params = list → request? u = some r →
      match c.answer r with
      | .ok (c', v) => (now.runLocal u).2.2 = .ok v ∧ Keeps (now.runLocal u).1.get? list c'
      | .error f => now.runLocal u = (now, [], .error (f.error u))) ∧
    c.entries.Pairwise (·.number < ·.number) ∧ (c.entries.map Entry.id).Nodup ∧
    ∀ pre, pre <+: uses → ∀ e ∈ (empty.run (pre.filterMap request?)).entries,
      e.number < c.issued + 1 := by
  intro now c
  have hstart : Keeps s.get? list empty := ⟨.inr ⟨hlist, rfl⟩, .inr ⟨hcounter, rfl⟩⟩
  have hkeeps : Keeps now.get? list c := hstart.serve sound_empty huses
  have hsound : c.Sound := (sound_empty.run _).1
  refine ⟨hkeeps, fun u r hu hr => ?_, hsound.ascending, hsound.nodup_ids, ?_⟩
  · have hagrees := hkeeps.agrees hsound hu hr
    unfold Agrees at hagrees
    exact hagrees
  · rintro pre ⟨post, rfl⟩ e he
    have hpre := (sound_empty.run (pre.filterMap request?)).1
    have hlater : c = (empty.run (pre.filterMap request?)).run (post.filterMap request?) := by
      show empty.run ((pre ++ post).filterMap request?) = _
      rw [List.filterMap_append, Checklist.run, List.foldl_append]
      rfl
    rw [hlater]
    exact Nat.lt_succ_of_le ((hpre.issued e he).trans (hpre.run _).2)

/-- The first of two entries is removed by its position, the other is marked, and a third one is
added after a call that addresses the entry that is gone. -/
theorem checklist_of_six_calls :
    let call (tool : String) (params : Fields) : LocalUse := ⟨⟨tool, params, none⟩, "c", [], none⟩
    let uses := [call "ui.list.add" [("item", .string "milk")],
      call "ui.list.add" [("item", .string "eggs")], call "ui.list.remove" [("item_id", .nat 0)],
      call "ui.list.toggle" [("item_id", .string "item-2")],
      call "ui.list.remove" [("item_id", .string "item-1")],
      call "ui.list.add" [("item", .string "tea")]]
    LocalTool.itemsAt (serve (Store.empty : Store Unit) uses).get? "items" =
      [⟨2, .string "eggs", true⟩, ⟨3, .string "tea", false⟩].map Entry.encode := by
  intro call uses
  obtain ⟨hkeeps, -⟩ := @list_tools_keep_checklist Unit .empty "items" uses rfl rfl (by decide)
  have hentries : (empty.run (uses.filterMap request?)).entries =
      [⟨2, .string "eggs", true⟩, ⟨3, .string "tea", false⟩] := by decide
  rw [hkeeps.itemsAt, hentries]

end Runs

end Checklist

end DynamicUi
