import DynamicUi.Proofs.Blueprint.Agreement

/-! # How components are written

A blueprint writes a component as a bare text, as an entry that says its type, or as a compact
entry. Expansion treats the three alike once it is known which kind, id and props are written, and
which components below.
-/

namespace DynamicUi.Expansion

open Json

/-- A component as it is written. -/
inductive Source where
  | text (content : String)
  | explicit (fields : Fields)
  /-- The key and the body of the first member, which is empty if it is no object. -/
  | compact (key : String) (body : Fields)

def childrenOf (fields : Fields) : List Value :=
  ((KeyMap.get? fields "children").bind Value.asArray?).getD []

theorem HasChildren.childrenOf_eq {fields : Fields} {vs : List Value} (h : HasChildren fields vs) :
    childrenOf fields = vs := by
  unfold childrenOf
  rcases h with h | ⟨h, rfl⟩
  · rw [h]
    rfl
  · rw [h]
    rfl

theorem string?_eq_some_iff {fields : Fields} {name s : String} :
    fields.string? name = some s ↔ KeyMap.get? fields name = some (.string s) := by
  unfold Fields.string?
  cases KeyMap.get? fields name with
  | none => simp
  | some v => cases v <;> simp [Value.asString?]

namespace Source

/-- The component that a value writes; some values write none and are dropped. -/
def of? : Value → Option Source
  | .string content => some (.text content)
  | .object fields =>
    if KeyMap.contains fields "type" then some (.explicit fields)
    else fields.head?.map fun e => .compact e.1 (e.2.asObject?.getD [])
  | _ => none

def kind : Source → String
  | text _ => "text"
  | explicit fields => kindOf fields
  | compact key _ => (splitKey key).1

def id? : Source → Option String
  | text _ => none
  | explicit fields => (fields.string? "id").filter (· ≠ "")
  | compact key _ => (splitKey key).2

def props : Source → Fields
  | text content => [("content", .string content)]
  | explicit fields => (fields.object? "props").getD []
  | compact _ body => body.filter fun (name, _) => (eventName? name).isNone && name != "children"

def parts : Source → List Value
  | text _ => []
  | explicit fields => childrenOf fields
  | compact _ body => childrenOf body

def head : Source → Nat → Fields × Nat
  | text content, n =>
    (KeyMap.ofList [("type", .string "text"), ("id", .string (freshId "text" n)),
      ("props", .object [("content", .string content)])], n + 1)
  | explicit fields, n => withId fields n
  | compact key body, n => compactFields key body n

def expanded (s : Source) (n : Nat) (children : List Value) : Fields :=
  let (kind, props) := resolve s.kind s.props
  rewritten (s.head n).1 kind props children

/-! ## The head of an entry -/

/-- What the head of an entry says, and what becomes of the counter. -/
structure Heads (s : Source) (n : Nat) : Prop where
  kind : kindOf (s.head n).1 = s.kind
  props : (Fields.object? (s.head n).1 "props").getD [] = s.props
  id : KeyMap.get? (s.head n).1 "id" = some (.string (s.id?.getD (freshId s.kind n)))
  counter : (s.head n).2 = if s.id?.isSome then n else n + 1

theorem heads_text (content : String) (n : Nat) : (text content).Heads n := by
  constructor <;>
    simp [head, kindOf, kind, props, id?, Fields.string?, Fields.object?, KeyMap.get?_ofList,
      KeyMap.get?, Value.asString?, Value.asObject?]

theorem head_explicit (fields : Fields) (n : Nat) : (explicit fields).head n =
    if (explicit fields).id?.isSome then (fields, n)
    else (KeyMap.insert fields "id" (.string (freshId (kindOf fields) n)), n + 1) := by
  cases hid : fields.string? "id" with
  | none => simp [head, withId, withId.assign, id?, hid]
  | some id => by_cases hne : id = "" <;> simp [head, withId, withId.assign, id?, hid, hne]

theorem heads_explicit (fields : Fields) (n : Nat) : (explicit fields).Heads n := by
  have hhead := head_explicit fields n
  cases hid : (explicit fields).id? with
  | none =>
    rw [hid] at hhead
    constructor <;>
      simp [hhead, hid, kind, props, kindOf, Fields.string?, Fields.object?, KeyMap.get?_insert]
  | some id =>
    rw [hid] at hhead
    have htext : fields.string? "id" = some id := (Option.filter_eq_some_iff.mp hid).1
    have hget : KeyMap.get? fields "id" = some (.string id) := string?_eq_some_iff.mp htext
    constructor <;> simp [hhead, hid, hget, kind, props]

theorem heads_compact (key : String) (body : Fields) (n : Nat) : (compact key body).Heads n := by
  obtain ⟨events, hhead⟩ : ∃ events : Fields, (compact key body).head n =
      (KeyMap.ofList <|
        ("type", .string (compact key body).kind)
          :: ("id", .string ((compact key body).id?.getD (freshId (compact key body).kind n)))
          :: ("props", .object (compact key body).props)
          :: Value.memberIf (!events.isEmpty) "on_event" (.object events),
        if (compact key body).id?.isSome then n else n + 1) := by
    refine ⟨body.filterMap fun (name, v) => (eventName? name).map fun e => (e, v), ?_⟩
    cases hid : (splitKey key).2 <;> simp [head, compactFields, id?, kind, props, hid]
  have hget : ∀ name, name ≠ "on_event" → KeyMap.get? ((compact key body).head n).1 name =
      KeyMap.get? [("props", .object (compact key body).props),
        ("id", .string ((compact key body).id?.getD (freshId (compact key body).kind n))),
        ("type", .string (compact key body).kind)] name := by
    intro name hname
    have hevents : KeyMap.get?
        (Value.memberIf (!events.isEmpty) "on_event" (.object events)).reverse name = none := by
      unfold Value.memberIf
      split <;> simp [KeyMap.get?, hname.symm]
    rw [hhead, KeyMap.get?_ofList]
    simp only [List.reverse_cons, List.append_assoc, List.cons_append, List.nil_append]
    rw [KeyMap.get?_append, hevents, Option.none_or]
  constructor
  · simp [kindOf, Fields.string?, hget, KeyMap.get?, Value.asString?]
  · simp [Fields.object?, hget, KeyMap.get?, Value.asObject?]
  · simp [hget, KeyMap.get?]
  · rw [hhead]

theorem heads (s : Source) (n : Nat) : s.Heads n := by
  cases s with
  | text content => exact heads_text content n
  | explicit fields => exact heads_explicit fields n
  | compact key body => exact heads_compact key body n

theorem id?_ne_empty (s : Source) {id : String} (h : s.id? = some id) : id ≠ "" := by
  cases s with
  | text content => cases h
  | explicit fields => simpa using (Option.filter_eq_some_iff.mp h).2
  | compact key body =>
    simp only [id?, splitKey] at h
    split at h
    · next hlength =>
      rintro rfl
      have hchars := congrArg String.toList (Option.some.inj h)
      rw [String.toList_ofList] at hchars
      exact absurd (List.drop_eq_nil_iff.mp hchars) (Nat.not_le_of_lt hlength)
    · cases h

theorem headId_ne_empty (s : Source) (n : Nat) : s.id?.getD (freshId s.kind n) ≠ "" := by
  cases hid : s.id? with
  | none =>
    intro hempty
    have hchars := congrArg String.toList hempty
    simp [freshId_toList] at hchars
  | some id => exact s.id?_ne_empty hid

end Source

/-! ## Expansion -/

theorem expandChildren_eq_childrenOf (fields : Fields) (n : Nat) :
    expandChildren fields n = expandAll (childrenOf fields) n := by
  rw [expandChildren_eq, childrenOf]
  cases KeyMap.get? fields "children" with
  | none => rfl
  | some v => cases v <;> rfl

theorem ofText_eq (content : String) (n : Nat) :
    ofText content n = .object ((Source.text content).expanded n []) := by
  have hit : precedes "id" "type" = true := by decide
  have hti : precedes "type" "id" = false := by decide
  have hpi : precedes "props" "id" = false := by decide
  have hpt : precedes "props" "type" = true := by decide
  have htp : precedes "type" "props" = false := by decide
  have hresolve : resolve "text" [("content", .string content)] =
    ("text", [("content", .string content)]) := resolve_eq_self (by decide) _
  simp [ofText, Value.record, Source.expanded, Source.kind, Source.props, Source.head, hresolve,
    rewritten, withChildren, KeyMap.erase, KeyMap.ofList, KeyMap.insert, hit, hti, hpi, hpt, htp]

theorem explicitForm_head (s : Source) (n : Nat) (children : List Value) :
    explicitForm (s.head n).1 children = .object (s.expanded n children) := by
  rw [explicitForm_eq, (s.heads n).kind, (s.heads n).props]
  rfl

theorem expand_eq (v : Value) (n : Nat) : expand v n = (Source.of? v).elim (none, n) fun s =>
    (some (.object (s.expanded n (expandAll s.parts (s.head n).2).1)),
      (expandAll s.parts (s.head n).2).2) := by
  cases v with
  | string content =>
    simp only [expand, ofText_eq]
    rfl
  | object fields =>
    by_cases htype : KeyMap.contains fields "type" = true
    · simp only [expand, Source.of?, if_pos htype, ← explicitForm_head,
        expandChildren_eq_childrenOf]
      rfl
    · simp only [expand, Source.of?, if_neg htype]
      cases fields with
      | nil => rfl
      | cons e rest =>
        obtain ⟨key, body⟩ := e
        cases body with
        | object body =>
          simp only [expandFirst, ← explicitForm_head, expandChildren_eq_childrenOf]
          rfl
        | null | bool | number | string | array =>
          simp only [expandFirst, ← explicitForm_head]
          rfl
  | null | bool | number | array => rfl

/-! ## All components of a blueprint -/

theorem sizeOf_lt_of_mem_childrenOf {fields : Fields} {v : Value} (h : v ∈ childrenOf fields) :
    sizeOf v < sizeOf fields := by
  induction fields with
  | nil => cases h
  | cons e fields ih =>
    obtain ⟨name, w⟩ := e
    by_cases hname : name = "children"
    · cases w with
      | array vs =>
        have hmem : v ∈ vs := by simpa [childrenOf, KeyMap.get?, hname, Value.asArray?] using h
        have hlt := List.sizeOf_lt_of_mem hmem
        simp only [List.cons.sizeOf_spec, Prod.mk.sizeOf_spec, Value.array.sizeOf_spec]
        omega
      | null | bool | number | string | object =>
        simp [childrenOf, KeyMap.get?, hname, Value.asArray?] at h
    · have hlt := ih (by simpa [childrenOf, KeyMap.get?, hname] using h)
      simp only [List.cons.sizeOf_spec]
      omega

theorem Source.sizeOf_lt {v w : Value} {s : Source} (hs : Source.of? v = some s)
    (hw : w ∈ s.parts) : sizeOf w < sizeOf v := by
  cases v with
  | string content =>
    cases hs
    cases hw
  | object fields =>
    rw [Value.object.sizeOf_spec]
    by_cases htype : KeyMap.contains fields "type" = true
    · obtain rfl : explicit fields = s := by simpa [of?, htype] using hs
      exact Nat.lt_add_left 1 (sizeOf_lt_of_mem_childrenOf hw)
    · obtain ⟨⟨key, body⟩, hhead, rfl⟩ : ∃ e, fields.head? = some e ∧
          compact e.1 (e.2.asObject?.getD []) = s := by
        simpa [of?, htype] using hs
      obtain ⟨rest, rfl⟩ := List.head?_eq_some_iff.mp hhead
      cases body with
      | object body =>
        have hlt : sizeOf w < sizeOf body := sizeOf_lt_of_mem_childrenOf hw
        simp only [List.cons.sizeOf_spec, Prod.mk.sizeOf_spec, Value.object.sizeOf_spec]
        omega
      | null | bool | number | string | array => cases hw
  | null | bool | number | array => cases hs

/-- What holds of a value once it holds of the components written below it holds of all values. -/
theorem source_induction {P : Value → Prop}
    (step : ∀ v, (∀ s, Source.of? v = some s → ∀ w ∈ s.parts, P w) → P v) (v : Value) : P v :=
  step v fun _ _ w _ => source_induction step w
termination_by sizeOf v
decreasing_by exact Source.sizeOf_lt ‹_› ‹_›

mutual

/-- The components that a value writes, those that are dropped apart, parents before their
children. -/
def sources : Value → List Source
  | .string content => [.text content]
  | .object fields =>
    if KeyMap.contains fields "type" then .explicit fields :: sourcesBelow fields
    else sourcesFirst fields
  | _ => []

def sourcesFirst : List (String × Value) → List Source
  | [] => []
  | (key, .object body) :: _ => .compact key body :: sourcesBelow body
  | (key, _) :: _ => [.compact key []]

def sourcesBelow : List (String × Value) → List Source
  | [] => []
  | (name, v) :: fields => if name = "children" then sourcesIn v else sourcesBelow fields

def sourcesIn : Value → List Source
  | .array vs => sourcesAll vs
  | _ => []

def sourcesAll : List Value → List Source
  | [] => []
  | v :: vs => sources v ++ sourcesAll vs

end

theorem sourcesBelow_eq (fields : Fields) :
    sourcesBelow fields = sourcesAll (childrenOf fields) := by
  induction fields with
  | nil => rfl
  | cons e fields ih =>
    obtain ⟨name, v⟩ := e
    simp only [sourcesBelow, childrenOf, KeyMap.get?]
    split
    · cases v <;> rfl
    · exact ih

theorem sources_eq (v : Value) :
    sources v = (Source.of? v).elim [] fun s => s :: sourcesAll s.parts := by
  cases v with
  | string content => rfl
  | object fields =>
    by_cases htype : KeyMap.contains fields "type" = true
    · simp only [sources, Source.of?, if_pos htype, sourcesBelow_eq]
      rfl
    · simp only [sources, Source.of?, if_neg htype]
      cases fields with
      | nil => rfl
      | cons e rest =>
        obtain ⟨key, body⟩ := e
        cases body with
        | object body =>
          simp only [sourcesFirst, sourcesBelow_eq]
          rfl
        | null | bool | number | string | array => rfl
  | null | bool | number | array => rfl

end DynamicUi.Expansion
