import DynamicUi.Proofs.Order
import DynamicUi.Proofs.Text.Trim
import DynamicUi.Spec.Document

/-! # Decoding what was encoded

Decoding gives ids and tools without blank ends and kinds that are trimmed. The written form of such
a specification says all of it but the defects and the rejected bindings, and decodes to the
specification without these, whatever ids the decoder has given out before.
-/

namespace DynamicUi

open Json

/-! ## Invocations -/

namespace Invocation

def Canonical (i : Invocation) : Prop := Text.Trimmed i.tool

theorem trimmed_toolId? {fields : Fields} {tool : String} (h : toolId? fields = some tool) :
    Text.Trimmed tool := by
  unfold toolId? at h
  split at h
  · split at h
    · cases h
    · next hb => exact Option.some.inj h ▸ Text.trimmed_trim (Bool.eq_false_iff.mpr hb)
  · cases h

theorem ofFields_tool {fields : Fields} {i : Invocation} (h : ofFields fields = .ok i) :
    toolId? fields = some i.tool := by
  unfold ofFields at h
  cases ht : toolId? fields with
  | none => rw [ht] at h; cases h
  | some tool =>
    rw [ht] at h
    cases hp : KeyMap.get? fields "params" with
    | none => rw [hp] at h; cases h; rfl
    | some v =>
      rw [hp] at h
      cases v with
      | null | object => cases h; rfl
      | bool | number | string | array => cases h

theorem decode_canonical {v : Value} {i : Invocation} (h : decode v = .ok i) : i.Canonical := by
  cases v with
  | string s =>
    simp only [decode] at h
    split at h
    · cases h
    · next hb =>
      cases h
      exact Text.trimmed_trim (Bool.eq_false_iff.mpr hb)
  | object fields => exact trimmed_toolId? (ofFields_tool h)
  | null | bool | number | array => cases h

theorem encode_fields (i : Invocation) : ∃ fields : Fields, i.encode = .object fields ∧
    KeyMap.get? fields "toolId" = some (.string i.tool) ∧
    KeyMap.get? fields "params" = (if i.params.isEmpty then none else some (.object i.params)) ∧
    KeyMap.get? fields "appId" = i.app?.map .string ∧ KeyMap.get? fields "app_id" = none := by
  refine ⟨_, rfl, ?_⟩
  cases i.app? <;> cases hp : i.params.isEmpty <;>
    simp [KeyMap.get?_ofList, KeyMap.get?, Value.memberIf]

theorem decode_encode {i : Invocation} (h : i.Canonical) : decode i.encode = .ok i := by
  obtain ⟨fields, he, htool, hparams, happ, happ'⟩ := i.encode_fields
  have ht : toolId? fields = some i.tool := by
    simp only [toolId?, Fields.firstOf?, htool, h.allBlank_eq, Bool.false_eq_true, if_false,
      h.trim_eq]
  have ha : (fields.firstOf? ["appId", "app_id"]).bind Value.asString? = i.app? := by
    simp only [Fields.firstOf?, happ, happ']
    cases i.app? <;> rfl
  obtain ⟨tool, params, app?⟩ := i
  rw [he]
  simp only [decode, ofFields, ht, ha, hparams]
  cases params <;> rfl

end Invocation

theorem filterMap_map_eq_self {α β : Type} {f : α → β} {g : β → Option α} {l : List α}
    (h : ∀ a ∈ l, g (f a) = some a) : (l.map f).filterMap g = l := by
  induction l with
  | nil => rfl
  | cons a l ih =>
    obtain ⟨ha, hl⟩ := List.forall_mem_cons.mp h
    rw [List.map_cons, List.filterMap_cons_some ha, ih hl]

theorem hookOf_encode {is : List Invocation} (h : ∀ i ∈ is, i.Canonical) :
    Spec.hookOf (.array (is.map Invocation.encode)) = is := by
  apply filterMap_map_eq_self
  intro i hi
  rw [Invocation.decode_encode (h i hi)]
  rfl

theorem hookOf_canonical {v : Value} : ∀ i ∈ Spec.hookOf v, i.Canonical := by
  intro i hi
  obtain ⟨b, -, hb⟩ := List.mem_filterMap.mp hi
  cases hd : Invocation.decode b with
  | error e => rw [hd] at hb; cases hb
  | ok j =>
    rw [hd] at hb
    exact Option.some.inj hb ▸ Invocation.decode_canonical hd

/-! ## Components -/

namespace Component

/-- The component without what is not written. -/
def cleared (c : Component) : Component := { c with defect := none, rejected := [] }

/-- A component that was decoded without loss. -/
structure Faultless (c : Component) : Prop where
  defect : c.defect = none
  rejected : c.rejected = []

theorem Faultless.cleared_eq_self {c : Component} (h : c.Faultless) : c.cleared = c := by
  obtain ⟨id, kind, props, events, defect, rejected⟩ := c
  obtain ⟨rfl, rfl⟩ := h
  rfl

structure Canonical (c : Component) : Prop where
  id : Text.Trimmed c.id
  kind : Text.trim c.kind = c.kind
  events : ∀ e ∈ c.events, e.2.Canonical

theorem trimmed_container : Text.Trimmed "container" := ⟨⟨'c', rfl, rfl⟩, ⟨'r', rfl, rfl⟩⟩

theorem trimmed_node : Text.Trimmed "node" := ⟨⟨'n', rfl, rfl⟩, ⟨'e', rfl, rfl⟩⟩

theorem trimmed_text : Text.Trimmed "text" := ⟨⟨'t', rfl, rfl⟩, ⟨'t', rfl, rfl⟩⟩

theorem trimmed_invalid : Text.Trimmed "invalid" := ⟨⟨'i', rfl, rfl⟩, ⟨'d', rfl, rfl⟩⟩

theorem trimmed_givenId? {fields : Fields} {id : String} (h : givenId? fields = some id) :
    Text.Trimmed id := by
  unfold givenId? at h
  split at h
  · split at h
    · cases h
    · next hb => exact Option.some.inj h ▸ Text.trimmed_trim (Bool.eq_false_iff.mpr hb)
  · next n _ => exact Option.some.inj h ▸ trimmed_numberText n
  · cases h

theorem trimmed_assignId {kind : String} (hk : Text.Trimmed kind) (fields : Fields) (n : Nat) :
    Text.Trimmed (assignId fields kind n).1 := by
  unfold assignId
  split
  · next id h => exact trimmed_givenId? h
  · exact trimmed_freshId hk n

theorem malformed_canonical {id : String} (h : Text.Trimmed id) (reason : String) :
    (malformed id reason).Canonical := ⟨h, rfl, nofun⟩

theorem acceptedEvents_canonical (bindings : Fields) :
    ∀ e ∈ acceptedEvents bindings, e.2.Canonical := by
  intro e he
  obtain ⟨⟨event, v⟩, -, hv⟩ := List.mem_filterMap.mp he
  cases hd : Invocation.decode v with
  | error e => simp [hd, Except.toOption] at hv
  | ok i =>
    obtain rfl : (event, i) = e := by simpa [hd, Except.toOption] using hv
    exact Invocation.decode_canonical hd

theorem withEvents_canonical {c : Component} (h : c.Canonical) (v? : Option Value) :
    (c.withEvents v?).Canonical := by
  unfold withEvents
  split
  · exact h
  · exact h
  · exact ⟨h.id, h.kind, acceptedEvents_canonical _⟩
  · exact ⟨h.id, h.kind, h.events⟩

theorem decodeBody_canonical {id kind : String} (hid : Text.Trimmed id)
    (hkind : Text.trim kind = kind) (fields : Fields) : (decodeBody fields id kind).Canonical := by
  have hplain : (plain id kind).Canonical := ⟨hid, hkind, nofun⟩
  unfold decodeBody
  cases KeyMap.get? fields "props" with
  | none => exact withEvents_canonical hplain _
  | some v =>
    cases v with
    | null => exact withEvents_canonical hplain _
    | object props =>
      have hprops : Canonical { plain id kind with props } := ⟨hid, hkind, hplain.events⟩
      exact withEvents_canonical hprops _
    | bool | number | string | array => exact malformed_canonical hid _

theorem decode_canonical (fields : Fields) (n : Nat) : (decode fields n).1.Canonical := by
  unfold decode
  cases KeyMap.get? fields "type" with
  | none => exact decodeBody_canonical (trimmed_assignId trimmed_container _ _) rfl _
  | some v =>
    cases v with
    | null => exact decodeBody_canonical (trimmed_assignId trimmed_container _ _) rfl _
    | string s =>
      refine decodeBody_canonical (trimmed_assignId ?_ _ _) (Text.trim_trim s) _
      cases h : Text.allBlank s with
      | true => rw [Text.trim_of_allBlank h]; exact trimmed_node
      | false =>
        have ht := Text.trimmed_trim h
        rwa [if_neg ht.ne_empty]
    | bool | number | array | object =>
      exact malformed_canonical (trimmed_assignId trimmed_invalid _ _) _

end Component

/-! ## Trees -/

namespace Node

mutual

def cleared : Node → Node
  | mk c ns => mk c.cleared (clearedAll ns)

def clearedAll : List Node → List Node
  | [] => []
  | n :: ns => cleared n :: clearedAll ns

end

mutual

def Every (P : Component → Prop) : Node → Prop
  | mk c ns => P c ∧ EveryIn P ns

def EveryIn (P : Component → Prop) : List Node → Prop
  | [] => True
  | n :: ns => Every P n ∧ EveryIn P ns

end

/-! ### What decoding gives -/

theorem malformed_every {kind : String} (h : Text.Trimmed kind) (k : Nat) (reason : String) :
    (leaf (.malformed (freshId kind k) reason)).Every Component.Canonical :=
  ⟨Component.malformed_canonical (trimmed_freshId h k) reason, trivial⟩

theorem ofText_canonical (text : String) (k : Nat) :
    (ofText (freshId "text" k) text).Every Component.Canonical := by
  have hc : (Component.plain (freshId "text" k) "text").Canonical :=
    ⟨trimmed_freshId Component.trimmed_text k, Component.trimmed_text.trim_eq, nofun⟩
  exact ⟨⟨hc.id, hc.kind, hc.events⟩, trivial⟩

mutual

theorem decode_canonical : ∀ (v : Value) (k : Nat), (decode v k).1.Every Component.Canonical
  | .string text, k => ofText_canonical text k
  | .object fields, k => by
    have hc := Component.decode_canonical fields k
    simp only [decode]
    split
    · exact ⟨hc, trivial⟩
    · exact ⟨hc, decodeChildren_canonical fields _⟩
  | .null, k | .bool _, k | .number _, k | .array _, k =>
    malformed_every Component.trimmed_invalid k _

theorem decodeChildren_canonical : ∀ (fields : List (String × Value)) (k : Nat),
    EveryIn Component.Canonical (decodeChildren fields k).1
  | [], _ => trivial
  | (name, v) :: fields, k => by
    simp only [decodeChildren]
    split
    · exact decodeEntries_canonical v k
    · exact decodeChildren_canonical fields k

theorem decodeEntries_canonical :
    ∀ (v : Value) (k : Nat), EveryIn Component.Canonical (decodeEntries v k).1
  | .null, _ => trivial
  | .array vs, k => decodeAll_canonical vs k
  | .bool _, k | .number _, k | .string _, k | .object _, k =>
    ⟨malformed_every Component.trimmed_invalid k _, trivial⟩

theorem decodeAll_canonical :
    ∀ (vs : List Value) (k : Nat), EveryIn Component.Canonical (decodeAll vs k).1
  | [], _ => trivial
  | v :: vs, k => ⟨decode_canonical v k, decodeAll_canonical vs _⟩

end

/-! ### What the written form says -/

theorem encode_fields (c : Component) (ns : List Node) : ∃ fields : Fields,
    encode (mk c ns) = .object fields ∧
    KeyMap.get? fields "id" = some (.string c.id) ∧
    KeyMap.get? fields "type" = some (.string c.kind) ∧
    KeyMap.get? fields "props" = (if c.props.isEmpty then none else some (.object c.props)) ∧
    KeyMap.get? fields "children" = (if ns.isEmpty then none else some (.array (encodeAll ns))) ∧
    KeyMap.get? fields "on_event" = (if c.events.isEmpty then none
      else some (.object (KeyMap.mapValues Invocation.encode c.events))) ∧
    KeyMap.get? fields "onEvent" = none := by
  refine ⟨_, rfl, ?_⟩
  cases hp : c.props.isEmpty <;> cases hn : ns.isEmpty <;> cases he : c.events.isEmpty <;>
    simp [KeyMap.get?_ofList, KeyMap.get?, Value.memberIf]

theorem decodeChildren_eq (fields : Fields) (k : Nat) : decodeChildren fields k =
    decodeEntries ((KeyMap.get? fields "children").getD .null) k := by
  induction fields with
  | nil => rfl
  | cons e fields ih =>
    obtain ⟨name, v⟩ := e
    simp only [decodeChildren, KeyMap.get?]
    split
    · rfl
    · exact ih

theorem acceptedEvents_encode {events : KeyMap Invocation} (h : ∀ e ∈ events, e.2.Canonical) :
    Component.acceptedEvents (KeyMap.mapValues Invocation.encode events) = events := by
  apply filterMap_map_eq_self
  intro e he
  simp only [Invocation.decode_encode (h e he)]
  rfl

theorem rejectedEvents_encode {events : KeyMap Invocation} (h : ∀ e ∈ events, e.2.Canonical) :
    Component.rejectedEvents (KeyMap.mapValues Invocation.encode events) = [] := by
  apply List.filterMap_eq_nil_iff.mpr
  rintro ⟨event, v⟩ hv
  obtain ⟨e, he, hev⟩ := List.mem_map.mp hv
  cases hev
  simp only [Invocation.decode_encode (h e he)]

theorem decode_component {c : Component} (h : c.Canonical) {fields : Fields}
    (hid : KeyMap.get? fields "id" = some (.string c.id))
    (htype : KeyMap.get? fields "type" = some (.string c.kind))
    (hprops : KeyMap.get? fields "props" =
      (if c.props.isEmpty then none else some (.object c.props)))
    (hevents : KeyMap.get? fields "on_event" = (if c.events.isEmpty then none
      else some (.object (KeyMap.mapValues Invocation.encode c.events))))
    (hevents' : KeyMap.get? fields "onEvent" = none) (k : Nat) :
    Component.decode fields k = (c.cleared, k) := by
  have hassign : ∀ kind, Component.assignId fields kind k = (c.id, k) := by
    intro kind
    simp only [Component.assignId, Component.givenId?, hid, h.id.allBlank_eq, Bool.false_eq_true,
      if_false, h.id.trim_eq]
  have hbody : Component.decodeBody fields c.id c.kind =
      { Component.plain c.id c.kind with props := c.props }.withEvents
        (KeyMap.get? fields "on_event") := by
    simp only [Component.decodeBody, Fields.firstOf?, hprops, hevents']
    cases KeyMap.get? fields "on_event" <;> cases c.props <;> rfl
  have hwith : { Component.plain c.id c.kind with props := c.props }.withEvents
      (KeyMap.get? fields "on_event") = c.cleared := by
    rw [hevents]
    cases he : c.events with
    | nil => simp [Component.withEvents, Component.cleared, Component.plain, he]
    | cons e es =>
      have ha := acceptedEvents_encode h.events
      have hr := rejectedEvents_encode h.events
      rw [he] at ha hr
      simp [Component.withEvents, Component.cleared, Component.plain, he, ha, hr]
  simp only [Component.decode, htype, h.kind, hassign, hbody, hwith]

mutual

theorem decode_encode : ∀ (n : Node), n.Every Component.Canonical → ∀ k,
    decode (encode n) k = (n.cleared, k)
  | mk c ns, h, k => by
    obtain ⟨hc, hns⟩ := h
    obtain ⟨fields, he, hid, htype, hprops, hchildren, hevents, hevents'⟩ := encode_fields c ns
    have hd := decode_component hc hid htype hprops hevents hevents' k
    have hcs : decodeChildren fields k = (clearedAll ns, k) := by
      rw [decodeChildren_eq, hchildren]
      cases ns with
      | nil => rfl
      | cons n ns => exact decodeAll_encodeAll (n :: ns) hns k
    rw [he]
    simp only [decode, hd, hcs, cleared]
    rfl

theorem decodeAll_encodeAll : ∀ (ns : List Node), EveryIn Component.Canonical ns → ∀ k,
    decodeAll (encodeAll ns) k = (clearedAll ns, k)
  | [], _, _ => rfl
  | n :: ns, h, k => by
    simp only [encodeAll, decodeAll, decode_encode n h.1, decodeAll_encodeAll ns h.2, clearedAll]

end

mutual

theorem encode_cleared : ∀ n : Node, encode n.cleared = encode n
  | mk c ns => by
    have hns : (clearedAll ns).isEmpty = ns.isEmpty := by cases ns <;> rfl
    simp only [cleared, encode, encodeAll_clearedAll ns, hns]
    rfl

theorem encodeAll_clearedAll : ∀ ns : List Node, encodeAll (clearedAll ns) = encodeAll ns
  | [] => rfl
  | n :: ns => by simp only [clearedAll, encodeAll, encode_cleared n, encodeAll_clearedAll ns]

end

mutual

theorem cleared_eq_self : ∀ n : Node, n.Every Component.Faultless → n.cleared = n
  | mk c ns, h => by
    rw [cleared, h.1.cleared_eq_self, clearedAll_eq_self ns h.2]

theorem clearedAll_eq_self : ∀ ns : List Node, EveryIn Component.Faultless ns → clearedAll ns = ns
  | [], _ => rfl
  | n :: ns, h => by rw [clearedAll, cleared_eq_self n h.1, clearedAll_eq_self ns h.2]

end

end Node

/-! ## Specifications -/

namespace Spec

def cleared (s : Spec) : Spec := { s with roots := Node.clearedAll s.roots }

theorem encode_fields (s : Spec) : ∃ fields : Fields, s.encode = .object fields ∧
    KeyMap.get? fields "title" = some (.string s.title) ∧
    KeyMap.get? fields "layout" = some (.string s.layout) ∧
    KeyMap.get? fields "components" = some (.array (Node.encodeAll s.roots)) ∧
    KeyMap.get? fields "style" = (if s.style.isEmpty then none else some (.object s.style)) ∧
    KeyMap.get? fields "services" =
      (if s.services.isEmpty then none else some (.strings s.services)) ∧
    KeyMap.get? fields "lifecycle_hooks" = (if s.hooks.isEmpty then none
      else some (.object <|
        KeyMap.mapValues (fun is => .array (is.map Invocation.encode)) s.hooks)) ∧
    KeyMap.get? fields "lifecycleHooks" = none := by
  refine ⟨_, rfl, ?_⟩
  cases hs : s.style.isEmpty <;> cases hv : s.services.isEmpty <;> cases hh : s.hooks.isEmpty <;>
    simp [KeyMap.get?_ofList, KeyMap.get?, Value.memberIf]

structure Canonical (s : Spec) : Prop where
  roots : Node.EveryIn Component.Canonical s.roots
  hooks : ∀ e ∈ s.hooks, ∀ i ∈ e.2, i.Canonical

theorem decode_canonical {v : Value} {s : Spec} (h : decode v = .ok s) : s.Canonical := by
  cases v with
  | object fields =>
    cases h
    constructor
    · exact Node.decodeEntries_canonical _ 0
    · intro e he
      simp only [ofFields] at he
      split at he
      · next v _ =>
        cases v with
        | object hooks =>
          obtain ⟨hook, -, rfl⟩ := List.mem_map.mp he
          exact hookOf_canonical
        | null | bool | number | string | array => cases he
      · cases he
  | null | bool | number | string | array => cases h

theorem textsAt?_strings {fields : Fields} {name : String} {texts : List String}
    (h : KeyMap.get? fields name = (if texts.isEmpty then none else some (.strings texts))) :
    (fields.textsAt? name).getD [] = texts := by
  unfold Fields.textsAt?
  rw [h]
  cases texts with
  | nil => rfl
  | cons t ts => exact filterMap_map_eq_self (f := Value.string) fun _ _ => rfl

theorem hooksOf_encode {hooks : KeyMap (List Invocation)}
    (h : ∀ e ∈ hooks, ∀ i ∈ e.2, i.Canonical) :
    hooksOf (.object (KeyMap.mapValues (fun is => .array (is.map Invocation.encode)) hooks)) =
      hooks := by
  have hmap : ∀ e ∈ hooks, (e.1, hookOf (.array (e.2.map Invocation.encode))) = e := by
    intro e he
    rw [hookOf_encode (h e he)]
  simp only [hooksOf, KeyMap.mapValues, List.map_map]
  exact (List.map_congr_left hmap).trans (List.map_id hooks)

theorem decode_encode_of_canonical {s : Spec} (h : s.Canonical) :
    decode s.encode = .ok s.cleared := by
  obtain ⟨fields, he, htitle, hlayout, hroots, hstyle, hservices, hhooks, hhooks'⟩ :=
    s.encode_fields
  have htitle' : (ofFields fields).title = s.title := by
    simp only [ofFields, Fields.string?, htitle]
    rfl
  have hlayout' : (ofFields fields).layout = s.layout := by
    simp only [ofFields, Fields.string?, hlayout]
    rfl
  have hroots' : (ofFields fields).roots = Node.clearedAll s.roots := by
    have hd : Node.decodeEntries (.array (Node.encodeAll s.roots)) 0 = _ :=
      Node.decodeAll_encodeAll s.roots h.roots 0
    simp only [ofFields, decodeRoots, hroots, Option.getD_some, hd]
  have hstyle' : (ofFields fields).style = s.style := by
    simp only [ofFields, Fields.object?, hstyle]
    cases s.style <;> rfl
  have hservices' : (ofFields fields).services = s.services := textsAt?_strings hservices
  have hhooks' : (ofFields fields).hooks = s.hooks := by
    have hh := hooksOf_encode h.hooks
    simp only [ofFields, Fields.firstOf?, hhooks, hhooks']
    cases hs : s.hooks with
    | nil => rfl
    | cons e es => rw [hs] at hh; exact hh
  have heq : ofFields fields = s.cleared := by
    generalize ofFields fields = t at *
    obtain ⟨title, layout, roots, style, services, hooks⟩ := t
    subst htitle' hlayout' hroots' hstyle' hservices' hhooks'
    rfl
  rw [he]
  exact congrArg Except.ok heq

/-- Decoding undoes encoding: what any value decodes to is what its written form decodes to, but
for the defects and the rejected bindings. So a specification without them comes back as it is, and
what comes back is written in the same way. -/
theorem decode_encode_cleared {v : Value} {s : Spec} (h : decode v = .ok s) :
    decode s.encode = .ok s.cleared ∧
      (Node.EveryIn Component.Faultless s.roots → decode s.encode = .ok s) ∧
      ∀ s', decode s.encode = .ok s' → s'.encode = s.encode := by
  have hd := decode_encode_of_canonical (decode_canonical h)
  refine ⟨hd, ?_, ?_⟩
  · intro hf
    have hc : s.cleared = s := by rw [cleared, Node.clearedAll_eq_self _ hf]
    rw [hd, hc]
  · intro s' hs'
    rw [hd] at hs'
    cases hs'
    simp only [encode, cleared, Node.encodeAll_clearedAll]

theorem decode_encode_two_documents :
    let button := Value.record [("type", .string " button "), ("id", .number (.whole 7)),
      ("onEvent", .record [("click", .string " go "), ("hover", .null)])]
    let mixed := Value.record [("components", .array [.string "Hi", .null, button])]
    let clean := Value.record [("components", .array [.string "Hi", .record []]),
      ("lifecycleHooks", .record [("on_mount", .string "load")])]
    let t : Spec := ⟨"Untitled", "vertical",
      [.ofText "text-0" "Hi", .leaf (.plain "container-1" "container")], [], [],
      [("on_mount", [.ofTool "load"])]⟩
    (∃ s, decode mixed = .ok s ∧ s.roots.map Node.id = ["text-0", "invalid-1", "7"] ∧
      decode s.encode = .ok s.cleared) ∧
    decode clean = .ok t ∧ Node.EveryIn Component.Faultless t.roots ∧ decode t.encode = .ok t := by
  intro button mixed clean t
  have hclean : decode clean = .ok t := by rfl
  have hfaultless : Node.EveryIn Component.Faultless t.roots :=
    ⟨⟨⟨rfl, rfl⟩, trivial⟩, ⟨⟨rfl, rfl⟩, trivial⟩, trivial⟩
  constructor
  · exact ⟨_, rfl, by rfl, (decode_encode_cleared (v := mixed) rfl).1⟩
  · exact ⟨hclean, hfaultless, (decode_encode_cleared hclean).2.1 hfaultless⟩

end Spec

end DynamicUi
