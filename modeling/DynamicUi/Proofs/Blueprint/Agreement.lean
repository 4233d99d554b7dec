import DynamicUi.Blueprint.AppPackage
import DynamicUi.Proofs.Spec.RoundTrip

/-! # Windows written in full

An app package may write its window without any shortcut. Expansion then gives ids to the same
components as the decoder of nodes would, and no other id is left to give, so the window of the
package is what the decoder makes of the window as it was written.
-/

namespace DynamicUi

open Json

namespace Component

theorem decode_of_type {fields : Fields} {kind : String}
    (htype : KeyMap.get? fields "type" = some (.string kind)) (hkind : Text.Trimmed kind)
    (n : Nat) : decode fields n =
      (decodeBody fields (assignId fields kind n).1 kind, (assignId fields kind n).2) := by
  simp only [decode, htype, hkind.trim_eq, if_neg hkind.ne_empty]

/-- The decoder does not tell whether an empty map of props was written or left out. -/
theorem decodeBody_congr {fields full : Fields} {id kind : String}
    (hprops : ∀ v, KeyMap.get? fields "props" = some v → ∃ props, v = .object props)
    (hfull : KeyMap.get? full "props" = some (.object ((fields.object? "props").getD [])))
    (hevents : full.firstOf? ["on_event", "onEvent"] = fields.firstOf? ["on_event", "onEvent"]) :
    decodeBody full id kind = decodeBody fields id kind := by
  simp only [decodeBody, hfull, hevents, Fields.object?]
  cases h : KeyMap.get? fields "props" with
  | none => rfl
  | some v =>
    obtain ⟨props, rfl⟩ := hprops v h
    rfl

end Component

namespace Expansion

/-! ## Plain entries -/

def Unabridged (kind : String) : Prop := kind ≠ "row" ∧ kind ≠ "col" ∧ kind ∉ roles

instance (kind : String) : Decidable (Unabridged kind) := inferInstanceAs (Decidable (_ ∧ _))

/-- What an entry says of itself has nothing to expand: a kind that is no shortcut, an id or none,
and props or none. -/
structure PlainHead (fields : Fields) (kind : String) : Prop where
  type : KeyMap.get? fields "type" = some (.string kind)
  trimmed : Text.Trimmed kind
  unabridged : Unabridged kind
  id : ∀ v, KeyMap.get? fields "id" = some v → ∃ s, v = .string s ∧ Text.allBlank s = false
  props : ∀ v, KeyMap.get? fields "props" = some v → ∃ props, v = .object props

def HasChildren (fields : Fields) (vs : List Value) : Prop :=
  KeyMap.get? fields "children" = some (.array vs) ∨
    KeyMap.get? fields "children" = none ∧ vs = []

/-- A text, or an entry in explicit form with such entries for children. -/
inductive Plain : Value → Prop
  | text (s : String) : Plain (.string s)
  | entry {fields : Fields} {kind : String} {vs : List Value} (head : PlainHead fields kind)
      (children : HasChildren fields vs) (below : ∀ v ∈ vs, Plain v) : Plain (.object fields)

/-! ## Children -/

theorem expandChildren_eq (fields : Fields) (n : Nat) : expandChildren fields n =
    expandArray ((KeyMap.get? fields "children").getD .null) n := by
  induction fields with
  | nil => rfl
  | cons e fields ih =>
    obtain ⟨name, v⟩ := e
    simp only [expandChildren, KeyMap.get?]
    split
    · rfl
    · exact ih

namespace HasChildren

variable {fields : Fields} {vs : List Value}

theorem expandChildren_eq_all (h : HasChildren fields vs) (n : Nat) :
    expandChildren fields n = expandAll vs n := by
  rw [expandChildren_eq]
  rcases h with h | ⟨h, rfl⟩
  · rw [h]
    rfl
  · rw [h]
    rfl

theorem decodeChildren_eq_all (h : HasChildren fields vs) (n : Nat) :
    Node.decodeChildren fields n = Node.decodeAll vs n := by
  rw [Node.decodeChildren_eq]
  rcases h with h | ⟨h, rfl⟩
  · rw [h]
    rfl
  · rw [h]
    rfl

theorem decode_eq (h : HasChildren fields vs) {n : Nat}
    (hsound : (Component.decode fields n).1.defect = none) :
    Node.decode (.object fields) n =
      (.mk (Component.decode fields n).1 (Node.decodeAll vs (Component.decode fields n).2).1,
        (Node.decodeAll vs (Component.decode fields n).2).2) := by
  simp only [Node.decode, hsound, h.decodeChildren_eq_all, Option.isSome_none, Bool.false_eq_true,
    if_false]

end HasChildren

/-! ## The explicit form -/

theorem kindOf_eq {fields : Fields} {kind : String}
    (h : KeyMap.get? fields "type" = some (.string kind)) : kindOf fields = kind := by
  simp [kindOf, Fields.string?, h, Value.asString?]

theorem resolve_eq_self {kind : String} (h : Unabridged kind) (props : Fields) :
    resolve kind props = (kind, props) := by
  obtain ⟨hrow, hcol, hrole⟩ := h
  have hlayout : impliedLayout? kind = none := by simp [impliedLayout?, hrow, hcol, hrole]
  simp [resolve, hlayout, hrole]

theorem PlainHead.withId_fields {fields : Fields} {kind : String} (h : PlainHead fields kind)
    (n : Nat) : ∃ id, Component.assignId fields kind n = (id, (withId fields n).2) ∧
      Component.givenId? (withId fields n).1 = some id ∧
      ∀ name, name ≠ "id" → KeyMap.get? (withId fields n).1 name = KeyMap.get? fields name := by
  cases hid : KeyMap.get? fields "id" with
  | none =>
    have hwith : withId fields n =
        (KeyMap.insert fields "id" (.string (freshId kind n)), n + 1) := by
      simp [withId, withId.assign, Fields.string?, hid, kindOf_eq h.type]
    have hfresh := trimmed_freshId h.trimmed n
    rw [hwith]
    refine ⟨freshId kind n, ?_, ?_, ?_⟩
    · simp [Component.assignId, Component.givenId?, hid]
    · simp [Component.givenId?, KeyMap.get?_insert, hfresh.allBlank_eq, hfresh.trim_eq]
    · intro name hname
      exact KeyMap.get?_insert_of_ne _ hname.symm _
  | some v =>
    obtain ⟨s, rfl, hs⟩ := h.id v hid
    have hne : s ≠ "" := by
      rintro rfl
      cases hs
    have hwith : withId fields n = (fields, n) := by
      simp [withId, Fields.string?, hid, Value.asString?, hne]
    have hgiven : Component.givenId? fields = some (Text.trim s) := by
      simp [Component.givenId?, hid, hs]
    rw [hwith]
    refine ⟨Text.trim s, ?_, hgiven, fun _ _ => rfl⟩
    simp [Component.assignId, hgiven]

def withChildren (fields : Fields) (children : List Value) : Fields :=
  if children.isEmpty then KeyMap.erase fields "children"
  else KeyMap.insert (KeyMap.erase fields "children") "children" (.array children)

theorem hasChildren_withChildren (fields : Fields) (children : List Value) :
    HasChildren (withChildren fields children) children := by
  cases children with
  | nil => exact .inr ⟨by simp [withChildren, KeyMap.get?_erase], rfl⟩
  | cons v vs => exact .inl (by simp [withChildren, KeyMap.get?_insert])

theorem get?_withChildren (fields : Fields) (children : List Value) {name : String}
    (h : name ≠ "children") :
    KeyMap.get? (withChildren fields children) name = KeyMap.get? fields name := by
  unfold withChildren
  split
  · exact KeyMap.get?_erase_of_ne _ h.symm
  · rw [KeyMap.get?_insert_of_ne _ h.symm, KeyMap.get?_erase_of_ne _ h.symm]

def rewritten (fields : Fields) (kind : String) (props : Fields) (children : List Value) : Fields :=
  KeyMap.insert (KeyMap.insert (withChildren fields children) "type" (.string kind)) "props"
    (.object props)

theorem explicitForm_eq (fields : Fields) (children : List Value) :
    explicitForm fields children =
      let (kind, props) := resolve (kindOf fields) ((fields.object? "props").getD [])
      .object (rewritten fields kind props children) := rfl

theorem rewritten_type (fields : Fields) (kind : String) (props : Fields) (children : List Value) :
    KeyMap.get? (rewritten fields kind props children) "type" = some (.string kind) := by
  simp [rewritten, KeyMap.get?_insert]

theorem rewritten_props (fields : Fields) (kind : String) (props : Fields) (children : List Value) :
    KeyMap.get? (rewritten fields kind props children) "props" = some (.object props) := by
  simp [rewritten, KeyMap.get?_insert]

theorem hasChildren_rewritten (fields : Fields) (kind : String) (props : Fields)
    (children : List Value) : HasChildren (rewritten fields kind props children) children := by
  have h := hasChildren_withChildren fields children
  simpa [HasChildren, rewritten, KeyMap.get?_insert] using h

theorem get?_rewritten (fields : Fields) (kind : String) (props : Fields) (children : List Value)
    {name : String} (ht : name ≠ "type") (hp : name ≠ "props") (hc : name ≠ "children") :
    KeyMap.get? (rewritten fields kind props children) name = KeyMap.get? fields name := by
  rw [rewritten, KeyMap.get?_insert_of_ne _ hp.symm, KeyMap.get?_insert_of_ne _ ht.symm,
    get?_withChildren fields children hc]

theorem explicitForm_fields {fields : Fields} {kind : String}
    (htype : KeyMap.get? fields "type" = some (.string kind)) (hkind : Unabridged kind)
    (children : List Value) :
    ∃ full : Fields, explicitForm fields children = .object full ∧
      KeyMap.get? full "type" = some (.string kind) ∧
      KeyMap.get? full "props" = some (.object ((fields.object? "props").getD [])) ∧
      HasChildren full children ∧
      ∀ name, name ≠ "type" → name ≠ "props" → name ≠ "children" →
        KeyMap.get? full name = KeyMap.get? fields name := by
  refine ⟨rewritten fields kind ((fields.object? "props").getD []) children, ?_,
    rewritten_type .., rewritten_props .., hasChildren_rewritten .., ?_⟩
  · rw [explicitForm_eq, kindOf_eq htype, resolve_eq_self hkind]
  · intro name ht hp hc
    exact get?_rewritten _ _ _ _ ht hp hc

namespace PlainHead

variable {fields : Fields} {kind : String}

theorem decode_defect (h : PlainHead fields kind) (n : Nat) :
    (Component.decode fields n).1.defect = none := by
  rw [Component.decode_of_type h.type h.trimmed]
  unfold Component.decodeBody
  cases hp : KeyMap.get? fields "props" with
  | none => exact Component.withEvents_defect _ _
  | some v =>
    obtain ⟨props, rfl⟩ := h.props v hp
    exact Component.withEvents_defect _ _

/-- The explicit form of an entry decodes to the component of the entry, whatever ids the decoder
has given out before, and takes no other. -/
theorem decode_explicitForm (h : PlainHead fields kind) (n : Nat) (children : List Value) :
    ∃ full : Fields, explicitForm (withId fields n).1 children = .object full ∧
      HasChildren full children ∧ (Component.decode fields n).2 = (withId fields n).2 ∧
      ∀ k, Component.decode full k = ((Component.decode fields n).1, k) := by
  -- the id is assigned before the children are put in, neither of which the other touches
  obtain ⟨id, hassign, hgiven, hother⟩ := h.withId_fields n
  have htype : KeyMap.get? (withId fields n).1 "type" = some (.string kind) := by
    rw [hother _ (by decide), h.type]
  obtain ⟨full, hfull, ht, hp, hc, hrest⟩ := explicitForm_fields htype h.unabridged children
  have hkeep : ∀ name, name ≠ "id" → name ≠ "type" → name ≠ "props" → name ≠ "children" →
      KeyMap.get? full name = KeyMap.get? fields name := by
    intro name hi ht hp hc
    rw [hrest name ht hp hc, hother name hi]
  have hid : Component.givenId? full = some id := by
    rw [← hgiven]
    simp only [Component.givenId?, hrest "id" (by decide) (by decide) (by decide)]
  have hprops : KeyMap.get? full "props" = some (.object ((fields.object? "props").getD [])) := by
    rw [hp]
    simp only [Fields.object?, hother "props" (by decide)]
  have hevents : full.firstOf? ["on_event", "onEvent"] =
      fields.firstOf? ["on_event", "onEvent"] := by
    simp only [Fields.firstOf?, hkeep "on_event" (by decide) (by decide) (by decide) (by decide),
      hkeep "onEvent" (by decide) (by decide) (by decide) (by decide)]
  have hdecode := Component.decode_of_type h.type h.trimmed n
  rw [hassign] at hdecode
  refine ⟨full, hfull, hc, ?_, ?_⟩
  · rw [hdecode]
  · intro k
    have hk : Component.assignId full kind k = (id, k) := by simp only [Component.assignId, hid]
    rw [hdecode, Component.decode_of_type ht h.trimmed, hk,
      Component.decodeBody_congr h.props hprops hevents]

end PlainHead

/-! ## Trees -/

/-- The explicit form of a value decodes as the value itself does, and gives out as many ids. -/
def Agrees (v : Value) : Prop :=
  ∀ n, ∃ w, expand v n = (some w, (Node.decode v n).2) ∧
    ∀ k, Node.decode w k = ((Node.decode v n).1, k)

theorem agrees_all {vs : List Value} (h : ∀ v ∈ vs, Agrees v) (n : Nat) :
    ∃ ws, expandAll vs n = (ws, (Node.decodeAll vs n).2) ∧
      ∀ k, Node.decodeAll ws k = ((Node.decodeAll vs n).1, k) := by
  induction vs generalizing n with
  | nil => exact ⟨[], rfl, fun _ => rfl⟩
  | cons v vs ih =>
    obtain ⟨hv, hvs⟩ := List.forall_mem_cons.mp h
    obtain ⟨w, hw, hdecode⟩ := hv n
    obtain ⟨ws, hws, hdecodes⟩ := ih hvs (Node.decode v n).2
    refine ⟨w :: ws, ?_, ?_⟩
    · simp only [expandAll, hw, hws, Node.decodeAll]
      rfl
    · intro k
      simp only [Node.decodeAll, hdecode, hdecodes]

theorem ofText_fields (s : String) (n : Nat) : ∃ fields : Fields, ofText s n = .object fields ∧
    KeyMap.get? fields "id" = some (.string (freshId "text" n)) ∧
    KeyMap.get? fields "type" = some (.string "text") ∧
    KeyMap.get? fields "props" = some (.object [("content", .string s)]) ∧
    KeyMap.get? fields "on_event" = none ∧ KeyMap.get? fields "onEvent" = none ∧
    HasChildren fields [] := by
  have hcontent : Value.record [("content", .string s)] = .object [("content", .string s)] := rfl
  refine ⟨_, rfl, ?_⟩
  simp [KeyMap.get?_ofList, KeyMap.get?, HasChildren, hcontent]

theorem agrees_text (s : String) : Agrees (.string s) := by
  intro n
  refine ⟨ofText s n, rfl, ?_⟩
  intro k
  obtain ⟨fields, hfields, hid, htype, hprops, hevents, hevents', hc⟩ := ofText_fields s n
  have hcanonical := (Node.ofText_canonical s n).1
  have hself := Node.decode_component hcanonical hid htype hprops hevents hevents' k
  have hdefect : (Component.decode fields k).1.defect = none := by
    rw [hself]
    rfl
  rw [hfields, hc.decode_eq hdefect, hself]
  rfl

theorem agrees_entry {fields : Fields} {kind : String} {vs : List Value}
    (head : PlainHead fields kind) (children : HasChildren fields vs)
    (below : ∀ v ∈ vs, Agrees v) : Agrees (.object fields) := by
  intro n
  -- both sides give the entry its id first, and go on to the children with the same count
  obtain ⟨ws, hws, hchildren⟩ := agrees_all below (withId fields n).2
  obtain ⟨full, hfull, hc, hcount, hself⟩ := head.decode_explicitForm n ws
  have htyped : KeyMap.contains fields "type" = true := by simp [KeyMap.contains, head.type]
  have hsound := head.decode_defect n
  refine ⟨.object full, ?_, ?_⟩
  · rw [children.decode_eq hsound, hcount]
    simp only [expand, htyped, if_true, children.expandChildren_eq_all, hws, hfull]
  · intro k
    have hdefect : (Component.decode full k).1.defect = none := by rw [hself, hsound]
    rw [children.decode_eq hsound, hc.decode_eq hdefect, hself, hchildren, hcount]

theorem Plain.agrees {v : Value} (h : Plain v) : Agrees v := by
  induction h with
  | text s => exact agrees_text s
  | entry head children _ ih => exact agrees_entry head children ih

end Expansion

/-! ## Windows -/

namespace AppPackage

theorem parse_eq_ok_iff {text : String} {doc : Fields}
    (htext : Json.parse text = some (.object doc)) {p : AppPackage} :
    parse text = .ok p ↔ ∃ app id name, doc.object? "app" = some app ∧
      required app "id" = .ok id ∧ required app "name" = .ok name ∧
      p = assemble doc app id name := by
  simp only [parse, htext, decode, ofFields]
  cases happ : doc.object? "app" with
  | none => simp
  | some app =>
    cases hid : required app "id" with
    | error e => simp [hid, bind, Except.bind]
    | ok id =>
      cases hname : required app "name" with
      | error e => simp [hid, hname, bind, Except.bind]
      | ok name => simp [hid, hname, bind, Except.bind, pure, Except.pure, eq_comm]

theorem windowOf_eq_decodeWindow {doc ui : Fields} (hui : doc.object? "ui" = some ui) {v : Value}
    {name : String} (hv : KeyMap.get? ui name = some v) : windowOf doc = decodeWindow ui := by
  cases ui with
  | nil => cases hv
  | cons e ui =>
    simp only [windowOf, hui]
    rfl

theorem decodeWindow_roots {ui : Fields} {vs : List Value}
    (hcomponents : KeyMap.get? ui "components" = some (.array vs))
    (hplain : ∀ v ∈ vs, Expansion.Plain v) :
    (decodeWindow ui).roots = (Spec.ofFields ui).roots := by
  obtain ⟨ws, hws, hdecode⟩ := Expansion.agrees_all (fun v hv => (hplain v hv).agrees) 0
  have hexpand : expandComponents ui = ws := by simp only [expandComponents, hcomponents, hws]
  simp only [decodeWindow, hexpand, hdecode, Spec.ofFields, Spec.decodeRoots, hcomponents]
  rfl

/-- A window of plain entries keeps no package from being read, and the package shows it as a
specification would: with the same title, layout and style, and the same components, whatever ids
they were given. -/
theorem plain_window_eq_spec {ui : Fields} {vs : List Value}
    (hcomponents : KeyMap.get? ui "components" = some (.array vs))
    (hplain : ∀ v ∈ vs, Expansion.Plain v) {text : String} {doc : Fields}
    (htext : Json.parse text = some (.object doc)) (hui : doc.object? "ui" = some ui) :
    ∃ s, Spec.decode (.object ui) = .ok s ∧
      ((∃ p, parse text = .ok p) ↔ ∃ app id name, doc.object? "app" = some app ∧
        required app "id" = .ok id ∧ required app "name" = .ok name) ∧
      ∀ p, parse text = .ok p → p.window.title = s.title ∧ p.window.layout = s.layout ∧
        p.window.style = s.style ∧ p.window.roots = s.roots := by
  refine ⟨Spec.ofFields ui, rfl, ?_, ?_⟩
  · simp only [parse_eq_ok_iff htext]
    constructor
    · rintro ⟨p, app, id, name, happ, hid, hname, -⟩
      exact ⟨app, id, name, happ, hid, hname⟩
    · rintro ⟨app, id, name, happ, hid, hname⟩
      exact ⟨_, app, id, name, happ, hid, hname, rfl⟩
  · intro p hp
    obtain ⟨app, id, name, -, -, -, rfl⟩ := (parse_eq_ok_iff htext).mp hp
    have hwindow : (assemble doc app id name).window = decodeWindow ui :=
      windowOf_eq_decodeWindow hui hcomponents
    rw [hwindow]
    exact ⟨rfl, rfl, rfl, decodeWindow_roots hcomponents hplain⟩

theorem plain_window_of_four_components :
    let button := [("type", Value.string "button"), ("onEvent", .string "go")]
    let panel := [("type", Value.string "panel"), ("id", .string " top "),
      ("children", .array [.string "Done"])]
    let app := [("name", Value.string "N"), ("id", .string "n")]
    let text := (Value.object [("ui", .object [("components",
      .array [.string "Hi", .object button, .object panel])]), ("app", .object app)]).compact
    let vs := [.string "Hi", .record button, .record panel]
    let ui : Fields := [("components", .array vs)]
    let doc : Fields := KeyMap.ofList [("ui", .object ui), ("app", .record app)]
    Json.parse text = some (.object doc) ∧ KeyMap.get? ui "components" = some (.array vs) ∧
      (∀ v ∈ vs, Expansion.Plain v) ∧ doc.object? "ui" = some ui ∧
      ∃ p s, parse text = .ok p ∧ Spec.decode (.object ui) = .ok s ∧ p.window.roots = s.roots ∧
        (Node.flattenAll 0 s.roots).map (fun e => e.2.1.id) =
          ["text-0", "button-1", "top", "text-2"] := by
  intro button panel app text vs ui doc
  have htext : Json.parse text = some (.object doc) := by decide +kernel
  have hbutton : Expansion.PlainHead (KeyMap.ofList button) "button" := by
    refine ⟨by rfl, ⟨⟨'b', rfl, rfl⟩, ⟨'n', rfl, rfl⟩⟩, by decide, ?_, ?_⟩
    · intro v hv
      simp [button, KeyMap.get?_ofList, KeyMap.get?] at hv
    · intro v hv
      simp [button, KeyMap.get?_ofList, KeyMap.get?] at hv
  have hpanel : Expansion.PlainHead (KeyMap.ofList panel) "panel" := by
    refine ⟨by rfl, ⟨⟨'p', rfl, rfl⟩, ⟨'l', rfl, rfl⟩⟩, by decide, ?_, ?_⟩
    · intro v hv
      have hid : KeyMap.get? (KeyMap.ofList panel) "id" = some (.string " top ") := by rfl
      rw [hid] at hv
      exact ⟨" top ", (Option.some.inj hv).symm, by decide⟩
    · intro v hv
      simp [panel, KeyMap.get?_ofList, KeyMap.get?] at hv
  have hplain : ∀ v ∈ vs, Expansion.Plain v := by
    simp only [vs, List.forall_mem_cons]
    refine ⟨.text "Hi", ?_, ?_, List.forall_mem_nil _⟩
    · exact .entry hbutton (.inr ⟨by rfl, rfl⟩) (List.forall_mem_nil _)
    · exact .entry hpanel (.inl (by rfl)) (List.forall_mem_singleton.mpr (.text "Done"))
  have hui : doc.object? "ui" = some ui := by
    simp [doc, Fields.object?, KeyMap.get?_ofList, KeyMap.get?, Value.asObject?]
  have happ : doc.object? "app" = some (KeyMap.ofList app) := by
    simp [doc, Fields.object?, KeyMap.get?_ofList, KeyMap.get?, Value.asObject?, Value.record]
  have hcomponents : KeyMap.get? ui "components" = some (.array vs) := rfl
  obtain ⟨s, hs, hread, hsame⟩ := plain_window_eq_spec hcomponents hplain htext hui
  obtain ⟨p, hp⟩ := hread.mpr ⟨KeyMap.ofList app, "n", "N", happ, by rfl, by rfl⟩
  refine ⟨htext, hcomponents, hplain, hui, p, s, hp, hs, (hsame p hp).2.2.2, ?_⟩
  cases hs
  rfl

end AppPackage

end DynamicUi
