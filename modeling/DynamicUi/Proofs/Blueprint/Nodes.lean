import DynamicUi.Proofs.Blueprint.Explicit

/-! # From written components to nodes

The window of a package has one node for each component that its blueprint writes, in the same
order. A node has the kind and the props that its source stands for. Ids are given out in two
passes, each with a counter that starts at zero: expansion numbers the sources without an id, and
the decoder those whose id is blank.
-/

namespace DynamicUi

open Json

namespace Node

def componentsOf (depth : Nat) (ns : List Node) : List Component :=
  (flattenAll depth ns).map fun e => e.2.1

theorem componentsOf_mk (depth : Nat) (c : Component) (below : List Node) :
    componentsOf depth [mk c below] = c :: componentsOf (depth + 1) below := by
  simp only [componentsOf, flattenAll, flatten, List.append_nil, List.map_cons]

theorem flattenAll_append (depth : Nat) (ns more : List Node) :
    flattenAll depth (ns ++ more) = flattenAll depth ns ++ flattenAll depth more := by
  induction ns with
  | nil => rfl
  | cons n ns ih => simp only [List.cons_append, flattenAll, ih, List.append_assoc]

theorem componentsOf_append (depth : Nat) (ns more : List Node) :
    componentsOf depth (ns ++ more) = componentsOf depth ns ++ componentsOf depth more := by
  rw [componentsOf, flattenAll_append, List.map_append]
  rfl

theorem decodeAll_append (vs more : List Value) (k : Nat) : decodeAll (vs ++ more) k =
    ((decodeAll vs k).1 ++ (decodeAll more (decodeAll vs k).2).1,
      (decodeAll more (decodeAll vs k).2).2) := by
  induction vs generalizing k with
  | nil => rfl
  | cons v vs ih => simp only [List.cons_append, decodeAll, ih]

end Node

namespace Expansion

namespace Source

def shown (s : Source) : String × Fields := resolve s.kind s.props

/-- The id that the component of a source has in the end, and the counter of the decoder, after
expansion with the counter `n`. -/
def named (s : Source) (n k : Nat) : String × Nat :=
  settledId s.shown.1 (s.id?.getD (freshId s.kind n)) k

theorem decode_expanded (s : Source) (n k : Nat) (children : List Value) :
    ∃ c : Component, c.id = (s.named n k).1 ∧ c.kind = Text.trim s.shown.1 ∧
      c.props = s.shown.2 ∧ Node.decodeAll [.object (s.expanded n children)] k =
        ([.mk c (Node.decodeAll children (s.named n k).2).1],
          (Node.decodeAll children (s.named n k).2).2) := by
  obtain ⟨c, hid, hkind, hprops, -, hdecode⟩ :=
    decode_rewritten (s.heads n).id s.shown.1 s.shown.2 children k
  refine ⟨c, hid, hkind, hprops, ?_⟩
  have hform : s.expanded n children = rewritten (s.head n).1 s.shown.1 s.shown.2 children := rfl
  simp only [Node.decodeAll, hform, hdecode]
  rfl

end Source

/-- A source becomes a component, while the counters of the two passes go on. -/
structure Becomes (s : Source) (n k : Nat) (c : Component) (n' k' : Nat) : Prop where
  kind : c.kind = Text.trim s.shown.1
  props : c.props = s.shown.2
  expansion : n' = if s.id?.isSome then n else n + 1
  named : s.named n k = (c.id, k')

inductive Yields : List Source → Nat → Nat → List Component → Nat → Nat → Prop
  | nil {n k : Nat} : Yields [] n k [] n k
  | cons {s : Source} {ss : List Source} {c : Component} {cs : List Component}
    {n k n' k' n'' k'' : Nat} (first : Becomes s n k c n' k')
    (rest : Yields ss n' k' cs n'' k'') : Yields (s :: ss) n k (c :: cs) n'' k''

theorem Yields.append {ss more : List Source} {cs ds : List Component}
    {n k n' k' n'' k'' : Nat} (h : Yields ss n k cs n' k') (h' : Yields more n' k' ds n'' k'') :
    Yields (ss ++ more) n k (cs ++ ds) n'' k'' := by
  induction h with
  | nil => exact h'
  | cons first _ ih => exact .cons first (ih h')

theorem Yields.forall₂ {R : Source → Component → Prop} {ss : List Source} {cs : List Component}
    {n k n' k' : Nat} (h : Yields ss n k cs n' k')
    (each : ∀ {s n k c n' k'}, Becomes s n k c n' k' → R s c) : List.Forall₂ R ss cs := by
  induction h with
  | nil => exact .nil
  | cons first _ ih => exact .cons (each first) ih

/-- Sources become the components that the decoder makes of some values, which expansion has left
together with its counter. -/
def Leaves (ss : List Source) (n k depth : Nat) (expanded : List Value × Nat) : Prop :=
  Yields ss n k (Node.componentsOf depth (Node.decodeAll expanded.1 k).1) expanded.2
    (Node.decodeAll expanded.1 k).2

theorem expandAll_leaves {vs : List Value}
    (h : ∀ v ∈ vs, ∀ n k depth,
      Leaves (sources v) n k depth ((expand v n).1.toList, (expand v n).2))
    (n k depth : Nat) : Leaves (sourcesAll vs) n k depth (expandAll vs n) := by
  induction vs generalizing n k with
  | nil => exact .nil
  | cons v vs ih =>
    obtain ⟨hv, hvs⟩ := List.forall_mem_cons.mp h
    have hfirst := hv n k depth
    have hrest := ih hvs (expand v n).2 (Node.decodeAll (expand v n).1.toList k).2
    simp only [Leaves] at hfirst hrest ⊢
    simp only [expandAll, Node.decodeAll_append, Node.componentsOf_append, sourcesAll]
    exact hfirst.append hrest

theorem expand_leaves (v : Value) (n k depth : Nat) :
    Leaves (sources v) n k depth ((expand v n).1.toList, (expand v n).2) := by
  induction v using source_induction generalizing n k depth with
  | step v ih =>
    rw [expand_eq, sources_eq]
    cases hs : Source.of? v with
    | none => exact .nil
    | some s =>
      obtain ⟨c, hid, hkind, hprops, hdecode⟩ :=
        s.decode_expanded n k (expandAll s.parts (s.head n).2).1
      have hbecomes : Becomes s n k c (s.head n).2 (s.named n k).2 :=
        ⟨hkind, hprops, (s.heads n).counter, by rw [hid]⟩
      have hbelow := expandAll_leaves (ih s hs) (s.head n).2 (s.named n k).2 (depth + 1)
      simp only [Leaves, Option.elim_some, Option.toList_some] at hbelow ⊢
      rw [hdecode, Node.componentsOf_mk]
      exact .cons hbecomes hbelow

end Expansion

/-! ## Packages -/

def Spec.components (s : Spec) : List Component := Node.componentsOf 0 s.roots

namespace AppPackage

/-- The components that a document writes, those that are dropped apart. -/
def sources (doc : Fields) : List Expansion.Source :=
  Expansion.sourcesAll
    ((((doc.object? "ui").bind (KeyMap.get? · "components")).bind Value.asArray?).getD [])

theorem expandComponents_eq (ui : Fields) : expandComponents ui =
    (Expansion.expandAll (((KeyMap.get? ui "components").bind Value.asArray?).getD []) 0).1 := by
  unfold expandComponents
  cases KeyMap.get? ui "components" with
  | none => rfl
  | some v => cases v <;> rfl

theorem windowOf_yields (doc : Fields) :
    ∃ n k, Expansion.Yields (sources doc) 0 0 (windowOf doc).components n k := by
  unfold windowOf sources
  cases doc.object? "ui" with
  | none => exact ⟨0, 0, .nil⟩
  | some ui =>
    cases ui with
    | nil => exact ⟨0, 0, .nil⟩
    | cons e ui =>
      let vs := ((KeyMap.get? (e :: ui) "components").bind Value.asArray?).getD []
      have hleaves : Expansion.Leaves (Expansion.sourcesAll vs) 0 0 0 (Expansion.expandAll vs 0) :=
        Expansion.expandAll_leaves (fun v _ => Expansion.expand_leaves v) 0 0 0
      have hcomponents : (decodeWindow (e :: ui)).components =
          Node.componentsOf 0 (Node.decodeAll (expandComponents (e :: ui)) 0).1 := rfl
      rw [expandComponents_eq] at hcomponents
      refine ⟨(Expansion.expandAll vs 0).2, (Node.decodeAll (Expansion.expandAll vs 0).1 0).2, ?_⟩
      show Expansion.Yields _ 0 0 (decodeWindow (e :: ui)).components _ _
      rw [hcomponents]
      exact hleaves

theorem exists_doc_of_parse {text : String} {p : AppPackage} (h : parse text = .ok p) :
    ∃ doc, Json.parse text = some (.object doc) ∧ p.window = windowOf doc := by
  cases htext : Json.parse text with
  | none => simp [parse, htext] at h
  | some v =>
    cases v with
    | object doc =>
      obtain ⟨app, id, name, -, -, -, rfl⟩ := (parse_eq_ok_iff htext).mp h
      exact ⟨doc, rfl, rfl⟩
    | null | bool | number | string | array => simp [parse, htext, decode] at h

def documentOf (components : List Value) : Fields :=
  [("app", .object [("id", .string "n"), ("name", .string "N")]),
    ("ui", .object [("components", .array components)])]

theorem exists_parse_documentOf {text : String} {components : List Value}
    (h : Json.parse text = some (.object (documentOf components))) :
    ∃ p, parse text = .ok p ∧ p.window = windowOf (documentOf components) :=
  ⟨_, (parse_eq_ok_iff h).mpr ⟨_, _, _, rfl, rfl, rfl, rfl⟩, rfl⟩

theorem parse_yields {text : String} {p : AppPackage} (h : parse text = .ok p) :
    ∃ doc n k, Json.parse text = some (.object doc) ∧
      Expansion.Yields (sources doc) 0 0 p.window.components n k := by
  obtain ⟨doc, htext, hwindow⟩ := exists_doc_of_parse h
  obtain ⟨n, k, hyields⟩ := windowOf_yields doc
  exact ⟨doc, n, k, htext, hwindow ▸ hyields⟩

end AppPackage

end DynamicUi
