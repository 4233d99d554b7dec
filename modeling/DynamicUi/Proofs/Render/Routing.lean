import DynamicUi.Proofs.Render.Entries

/-! # Events route to what is on screen

A pass has a binding for an event exactly if some node on screen lists the event. The binding is
that of the last such node in post-order, since children are rendered before their parents and a
later binding takes the place of an earlier one.
-/

namespace DynamicUi

open Json

def Face.Lists (f : Face) (component event : String) : Prop :=
  f.kind.isPlaceholder = false ∧ f.id = component ∧ event ∈ f.events

namespace RenderedForm

def firstShown : RenderedForm → Nat
  | virtualList w => w.start
  | _ => 0

end RenderedForm

namespace Rendered

mutual

/-- The faces in post-order, each with the path of the node that is rendered. -/
def postorder (path : List Nat) : Rendered → List (List Nat × Face)
  | mk f rs => postorderAll path f.kind.firstShown rs ++ [(path, f)]

def postorderAll (path : List Nat) (i : Nat) : List Rendered → List (List Nat × Face)
  | [] => []
  | r :: rs => postorder (path ++ [i]) r ++ postorderAll path (i + 1) rs

end

mutual

theorem mem_postorder (path : List Nat) (depth : Nat) (f : Face) :
    ∀ r, f ∈ (postorder path r).map Prod.snd ↔ f ∈ (flatten depth r).map Prod.snd
  | mk g rs => by
    have hrs := mem_postorderAll path g.kind.firstShown (depth + 1) f rs
    simp only [postorder, flatten, List.map_append, List.map_cons, List.map_nil, List.mem_append,
      List.mem_cons, List.not_mem_nil, or_false, hrs]
    exact or_comm

theorem mem_postorderAll (path : List Nat) (i depth : Nat) (f : Face) :
    ∀ rs, f ∈ (postorderAll path i rs).map Prod.snd ↔ f ∈ (flattenAll depth rs).map Prod.snd
  | [] => .rfl
  | r :: rs => by
    simp only [postorderAll, flattenAll, List.map_append, List.mem_append,
      mem_postorder (path ++ [i]) depth f r, mem_postorderAll path (i + 1) depth f rs]

end

end Rendered

namespace Output

def postorder (o : Output) : List (List Nat × Face) := Rendered.postorderAll [] 0 o.roots

def Lists (o : Output) (component event : String) : Prop :=
  ∃ e ∈ Rendered.flattenAll 0 o.roots, e.2.Lists component event

theorem lists_iff {o : Output} {component event : String} :
    o.Lists component event ↔ ∃ x ∈ o.postorder, x.2.Lists component event := by
  have hmem := fun f => Rendered.mem_postorderAll [] 0 0 f o.roots
  constructor
  · rintro ⟨e, he, hl⟩
    obtain ⟨x, hx, hf⟩ := List.mem_map.mp ((hmem e.2).mpr (List.mem_map_of_mem he))
    exact ⟨x, hx, hf ▸ hl⟩
  · rintro ⟨x, hx, hl⟩
    obtain ⟨e, he, hf⟩ := List.mem_map.mp ((hmem x.2).mp (List.mem_map_of_mem hx))
    exact ⟨e, he, hf ▸ hl⟩

end Output

/-! ## Looking bindings up -/

def Entry.binding? : Entry → Option Binding
  | .binding b => some b
  | _ => none

theorem filterMap_binding (bs : List Binding) :
    (bs.map Entry.binding).filterMap Entry.binding? = bs := by
  simp [List.filterMap_map, Function.comp_def, Entry.binding?]

theorem Pass.putAll_bindings (p : Pass) (es : List Entry) :
    (p.putAll es).bindings = (es.filterMap Entry.binding?).foldl Bindings.insert p.bindings := by
  induction es generalizing p with
  | nil => rfl
  | cons e es ih =>
    rw [putAll_cons, ih]
    cases e <;> rfl

namespace Bindings

theorem get?_foldl_insert (bs : List Binding) (m : Bindings) (component event : String) :
    (bs.foldl insert m).get? component event =
      (bs.reverse.find? (isFor component event)).or (m.get? component event) := by
  induction bs generalizing m with
  | nil => rfl
  | cons b bs ih =>
    rw [List.foldl_cons, ih, get?_insert, List.reverse_cons, List.find?_append, Option.or_assoc]
    congr 1
    by_cases h : isFor component event b <;> simp [h]

end Bindings

/-! ## Entries and faces -/

def Face.Shows (f : Face) (n : Node) : Prop :=
  f.id = n.id ∧ (f.kind.isPlaceholder = false → f.events = KeyMap.keys n.self.events)

section

variable {look : List Nat → Option Node} {es es' : List Entry} {xs xs' : List (List Nat × Face)}

def boundAt (look : List Nat → Option Node) (x : List Nat × Face) : List Binding :=
  if x.2.kind.isPlaceholder then [] else (look x.1).toList.flatMap fun n => n.self.bindings

/-- Each face shows the node at its path, and the entries hold the bindings of these nodes. -/
structure Routed (look : List Nat → Option Node) (es : List Entry) (xs : List (List Nat × Face)) :
    Prop where
  shows : ∀ x ∈ xs, ∃ n, look x.1 = some n ∧ x.2.Shows n
  bindings : es.filterMap Entry.binding? = xs.flatMap (boundAt look)

theorem Routed.silent (h : es.filterMap Entry.binding? = []) : Routed look es [] := ⟨nofun, h⟩

theorem Routed.append (h : Routed look es xs) (h' : Routed look es' xs') :
    Routed look (es ++ es') (xs ++ xs') where
  shows := List.forall_mem_append.mpr ⟨h.shows, h'.shows⟩
  bindings := by rw [List.filterMap_append, List.flatMap_append, h.bindings, h'.bindings]

theorem mem_bindings {c : Component} {b : Binding} : b ∈ c.bindings ↔
    b.component = c.id ∧ (b.event, b.invocation) ∈ c.events ∧ b.props = c.props := by
  simp only [Component.bindings, List.mem_map]
  constructor
  · rintro ⟨e, he, rfl⟩
    exact ⟨rfl, he, rfl⟩
  · rintro ⟨hc, he, hp⟩
    exact ⟨_, he, by rw [← hc, ← hp]⟩

theorem exists_boundAt_iff {x : List Nat × Face} {n : Node} (hn : look x.1 = some n)
    (hx : x.2.Shows n) {component event : String} :
    (∃ b ∈ boundAt look x, Bindings.isFor component event b = true) ↔
      x.2.Lists component event := by
  obtain ⟨hid, hevents⟩ := hx
  cases hp : x.2.kind.isPlaceholder with
  | true => simp [boundAt, Face.Lists, hp]
  | false =>
    simp only [boundAt, hp, Bool.false_eq_true, if_false, hn, Option.toList_some,
      List.flatMap_cons, List.flatMap_nil, List.append_nil, Face.Lists, hid, hevents hp, true_and,
      KeyMap.keys, List.mem_map]
    constructor
    · rintro ⟨b, hb, hfor⟩
      obtain ⟨hc, he, -⟩ := mem_bindings.mp hb
      simp only [Bindings.isFor, Bool.and_eq_true, decide_eq_true_eq] at hfor
      exact ⟨hc.symm.trans hfor.1, _, he, hfor.2⟩
    · rintro ⟨rfl, e, he, rfl⟩
      exact ⟨⟨n.id, e.1, e.2, n.self.props⟩, mem_bindings.mpr ⟨rfl, he, rfl⟩, by
        simp [Bindings.isFor]⟩

end

theorem Plan.Fits.shown_getElem? {y : Plan} {n m : Node} (hf : y.Fits n) {v : Option Value}
    {j : Nat} (hm : (y.shown v)[j]? = some m) :
    n.children[(Renderer.faceOf n y v).kind.firstShown + j]? = some m := by
  rcases hf.shows v with ⟨tag, hk, hs, -⟩ | ⟨w, hk, hs, -⟩
  · rw [hs] at hm
    simpa [Renderer.faceOf, hk, RenderedForm.firstShown] using hm
  · rw [hs, List.getElem?_take] at hm
    obtain ⟨-, hm⟩ := Option.ite_none_right_eq_some.mp hm
    rw [List.getElem?_drop] at hm
    simpa [Renderer.faceOf, hk, RenderedForm.firstShown] using hm

namespace Renderer

variable {r : Renderer} {state : String → Option Value} {look : List Nat → Option Node}

theorem routed_row {entries : Node → List Entry} {tree : Node → Rendered}
    (h : ∀ n path, (∀ q, look (path ++ q) = n.at? q) →
      Routed look (entries n) (Rendered.postorder path (tree n)))
    {path : List Nat} {i : Nat} {ns : List Node}
    (hns : ∀ (j : Nat) n, ns[j]? = some n → ∀ q, look (path ++ (i + j) :: q) = n.at? q) :
    Routed look (ns.flatMap entries) (Rendered.postorderAll path i (ns.map tree)) := by
  induction ns generalizing i with
  | nil => exact .silent rfl
  | cons n ns ih =>
    refine .append (h n (path ++ [i]) ?_) (ih ?_)
    · intro q
      rw [List.append_assoc]
      exact hns 0 n rfl q
    · intro j m hm q
      rw [Nat.add_right_comm]
      exact hns (j + 1) m hm q

theorem look_self {n : Node} {path : List Nat} (hn : ∀ q, look (path ++ q) = n.at? q) :
    look path = some n := by
  have hself := hn []
  rwa [List.append_nil] at hself

theorem routed_placeholder {n : Node} {path : List Nat} (hn : look path = some n) (e : SpecError) :
    Routed look [] (Rendered.postorder path (.placeholder n.self e)) := by
  constructor
  · intro x hx
    obtain rfl := List.mem_singleton.mp hx
    exact ⟨n, hn, rfl, nofun⟩
  · rfl

/-- The node of an executed plan adds its own bindings after those of the nodes it shows. -/
theorem routed_plan {n : Node} {path : List Nat} {y : Plan} (hy : y.Fits n)
    (hn : look path = some n) {v : Option Value} {es : List Entry} {rs : List Rendered}
    (h : Routed look es (Rendered.postorderAll path (faceOf n y v).kind.firstShown rs)) :
    Routed look (y.readEntry n.id ++ es ++ y.sliceEntry v n ++ n.self.bindings.map .binding)
      (Rendered.postorder path (.mk (faceOf n y v) rs)) := by
  have hread : Routed look (y.readEntry n.id) [] := .silent <| by
    unfold Plan.readEntry
    cases y.key? <;> rfl
  have hslice : Routed look (y.sliceEntry v n) [] := .silent <| by
    unfold Plan.sliceEntry
    cases y.slice? v <;> rfl
  have hreal : (faceOf n y v).kind.isPlaceholder = false := hy.not_placeholder v
  have hown : Routed look (n.self.bindings.map .binding) [(path, faceOf n y v)] := by
    constructor
    · intro x hx
      obtain rfl := List.mem_singleton.mp hx
      exact ⟨n, hn, hy.id v, fun _ => rfl⟩
    · rw [filterMap_binding]
      simp [boundAt, hreal, hn]
  simpa [Rendered.postorder] using ((hread.append h).append hslice).append hown

theorem routed_node (levels : Nat) (n : Node) (path : List Nat)
    (hn : ∀ q, look (path ++ q) = n.at? q) :
    Routed look (r.entriesAt state levels n)
      (Rendered.postorder path (r.treeAt state levels n)) := by
  induction levels generalizing n path with
  | zero => exact routed_placeholder (look_self hn) _
  | succ levels ih =>
    simp only [entriesAt, treeAt]
    cases hy : r.plan n with
    | error e => exact routed_placeholder (look_self hn) e
    | ok y =>
      have hf := plan_fits hy
      refine routed_plan hf (look_self hn) (routed_row ih ?_)
      intro j m hm q
      rw [hn, Node.at?, hf.shown_getElem? hm, Option.bind_some]

/-- In the output of a pass each face shows the node at its path, and the pass has the bindings of
these nodes on record, in post-order. -/
theorem render_routed (hr : r.BuiltIn) (state : String → Option Value) (spec : Spec) :
    (∀ x ∈ (r.render state spec).postorder, ∃ n, spec.at? x.1 = some n ∧ x.2.Shows n) ∧
      (r.render state spec).pass.bindings =
        ((r.render state spec).postorder.flatMap (boundAt spec.at?)).foldl Bindings.insert [] := by
  have hroots : Routed spec.at? (spec.roots.flatMap (r.entriesAt state r.config.maxDepth))
      (Rendered.postorderAll [] 0 (spec.roots.map (r.treeAt state r.config.maxDepth))) := by
    refine routed_row (fun n path hn => routed_node _ n path hn) ?_
    intro j n hj q
    rw [List.nil_append, Nat.zero_add, Spec.at?, hj, Option.bind_some]
  rw [render_eq hr]
  refine ⟨hroots.shows, ?_⟩
  rw [Pass.putAll_bindings, hroots.bindings]
  rfl

variable {spec : Spec} {component event : String}

theorem isSome_binding_iff (hr : r.BuiltIn) :
    ((r.render state spec).pass.bindings.get? component event).isSome ↔
      (r.render state spec).Lists component event := by
  obtain ⟨hshows, hbindings⟩ := render_routed hr state spec
  rw [hbindings, Bindings.get?_foldl_insert, Output.lists_iff]
  have hnil : Bindings.get? [] component event = none := rfl
  rw [hnil, Option.or_none, List.find?_isSome]
  simp only [List.mem_reverse, List.mem_flatMap]
  constructor
  · rintro ⟨b, ⟨x, hx, hb⟩, hfor⟩
    obtain ⟨n, hn, hs⟩ := hshows x hx
    exact ⟨x, hx, (exists_boundAt_iff hn hs).mp ⟨b, hb, hfor⟩⟩
  · rintro ⟨x, hx, hl⟩
    obtain ⟨n, hn, hs⟩ := hshows x hx
    obtain ⟨b, hb, hfor⟩ := (exists_boundAt_iff hn hs).mpr hl
    exact ⟨b, ⟨x, hx, hb⟩, hfor⟩

theorem binding_of_last (hr : r.BuiltIn) {b : Binding}
    (h : (r.render state spec).pass.bindings.get? component event = some b) :
    ∃ before path f after n,
      (r.render state spec).postorder = before ++ (path, f) :: after ∧
      f.Lists component event ∧ (∀ x ∈ after, ¬x.2.Lists component event) ∧
      spec.at? path = some n ∧ b.component = component ∧ b.event = event ∧
      (event, b.invocation) ∈ n.self.events ∧ b.props = n.self.props := by
  obtain ⟨hshows, hbindings⟩ := render_routed hr state spec
  have hnil : Bindings.get? [] component event = none := rfl
  rw [hbindings, Bindings.get?_foldl_insert, hnil, Option.or_none, List.reverse_flatMap,
    List.find?_flatMap] at h
  obtain ⟨later, ⟨path, f⟩, earlier, hsplit, hb, hlater⟩ := List.findSome?_eq_some_iff.mp h
  have horder : (r.render state spec).postorder =
      earlier.reverse ++ (path, f) :: later.reverse := by
    rw [← List.reverse_reverse (r.render state spec).postorder, hsplit]
    simp
  have hmem : ∀ x ∈ later, x ∈ (r.render state spec).postorder := by
    intro x hx
    rw [horder]
    simp [hx]
  obtain ⟨n, hn, hs⟩ := hshows (path, f) (by rw [horder]; simp)
  have hbound : b ∈ boundAt spec.at? (path, f) := List.mem_reverse.mp (List.mem_of_find?_eq_some hb)
  have hfor : Bindings.isFor component event b = true := List.find?_some hb
  have hlists := (exists_boundAt_iff hn hs).mp ⟨b, hbound, hfor⟩
  simp only [boundAt, hlists.1, Bool.false_eq_true, if_false, hn, Option.toList_some,
    List.flatMap_cons, List.flatMap_nil, List.append_nil] at hbound
  obtain ⟨hc, he, hp⟩ := mem_bindings.mp hbound
  simp only [Bindings.isFor, Bool.and_eq_true, decide_eq_true_eq] at hfor
  refine ⟨earlier.reverse, path, f, later.reverse, n, horder, hlists, ?_, hn, hfor.1, hfor.2,
    hfor.2 ▸ he, hp⟩
  intro x hx hl
  have hx := List.mem_reverse.mp hx
  obtain ⟨m, hm, hsm⟩ := hshows x (hmem x hx)
  obtain ⟨b', hb', hfor'⟩ := (exists_boundAt_iff hm hsm).mpr hl
  exact List.find?_eq_none.mp (hlater x hx) b' (List.mem_reverse.mpr hb') hfor'

end Renderer

end DynamicUi
