import DynamicUi.Proofs.Render.Plan

/-! # The reads of a pass are complete

A pass over elements and lists looks at the state only through keys that it records. A state
that agrees on these keys gives the same output. Where states differ, a node keeps its face
unless it is recorded as a reader of a key they differ on.
-/

namespace DynamicUi

open Json

namespace Pass

/-- The component is on record as a reader of the key. -/
def Reads (p : Pass) (key component : String) : Prop :=
  ∃ readers, KeyMap.get? p.reads key = some readers ∧ component ∈ NameSet.names readers

def Within (p q : Pass) : Prop := ∀ key component, p.Reads key component → q.Reads key component

theorem Within.refl (p : Pass) : p.Within p := fun _ _ h => h

theorem Within.trans {p q s : Pass} (h : p.Within q) (h' : q.Within s) : p.Within s := by
  intro key component hp
  exact h' key component (h key component hp)

theorem Reads.mem_keys {p : Pass} {key component : String} (h : p.Reads key component) :
    key ∈ KeyMap.keys p.reads := by
  obtain ⟨readers, hk, -⟩ := h
  exact KeyMap.mem_keys_iff.mpr ⟨readers, hk⟩

theorem reads_recordRead {p : Pass} {key component key' component' : String} :
    (p.recordRead component key).Reads key' component' ↔
      (key' = key ∧ component' = component) ∨ p.Reads key' component' := by
  simp only [Reads, recordRead, KeyMap.get?_modify]
  by_cases h : key = key'
  · subst h
    simp only [if_true, Option.some.injEq, exists_eq_left', NameSet.mem_names_add, true_and]
    cases hk : KeyMap.get? p.reads key <;> simp [NameSet.names, KeyMap.keys]
  · simp [h, Ne.symm h]

theorem bindComponent_reads (p : Pass) (c : Component) : (p.bindComponent c).reads = p.reads := by
  have h : ∀ (events : KeyMap Invocation) (p : Pass),
      (events.foldl (fun p e => p.bind ⟨c.id, e.1, e.2, c.props⟩) p).reads = p.reads := by
    intro events
    induction events with
    | nil => exact fun _ => rfl
    | cons e events ih => exact fun p => ih _
  exact h c.events p

end Pass

namespace Plan

variable {y : Plan} {p : Pass}

theorem mount_reads (v : Option Value) (id : String) (rs : List Rendered) :
    (y.mount v id rs p).reads = p.reads := by
  simp only [mount]
  split <;> rfl

theorem reads_record {key : String} (hy : y.key? = some key) (id : String) :
    (y.record id p).Reads key id := by
  simp only [record, hy]
  exact Pass.reads_recordRead.mpr (.inl ⟨rfl, rfl⟩)

theorem value?_congr {s₁ s₂ : String → Option Value}
    (h : ∀ key, y.key? = some key → s₁ key = s₂ key) : y.value? s₁ = y.value? s₂ := by
  simp only [value?]
  cases hk : y.key? with
  | none => rfl
  | some key => exact h key hk

end Plan

namespace Rendered

def childAt? (r : Rendered) (i : Nat) : Option Rendered :=
  match r.face.kind with
  | .element _ => r.children[i]?
  | .virtualList w => if w.start ≤ i then r.children[i - w.start]? else none
  | .placeholder .. => none

theorem childAt?_element {f : Face} {tag : String} (h : f.kind = .element tag)
    (rs : List Rendered) (i : Nat) : (mk f rs).childAt? i = rs[i]? := by
  simp only [childAt?, face, children, h]

theorem childAt?_virtualList {f : Face} {w : Slice Float} (h : f.kind = .virtualList w)
    (rs : List Rendered) (i : Nat) :
    (mk f rs).childAt? i = if w.start ≤ i then rs[i - w.start]? else none := by
  simp only [childAt?, face, children, h]

/-- The rendering of the node at a path below the one that is rendered here. -/
def at? : Rendered → List Nat → Option Rendered
  | r, [] => some r
  | r, i :: path => (r.childAt? i).bind fun c => c.at? path

end Rendered

def Node.at? : Node → List Nat → Option Node
  | n, [] => some n
  | n, i :: path => n.children[i]?.bind fun m => m.at? path

def Spec.at? (s : Spec) : List Nat → Option Node
  | [] => none
  | i :: path => s.roots[i]?.bind fun n => n.at? path

def Output.at? (o : Output) : List Nat → Option Rendered
  | [] => none
  | i :: path => o.roots[i]?.bind fun r => r.at? path

namespace Renderer

variable {r : Renderer} {s₁ s₂ : String → Option Value} {f f₁ f₂ : Node → Pass → Rendered × Pass}

/-! ## Nodes rendered in a row -/

/-- A rendering of nodes that takes no read off the record. -/
def Grows (f : Node → Pass → Rendered × Pass) : Prop := ∀ n p, Pass.Within p (f n p).2

theorem within_eachWith (hf : Grows f) (ns : List Node) (p : Pass) :
    p.Within (eachWith f ns p).2 := by
  induction ns generalizing p with
  | nil => exact .refl p
  | cons n ns ih => exact (hf n p).trans (ih _)

theorem eachWith_reads {P : KeyMap NameSet → Prop} (hf : ∀ n p, P p.reads → P (f n p).2.reads)
    (ns : List Node) (p : Pass) (h : P p.reads) : P (eachWith f ns p).2.reads := by
  induction ns generalizing p with
  | nil => exact h
  | cons n ns ih => exact ih _ (hf n p h)

/-- If two renderings agree on every node whose reads are on record in the end, they agree on a
row of nodes. -/
theorem eachWith_congr {A : Pass → Prop} (hA : ∀ p q, Pass.Within p q → A q → A p)
    (hf : Grows f₁) (h : ∀ n p, A (f₁ n p).2 → f₂ n p = f₁ n p)
    (ns : List Node) (p : Pass) (ha : A (eachWith f₁ ns p).2) :
    eachWith f₂ ns p = eachWith f₁ ns p := by
  induction ns generalizing p with
  | nil => rfl
  | cons n ns ih =>
    have hn : f₂ n p = f₁ n p := h n p (hA _ _ (within_eachWith hf ns _) ha)
    have hns : eachWith f₂ ns (f₁ n p).2 = eachWith f₁ ns (f₁ n p).2 := ih _ ha
    simp only [eachWith, hn, hns]

theorem eachWith_getElem? (hf : Grows f) {ns : List Node} {p : Pass} {i : Nat}
    {c : Rendered} (h : (eachWith f ns p).1[i]? = some c) :
    ∃ m q, ns[i]? = some m ∧ c = (f m q).1 ∧ (f m q).2.Within (eachWith f ns p).2 := by
  induction ns generalizing p i with
  | nil => simp [eachWith] at h
  | cons n ns ih =>
    cases i with
    | zero =>
      obtain rfl : (f n p).1 = c := by simpa [eachWith] using h
      exact ⟨n, p, rfl, rfl, within_eachWith hf ns _⟩
    | succ i =>
      obtain ⟨m, q, hm, hc, hq⟩ := ih (by simpa [eachWith] using h)
      exact ⟨m, q, hm, hc, hq⟩

/-! ## Reads only grow -/

theorem renderAt_reads (hr : r.BuiltIn) {P : KeyMap NameSet → Prop}
    (hP : ∀ (p : Pass) component key, P p.reads → P (p.recordRead component key).reads)
    (state : String → Option Value) (levels : Nat) (n : Node) (p : Pass) (h : P p.reads) :
    P (r.renderAt state levels n p).2.reads := by
  induction levels generalizing n p with
  | zero =>
    rw [renderAt_zero_face]
    exact h
  | succ levels ih =>
    rw [renderAt_succ hr]
    cases r.plan n with
    | error e => exact h
    | ok y =>
      have hrecord : P (y.record n.id p).reads := by
        simp only [Plan.record]
        split
        · exact hP p _ _ h
        · exact h
      have hrow := eachWith_reads (fun n p => ih n p) (y.shown (y.value? state)) _ hrecord
      simpa only [Pass.bindComponent_reads, Plan.mount_reads] using hrow

theorem grows_renderAt (hr : r.BuiltIn) (state : String → Option Value) (levels : Nat) :
    Grows (r.renderAt state levels) := by
  intro n p
  apply renderAt_reads hr (P := fun reads => ∀ key component, p.Reads key component →
    ∃ readers, KeyMap.get? reads key = some readers ∧ component ∈ NameSet.names readers)
  · intro q component key h key' component' hk
    exact Pass.reads_recordRead.mpr (.inr (h key' component' hk))
  · intro key component h
    exact h

theorem reads_renderAt (hr : r.BuiltIn) {state : String → Option Value} {levels : Nat} {n : Node}
    {p : Pass} {y : Plan} {key : String} (hy : r.plan n = .ok y) (hk : y.key? = some key) :
    (r.renderAt state (levels + 1) n p).2.Reads key n.id := by
  rw [renderAt_succ hr, hy]
  have hrow := within_eachWith (grows_renderAt hr state levels) (y.shown (y.value? state))
    (y.record n.id p) key n.id (y.reads_record hk n.id)
  simpa only [Pass.Reads, Pass.bindComponent_reads, Plan.mount_reads] using hrow

/-! ## States that agree on what is read -/

def AgreeOn (s₁ s₂ : String → Option Value) (p : Pass) : Prop :=
  ∀ key component, p.Reads key component → s₂ key = s₁ key

theorem AgreeOn.mono {p q : Pass} (hpq : p.Within q) (h : AgreeOn s₁ s₂ q) : AgreeOn s₁ s₂ p := by
  intro key component hp
  exact h key component (hpq key component hp)

theorem renderAt_congr (hr : r.BuiltIn) (levels : Nat) (n : Node) (p : Pass)
    (h : AgreeOn s₁ s₂ (r.renderAt s₁ levels n p).2) :
    r.renderAt s₂ levels n p = r.renderAt s₁ levels n p := by
  induction levels generalizing n p with
  | zero => rw [renderAt_zero_face, renderAt_zero_face]
  | succ levels ih =>
    cases hy : r.plan n with
    | error e => simp only [renderAt_succ hr, hy]
    | ok y =>
      have hv : y.value? s₂ = y.value? s₁ := by
        apply y.value?_congr
        intro key hk
        exact h key n.id (reads_renderAt hr hy hk)
      have hrow : AgreeOn s₁ s₂
          (eachWith (r.renderAt s₁ levels) (y.shown (y.value? s₁)) (y.record n.id p)).2 := by
        rw [renderAt_succ hr, hy] at h
        simpa only [AgreeOn, Pass.Reads, Pass.bindComponent_reads, Plan.mount_reads] using h
      have he := eachWith_congr (fun _ _ => AgreeOn.mono) (grows_renderAt hr s₁ levels) ih
        (y.shown (y.value? s₁)) (y.record n.id p) hrow
      simp only [renderAt_succ hr, hy, hv, he]

/-! ## The face of one node -/

theorem renderAt_face_congr (hr : r.BuiltIn) {levels : Nat} {n : Node} (p q : Pass)
    (h : ∀ y key, r.plan n = .ok y → y.key? = some key → 0 < levels → s₁ key = s₂ key) :
    (r.renderAt s₁ levels n p).1.face = (r.renderAt s₂ levels n q).1.face := by
  cases levels with
  | zero => rw [renderAt_zero_face, renderAt_zero_face]
  | succ levels =>
    cases hy : r.plan n with
    | error e => simp only [renderAt_succ hr, hy]
    | ok y =>
      have hv : y.value? s₁ = y.value? s₂ := by
        apply y.value?_congr
        intro key hk
        exact h y key hy hk (Nat.succ_pos _)
      simp only [renderAt_succ hr, hy, hv, Rendered.face]

theorem renderAt_id (hr : r.BuiltIn) (state : String → Option Value) (levels : Nat) (n : Node)
    (p : Pass) : (r.renderAt state levels n p).1.id = n.id := by
  cases levels with
  | zero => rw [renderAt_zero_face]; rfl
  | succ levels =>
    rw [renderAt_succ hr]
    cases hy : r.plan n with
    | error e => rfl
    | ok y => exact (plan_fits hy).id _

theorem renderAt_childAt? (hr : r.BuiltIn) {state : String → Option Value} {levels : Nat}
    {n : Node} {p : Pass} {i : Nat} {c : Rendered}
    (h : (r.renderAt state levels n p).1.childAt? i = some c) :
    ∃ below m q, n.children[i]? = some m ∧ c = (r.renderAt state below m q).1 ∧
      levels = below + 1 ∧
      (r.renderAt state below m q).2.Within (r.renderAt state levels n p).2 := by
  cases levels with
  | zero => rw [renderAt_zero_face] at h; cases h
  | succ levels =>
    cases hy : r.plan n with
    | error e => rw [renderAt_succ hr, hy] at h; cases h
    | ok y =>
      have hrow : ∀ j : Nat, (eachWith (r.renderAt state levels) (y.shown (y.value? state))
          (y.record n.id p)).1[j]? = some c →
          ∃ m q, (y.shown (y.value? state))[j]? = some m ∧
            c = (r.renderAt state levels m q).1 ∧
            (r.renderAt state levels m q).2.Within (r.renderAt state (levels + 1) n p).2 := by
        intro j hj
        obtain ⟨m, q, hm, hc, hq⟩ := eachWith_getElem? (grows_renderAt hr state levels) hj
        refine ⟨m, q, hm, hc, ?_⟩
        intro key component hk
        rw [renderAt_succ hr, hy]
        simpa only [Pass.Reads, Pass.bindComponent_reads, Plan.mount_reads]
          using hq key component hk
      simp only [renderAt_succ hr, hy] at h
      rcases (plan_fits hy).shows (y.value? state) with ⟨tag, hk, hs, -⟩ | ⟨w, hk, hs, -⟩
      · have hk : (faceOf n y (y.value? state)).kind = .element tag := hk
        rw [Rendered.childAt?_element hk] at h
        obtain ⟨m, q, hm, hc, hq⟩ := hrow i h
        exact ⟨levels, m, q, hs ▸ hm, hc, rfl, hq⟩
      · have hk : (faceOf n y (y.value? state)).kind = .virtualList w := hk
        rw [Rendered.childAt?_virtualList hk] at h
        obtain ⟨hi, h⟩ := Option.ite_none_right_eq_some.mp h
        obtain ⟨m, q, hm, hc, hq⟩ := hrow (i - w.start) h
        refine ⟨levels, m, q, ?_, hc, rfl, hq⟩
        rw [hs, List.getElem?_take] at hm
        obtain ⟨-, hm⟩ := Option.ite_none_right_eq_some.mp hm
        rwa [List.getElem?_drop, Nat.add_sub_cancel' hi] at hm

/-- A node on a path keeps its face where no key it is on record for has another value. -/
theorem renderAt_at?_face (hr : r.BuiltIn) {p q : Pass} {path : List Nat} {levels : Nat}
    {n m : Node} {a b : Rendered} (hm : n.at? path = some m)
    (ha : (r.renderAt s₁ levels n p).1.at? path = some a)
    (hb : (r.renderAt s₂ levels n q).1.at? path = some b)
    (h : ∀ key, (r.renderAt s₁ levels n p).2.Reads key m.id → s₁ key = s₂ key) :
    a.face = b.face ∧ a.id = m.id := by
  induction path generalizing levels n p q with
  | nil =>
    obtain rfl : n = m := Option.some.inj hm
    obtain rfl : (r.renderAt s₁ levels n p).1 = a := Option.some.inj ha
    obtain rfl : (r.renderAt s₂ levels n q).1 = b := Option.some.inj hb
    constructor
    · apply renderAt_face_congr hr p q
      intro y key hy hk hl
      obtain ⟨below, rfl⟩ := Nat.exists_eq_succ_of_ne_zero (Nat.pos_iff_ne_zero.mp hl)
      exact h key (reads_renderAt hr hy hk)
    · exact renderAt_id hr s₁ levels n p
  | cons i path ih =>
    obtain ⟨c, hc, hca⟩ := Option.bind_eq_some_iff.mp ha
    obtain ⟨d, hd, hdb⟩ := Option.bind_eq_some_iff.mp hb
    obtain ⟨below, k, p', hk, rfl, rfl, hp'⟩ := renderAt_childAt? hr hc
    obtain ⟨below', k', q', hk', rfl, hl, -⟩ := renderAt_childAt? hr hd
    obtain rfl : below = below' := Nat.succ.inj hl
    obtain rfl : k = k' := Option.some.inj (hk.symm.trans hk')
    have hm' : k.at? path = some m := by simpa [Node.at?, hk] using hm
    apply ih hm' hca hdb
    intro key hread
    exact h key (hp' key m.id hread)

/-- A pass depends on the state only through the keys it has on record, and each node only
through those it is on record for: where two states differ on the keys `K`, a node rendered in
both keeps its kind, props and events unless the first pass lists it as a reader of one of them. -/
theorem render_noninterference (hr : r.BuiltIn) (spec : Spec) (s₁ s₂ : String → Option Value) :
    ((∀ key ∈ KeyMap.keys (r.render s₁ spec).pass.reads, s₁ key = s₂ key) →
      r.render s₂ spec = r.render s₁ spec) ∧
    ∀ K : String → Prop, (∀ key, ¬ K key → s₁ key = s₂ key) →
      ∀ path n a b, spec.at? path = some n →
        (r.render s₁ spec).at? path = some a → (r.render s₂ spec).at? path = some b →
        (∀ key, K key → ¬ (r.render s₁ spec).pass.Reads key n.id) →
        a.face = b.face ∧ a.id = n.id := by
  have hg := grows_renderAt hr s₁ r.config.maxDepth
  constructor
  · intro h
    have hagree : AgreeOn s₁ s₂ (r.renderRoots s₁ spec.roots).2 := by
      intro key component hk
      exact (h key hk.mem_keys).symm
    have hroots : r.renderRoots s₂ spec.roots = r.renderRoots s₁ spec.roots :=
      eachWith_congr (fun _ _ => AgreeOn.mono) hg (renderAt_congr hr _) spec.roots .empty hagree
    simp only [render, hroots]
  · intro K hK path n a b hn ha hb hread
    cases path with
    | nil => cases hn
    | cons i path =>
      obtain ⟨m, hm, hn⟩ := Option.bind_eq_some_iff.mp hn
      obtain ⟨c, hc, hca⟩ := Option.bind_eq_some_iff.mp ha
      obtain ⟨d, hd, hdb⟩ := Option.bind_eq_some_iff.mp hb
      obtain ⟨k, p, hk, rfl, hp⟩ := eachWith_getElem? hg hc
      obtain ⟨k', q, hk', rfl, -⟩ := eachWith_getElem? (grows_renderAt hr s₂ _) hd
      obtain rfl : m = k := Option.some.inj (hm.symm.trans hk)
      obtain rfl : m = k' := Option.some.inj (hm.symm.trans hk')
      apply renderAt_at?_face hr hn hca hdb
      intro key hkey
      apply hK key
      intro hin
      exact hread key hin (hp key n.id hkey)

/-- Of two texts, the second does not notice what is written for the first, and neither what is
written elsewhere. -/
theorem noninterference_two_texts :
    let r := standard .standard
    let spec : Spec :=
      { Spec.untitled with roots := [.leaf (.plain "a" "text"), .leaf (.plain "b" "text")] }
    let blank : String → Option Value := fun _ => none
    let holding (k key : String) : Option Value := if key = k then some .null else none
    r.BuiltIn ∧ r.render (holding "c") spec = r.render blank spec ∧
      ∃ a b, (r.render blank spec).at? [1] = some a ∧
        (r.render (holding "a") spec).at? [1] = some b ∧ a.face = b.face := by
  intro r spec blank holding
  have hr : r.BuiltIn := standard_builtIn .standard
  have hreads : (r.render blank spec).pass.reads = [("a", [("a", ())]), ("b", [("b", ())])] := rfl
  refine ⟨hr, (render_noninterference hr spec blank (holding "c")).1 ?_, _, _, rfl, rfl,
    ((render_noninterference hr spec blank (holding "a")).2 (· = "a") ?_ [1]
      (.leaf (.plain "b" "text")) _ _ rfl rfl rfl ?_).1⟩
  · rw [hreads]
    intro key hk
    simp only [KeyMap.keys, List.map_cons, List.map_nil, List.mem_cons, List.not_mem_nil,
      or_false] at hk
    rcases hk with rfl | rfl <;> rfl
  · intro key hk
    exact (if_neg hk).symm
  · rintro key rfl ⟨readers, hk, hb⟩
    rw [hreads] at hk
    cases hk
    exact absurd hb (by decide)

end Renderer

end DynamicUi
