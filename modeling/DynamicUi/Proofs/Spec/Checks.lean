import DynamicUi.Proofs.Spec.Naming
import DynamicUi.Spec.Validation
import Mathlib.Data.Finset.Card

/-! # The advisory checks are sound and complete

The checks come to a node if nothing above it has a defect or lies too deep. They report what is
wrong with each node they come to and, from the second one on, each node of an id. A node that they
do not come to lies below one that is reported, so nothing is reported only if nothing is wrong
anywhere.
-/

namespace DynamicUi

/-! ## Nodes and what is above them -/

/-- A component of a tree with those above it, the nearest one first. -/
structure Descent where
  above : List Component
  self : Component

namespace Descent

/-- The level of the tree, counted from 1. -/
def depth (e : Descent) : Nat := e.above.length + 1

end Descent

namespace Node

mutual

def descents (above : List Component) : Node → List Descent
  | mk c ns => ⟨above, c⟩ :: descentsAll (c :: above) ns

def descentsAll (above : List Component) : List Node → List Descent
  | [] => []
  | n :: ns => descents above n ++ descentsAll above ns

end

mutual

def height : Node → Nat
  | mk _ ns => heights ns + 1

def heights : List Node → Nat
  | [] => 0
  | n :: ns => max (height n) (heights ns)

end

mutual

theorem descents_self (above : List Component) :
    ∀ n, (descents above n).map Descent.self = (flatten above.length n).map fun e => e.2.1
  | mk c ns => by
    rw [descents, flatten, List.map_cons, List.map_cons, descentsAll_self (c :: above) ns]
    rfl

theorem descentsAll_self (above : List Component) :
    ∀ ns, (descentsAll above ns).map Descent.self = (flattenAll above.length ns).map fun e => e.2.1
  | [] => rfl
  | n :: ns => by
    rw [descentsAll, flattenAll, List.map_append, List.map_append, descents_self above n,
      descentsAll_self above ns]

end

mutual

theorem above_suffix (above : List Component) :
    ∀ n, ∀ e ∈ descents above n, above <:+ e.above
  | mk c ns => by
    intro e he
    rcases List.mem_cons.mp he with rfl | he
    · exact List.suffix_rfl
    · exact (List.suffix_cons c above).trans (above_suffixAll (c :: above) ns e he)

theorem above_suffixAll (above : List Component) :
    ∀ ns, ∀ e ∈ descentsAll above ns, above <:+ e.above
  | [] => nofun
  | n :: ns => by
    intro e he
    rcases List.mem_append.mp he with he | he
    · exact above_suffix above n e he
    · exact above_suffixAll above ns e he

end

mutual

theorem depth_le_iff (limit : Nat) (above : List Component) :
    ∀ n, (∀ e ∈ descents above n, e.depth ≤ limit) ↔ above.length + height n ≤ limit
  | mk c ns => by
    have hbelow := depth_le_iffAll limit (c :: above) ns
    rw [descents, List.forall_mem_cons, height]
    rw [List.length_cons] at hbelow
    constructor
    · rintro ⟨hself, h⟩
      have hheights := (hbelow hself).mp h
      omega
    · intro h
      have hself : above.length + 1 ≤ limit := by omega
      exact ⟨hself, (hbelow hself).mpr (by omega)⟩

theorem depth_le_iffAll (limit : Nat) (above : List Component) :
    ∀ ns, above.length ≤ limit →
      ((∀ e ∈ descentsAll above ns, e.depth ≤ limit) ↔ above.length + heights ns ≤ limit)
  | [], h => by simpa [descentsAll, heights] using h
  | n :: ns, h => by
    rw [descentsAll, List.forall_mem_append, depth_le_iff limit above n,
      depth_le_iffAll limit above ns h, heights]
    omega

end

end Node

/-! ## The report -/

def Issue.isDuplicate : Issue → Bool
  | duplicateId _ => true
  | _ => false

namespace Validation

/-- The components from a root down to some node have no defect, and lie within the depth limit. -/
def Open (maxDepth : Nat) (line : List Component) : Prop :=
  (∀ c ∈ line, c.defect = none) ∧ line.length ≤ maxDepth

instance (maxDepth : Nat) (line : List Component) : Decidable (Open maxDepth line) :=
  inferInstanceAs (Decidable (_ ∧ _))

def visited (maxDepth : Nat) (es : List Descent) : List Descent :=
  es.filter fun e => Open maxDepth e.above

def idsOf (es : List Descent) : List String := es.map fun e => e.self.id

def issuesOf (maxDepth : Nat) (e : Descent) : List Issue :=
  match e.self.defect with
  | some d => [.malformed e.self.id d.message]
  | none => ofComponent maxDepth e.depth e.self

/-- The issues of some nodes in turn, where `seen` are the ids met before. -/
def report (maxDepth : Nat) : List Descent → List String → List Issue
  | [], _ => []
  | e :: es, seen =>
    ofId seen e.self.id ++ issuesOf maxDepth e ++ report maxDepth es (e.self.id :: seen)

variable {maxDepth : Nat} {line : List Component}

theorem open_cons {c : Component} :
    Open maxDepth (c :: line) ↔ Open maxDepth line ∧ c.defect = none ∧ line.length < maxDepth := by
  unfold Open
  rw [List.forall_mem_cons, List.length_cons]
  constructor
  · rintro ⟨⟨hc, hline⟩, hlength⟩
    exact ⟨⟨hline, by omega⟩, hc, by omega⟩
  · rintro ⟨⟨hline, -⟩, hc, hlength⟩
    exact ⟨⟨hc, hline⟩, hlength⟩

theorem visited_cons {e : Descent} (h : Open maxDepth e.above) (es : List Descent) :
    visited maxDepth (e :: es) = e :: visited maxDepth es :=
  List.filter_cons_of_pos (decide_eq_true h)

theorem visited_append (es es' : List Descent) :
    visited maxDepth (es ++ es') = visited maxDepth es ++ visited maxDepth es' :=
  List.filter_append ..

theorem visited_descentsAll (h : ¬Open maxDepth line) (ns : List Node) :
    visited maxDepth (Node.descentsAll line ns) = [] := by
  rw [visited, List.filter_eq_nil_iff]
  intro e he hopen
  obtain ⟨hsound, hlength⟩ := of_decide_eq_true hopen
  have hsuffix := Node.above_suffixAll line ns e he
  exact h ⟨fun c hc => hsound c (hsuffix.subset hc), hsuffix.length_le.trans hlength⟩

theorem idsOf_append (es es' : List Descent) : idsOf (es ++ es') = idsOf es ++ idsOf es' :=
  List.map_append

theorem report_append (es es' : List Descent) (seen : List String) :
    report maxDepth (es ++ es') seen =
      report maxDepth es seen ++ report maxDepth es' ((idsOf es).reverse ++ seen) := by
  induction es generalizing seen with
  | nil => rfl
  | cons e es ih => simp [report, ih, idsOf]

mutual

/-- The checks report what is wrong with the nodes that they visit. -/
theorem visit_eq : ∀ (n : Node) (line : List Component) (seen : List String),
    Open maxDepth line →
      let es := visited maxDepth (Node.descents line n)
      visit maxDepth (line.length + 1) n seen =
        (report maxDepth es seen, (idsOf es).reverse ++ seen)
  | .mk c ns, line, seen => by
    intro h es
    have hes : es = ⟨line, c⟩ :: visited maxDepth (Node.descentsAll (c :: line) ns) :=
      visited_cons h _
    have hline : Open maxDepth (c :: line) ↔
        Open maxDepth line ∧ c.defect = none ∧ line.length < maxDepth := open_cons
    rw [hes]
    cases hd : c.defect with
    | some d =>
      have hclosed : ¬Open maxDepth (c :: line) := by simp [hline, hd]
      rw [visited_descentsAll hclosed]
      simp [visit, hd, report, issuesOf, idsOf]
    | none =>
      by_cases hdeep : maxDepth < line.length + 1
      · have hclosed : ¬Open maxDepth (c :: line) := by
          rw [hline]
          omega
        rw [visited_descentsAll hclosed]
        simp [visit, hd, hdeep, report, issuesOf, idsOf, Descent.depth]
      · have hopen : Open maxDepth (c :: line) := hline.mpr ⟨h, hd, by omega⟩
        have hbelow := visitAll_eq ns (c :: line) (c.id :: seen) hopen
        rw [List.length_cons] at hbelow
        simp [visit, hd, hdeep, hbelow, report, issuesOf, idsOf, Descent.depth]

theorem visitAll_eq : ∀ (ns : List Node) (line : List Component) (seen : List String),
    Open maxDepth line →
      let es := visited maxDepth (Node.descentsAll line ns)
      visitAll maxDepth (line.length + 1) ns seen =
        (report maxDepth es seen, (idsOf es).reverse ++ seen)
  | [], _, _ => fun _ => rfl
  | n :: ns, line, seen => by
    intro h es
    have hes : es = visited maxDepth (Node.descents line n) ++
        visited maxDepth (Node.descentsAll line ns) := visited_append ..
    rw [hes, visitAll, visit_eq n line seen h, report_append, idsOf_append]
    simp only [visitAll_eq ns line _ h, List.reverse_append, List.append_assoc]

end

/-! ## Nothing is reported -/

theorem issuesOf_eq_nil_iff (e : Descent) : issuesOf maxDepth e = [] ↔
    e.self.defect = none ∧ e.self.rejected = [] ∧ e.self.kind ≠ "" ∧ e.depth ≤ maxDepth := by
  unfold issuesOf
  cases e.self.defect with
  | some d => simp
  | none => simp [ofComponent]

theorem report_eq_nil_iff (es : List Descent) (seen : List String) :
    report maxDepth es seen = [] ↔
      (∀ e ∈ es, issuesOf maxDepth e = []) ∧ (idsOf es).Nodup ∧ ∀ id ∈ idsOf es, id ∉ seen := by
  induction es generalizing seen with
  | nil => simp [report, idsOf]
  | cons e es ih =>
    have hid : ofId seen e.self.id = [] ↔ e.self.id ∉ seen := by simp [ofId]
    have hids : idsOf (e :: es) = e.self.id :: idsOf es := rfl
    rw [report, List.append_eq_nil_iff, List.append_eq_nil_iff, ih, hid, hids,
      List.forall_mem_cons, List.forall_mem_cons, List.nodup_cons]
    simp only [List.mem_cons, not_or]
    constructor
    · rintro ⟨⟨hnew, hself⟩, hrest, hnodup, hapart⟩
      exact ⟨⟨hself, hrest⟩, ⟨fun hmem => (hapart _ hmem).1 rfl, hnodup⟩, hnew,
        fun id hmem => (hapart id hmem).2⟩
    · rintro ⟨⟨hself, hrest⟩, ⟨hfirst, hnodup⟩, hnew, hapart⟩
      exact ⟨⟨hnew, hself⟩, hrest, hnodup, fun id hmem => ⟨fun he => hfirst (he ▸ hmem),
        hapart id hmem⟩⟩

mutual

theorem visited_eq_self : ∀ (n : Node) (line : List Component), Open maxDepth line →
    (∀ e ∈ visited maxDepth (Node.descents line n), issuesOf maxDepth e = []) →
      visited maxDepth (Node.descents line n) = Node.descents line n
  | .mk c ns, line => by
    intro h hclean
    rw [Node.descents, visited_cons h, List.forall_mem_cons] at hclean
    obtain ⟨hself, hbelow⟩ := hclean
    obtain ⟨hdefect, -, -, hdepth⟩ := (issuesOf_eq_nil_iff _).mp hself
    have hopen : Open maxDepth (c :: line) := open_cons.mpr ⟨h, hdefect, hdepth⟩
    rw [Node.descents, visited_cons h, visitedAll_eq_self ns _ hopen hbelow]

theorem visitedAll_eq_self : ∀ (ns : List Node) (line : List Component), Open maxDepth line →
    (∀ e ∈ visited maxDepth (Node.descentsAll line ns), issuesOf maxDepth e = []) →
      visited maxDepth (Node.descentsAll line ns) = Node.descentsAll line ns
  | [], _ => fun _ _ => rfl
  | n :: ns, line => by
    intro h hclean
    rw [Node.descentsAll, visited_append, List.forall_mem_append] at hclean
    rw [Node.descentsAll, visited_append, visited_eq_self n line h hclean.1,
      visitedAll_eq_self ns line h hclean.2]

end

/-! ## Ids that are met again -/

theorem duplicates_issuesOf (e : Descent) :
    (issuesOf maxDepth e).countP Issue.isDuplicate = 0 := by
  rw [List.countP_eq_zero]
  unfold issuesOf
  cases e.self.defect with
  | some d => simp [Issue.isDuplicate]
  | none =>
    simp only [ofComponent, List.mem_append, List.mem_map]
    rintro issue ((⟨b, -, rfl⟩ | hkind) | hdepth)
    · simp [Issue.isDuplicate]
    · obtain ⟨-, hissue⟩ := List.mem_ite_nil_right.mp hkind
      obtain rfl := List.mem_singleton.mp hissue
      simp [Issue.isDuplicate]
    · obtain ⟨-, hissue⟩ := List.mem_ite_nil_right.mp hdepth
      obtain rfl := List.mem_singleton.mp hissue
      simp [Issue.isDuplicate]

theorem duplicates_report (es : List Descent) (seen : List String) :
    (report maxDepth es seen).countP Issue.isDuplicate + (idsOf es ++ seen).toFinset.card =
      es.length + seen.toFinset.card := by
  induction es generalizing seen with
  | nil => simp [report, idsOf]
  | cons e es ih =>
    have hrest := ih (e.self.id :: seen)
    have hids : (idsOf (e :: es) ++ seen).toFinset =
        (idsOf es ++ e.self.id :: seen).toFinset := by
      apply List.toFinset_eq_of_perm
      exact List.perm_middle.symm
    rw [report, List.countP_append, List.countP_append, duplicates_issuesOf, hids,
      List.length_cons]
    by_cases hseen : e.self.id ∈ seen
    · have hcard : (e.self.id :: seen).toFinset.card = seen.toFinset.card := by
        rw [List.toFinset_cons, Finset.insert_eq_of_mem (List.mem_toFinset.mpr hseen)]
      have hone : (ofId seen e.self.id).countP Issue.isDuplicate = 1 := by
        simp [ofId, hseen, Issue.isDuplicate]
      omega
    · have hcard : (e.self.id :: seen).toFinset.card = seen.toFinset.card + 1 := by
        rw [List.toFinset_cons, Finset.card_insert_of_notMem (mt List.mem_toFinset.mp hseen)]
      have hnone : (ofId seen e.self.id).countP Issue.isDuplicate = 0 := by
        simp [ofId, hseen]
      omega

end Validation

namespace Spec

def descents (s : Spec) : List Descent := Node.descentsAll [] s.roots

def height (s : Spec) : Nat := Node.heights s.roots

theorem idsOf_descents (s : Spec) : Validation.idsOf s.descents = s.ids := by
  have hselves := congrArg (List.map Component.id) (Node.descentsAll_self [] s.roots)
  rw [List.map_map, List.map_map] at hselves
  exact hselves

theorem issues_eq_report (s : Spec) (maxDepth : Nat) : s.issues maxDepth =
    Validation.report maxDepth (Validation.visited maxDepth s.descents) [] := by
  have hroots : Validation.Open maxDepth [] := ⟨nofun, Nat.zero_le _⟩
  exact congrArg Prod.fst (Validation.visitAll_eq s.roots [] [] hroots)

theorem sound_iff (s : Spec) (maxDepth : Nat) :
    (∀ e ∈ s.descents, Validation.issuesOf maxDepth e = []) ↔
      (∀ e ∈ s.descents, e.self.defect = none ∧ e.self.rejected = [] ∧ e.self.kind ≠ "") ∧
      s.height ≤ maxDepth := by
  have hdepth := Node.depth_le_iffAll maxDepth [] s.roots (Nat.zero_le _)
  rw [List.length_nil, Nat.zero_add] at hdepth
  simp only [Validation.issuesOf_eq_nil_iff]
  rw [height, ← hdepth]
  constructor
  · intro h
    exact ⟨fun e he => ⟨(h e he).1, (h e he).2.1, (h e he).2.2.1⟩, fun e he => (h e he).2.2.2⟩
  · rintro ⟨h, hle⟩ e he
    obtain ⟨hdefect, hrejected, hkind⟩ := h e he
    exact ⟨hdefect, hrejected, hkind, hle e he⟩

/-- The checks report nothing exactly if no node has a defect, a rejected binding or an empty type,
no level of the tree lies below the depth limit, and no two nodes have one id. Among the nodes that
they visit, those below sound nodes within the limit, each is the first of its id or is reported as
a duplicate, so there are as many duplicates as the visited nodes outnumber their ids. -/
theorem issues_sound_complete (s : Spec) (maxDepth : Nat) :
    let visited := s.descents.filter fun e =>
      (∀ c ∈ e.above, c.defect = none) ∧ e.above.length ≤ maxDepth
    (s.issues maxDepth = [] ↔
      (∀ e ∈ s.descents, e.self.defect = none ∧ e.self.rejected = [] ∧ e.self.kind ≠ "") ∧
      s.height ≤ maxDepth ∧ s.ids.Nodup) ∧
    (s.issues maxDepth).countP Issue.isDuplicate +
      (visited.map fun e => e.self.id).toFinset.card = visited.length := by
  intro visited
  have hroots : Validation.Open maxDepth [] := ⟨nofun, Nat.zero_le _⟩
  have hreport : s.issues maxDepth = Validation.report maxDepth visited [] :=
    s.issues_eq_report maxDepth
  constructor
  · rw [hreport, Validation.report_eq_nil_iff, ← and_assoc (b := s.height ≤ maxDepth),
      ← s.sound_iff, ← s.idsOf_descents]
    constructor
    · rintro ⟨hvisited, hnodup, -⟩
      have hall : visited = s.descents :=
        Validation.visitedAll_eq_self s.roots [] hroots hvisited
      rw [hall] at hvisited hnodup
      exact ⟨hvisited, hnodup⟩
    · rintro ⟨hall, hnodup⟩
      have hsublist : visited.Sublist s.descents := List.filter_sublist
      exact ⟨fun e he => hall e (hsublist.subset he), (hsublist.map _).nodup hnodup, nofun⟩
  · rw [hreport]
    simpa [Validation.idsOf] using Validation.duplicates_report visited []

/-- Of five nodes with one id the checks visit four: not the one below the defect. -/
example :
    let leaf : Node := .leaf (.plain "a" "text")
    let broken : Node := .mk (.malformed "a" "no type") [leaf]
    let s : Spec := { untitled with roots := [.mk (.plain "a" "card") [leaf, broken], leaf] }
    s.descents.length = 5 ∧ (s.issues 2).countP Issue.isDuplicate = 3 := by
  decide

end Spec

end DynamicUi
